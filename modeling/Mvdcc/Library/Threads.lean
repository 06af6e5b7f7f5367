import Mathlib.Logic.Function.Basic
import Mathlib.Data.List.Basic
import Mathlib.Algebra.BigOperators.Group.Finset.Basic

namespace Mvdcc.Library

/-- A thread: the calls it still has to make, and its place in the first of them. -/
structure Thread (Call : Type u) (Pc : Type v) where
  todo : List Call
  pc : Pc

namespace Thread
variable {Call : Type u} {Pc : Type v} [DecidableEq Call] {start done : Pc}

/-- Where a thread is in any one of its calls: finished calls have left the
list, later ones have not been entered. -/
def pcOf (start done : Pc) (t : Thread Call Pc) (c : Call) : Pc :=
  match t.todo with
  | [] => done
  | head :: rest => if c = head then t.pc else if c ∈ rest then start else done

theorem pcOf_nil {t : Thread Call Pc} (h : t.todo = []) (c : Call) :
    t.pcOf start done c = done := by
  simp [pcOf, h]

theorem pcOf_head {t : Thread Call Pc} (h : t.todo = c :: rest) :
    t.pcOf start done c = t.pc := by
  simp [pcOf, h]

theorem pcOf_not_mem {t : Thread Call Pc} (h : c ∉ t.todo) :
    t.pcOf start done c = done := by
  unfold pcOf
  split
  · rfl
  · rename_i head rest ht
    rw [ht, List.mem_cons, not_or] at h
    simp [h.1, h.2]

theorem mem_of_pcOf_ne {t : Thread Call Pc} (h : t.pcOf start done c ≠ done) : c ∈ t.todo := by
  by_contra hn
  exact h (pcOf_not_mem hn)

theorem pcOf_initial {calls : List Call} (h : c ∈ calls) :
    (⟨calls, start⟩ : Thread Call Pc).pcOf start done c = start := by
  cases calls with
  | nil => simp at h
  | cons head rest =>
    rcases List.mem_cons.mp h with rfl | h
    · simp [pcOf]
    · simp [pcOf, h]

/-- Moving inside a call touches that call only. -/
theorem pcOf_advance {t : Thread Call Pc} (h : t.todo = c :: rest) (pc : Pc) :
    (fun c' => ({ t with pc } : Thread Call Pc).pcOf start done c') =
      Function.update (fun c' => t.pcOf start done c') c pc := by
  funext c'
  by_cases hc : c' = c
  · subst hc
    simp [pcOf, h]
  · simp [pcOf, h, hc]

/-- Leaving a finished call changes no call's place. -/
theorem pcOf_return {t : Thread Call Pc} (h : t.todo = c :: rest) (hpc : t.pc = done)
    (hn : t.todo.Nodup) (c' : Call) :
    (⟨rest, start⟩ : Thread Call Pc).pcOf start done c' = t.pcOf start done c' := by
  rw [h, List.nodup_cons] at hn
  by_cases hc : c' = c
  · subst hc
    rw [pcOf_head h, hpc, pcOf_not_mem hn.1]
  · by_cases hm : c' ∈ rest
    · rw [pcOf_initial hm]
      simp [pcOf, h, hc, hm]
    · rw [pcOf_not_mem hm]
      simp [pcOf, h, hc, hm]

/-- Program order seen from the call a thread is in: earlier calls are finished,
later ones have not begun. -/
theorem head_others {t : Thread Call Pc} {calls : List Call} {r : Call → Call → Prop}
    (hr : calls.Pairwise r) (hs : t.todo <:+ calls) (h : t.todo = c :: rest)
    (hn : ∀ a b, r a b → a ≠ b) {c' : Call} (hc : c' ∈ calls) (hne : c' ≠ c) :
    (t.pcOf start done c' = done ∧ r c' c) ∨ (t.pcOf start done c' = start ∧ r c c') := by
  obtain ⟨pre, rfl⟩ := hs
  rw [h] at hr hc
  obtain ⟨_, htodo, hcross⟩ := List.pairwise_append.mp hr
  rcases List.mem_append.mp hc with hp | hm
  · refine Or.inl ⟨pcOf_not_mem ?_, hcross c' hp c List.mem_cons_self⟩
    rw [h]
    intro hm
    exact hn _ _ (hcross c' hp c' hm) rfl
  · rcases List.mem_cons.mp hm with he | hm
    · exact absurd he hne
    · exact Or.inr ⟨by simp [pcOf, h, hne, hm], (List.pairwise_cons.mp htodo).1 c' hm⟩

/-- Of two calls in a list without repetition, the first stands before the second. -/
theorem idxOf_lt_of_sublist {calls : List Call} {c c' : Call} (hn : calls.Nodup)
    (h : [c, c'].Sublist calls) : calls.idxOf c < calls.idxOf c' := by
  induction calls with
  | nil => cases h
  | cons head rest ih =>
    obtain ⟨hhead, hrest⟩ := List.nodup_cons.mp hn
    cases h with
    | cons _ h =>
      have hc : head ≠ c := fun he => hhead (he ▸ h.subset (by simp))
      have hc' : head ≠ c' := fun he => hhead (he ▸ h.subset (by simp))
      rw [List.idxOf_cons_ne _ hc, List.idxOf_cons_ne _ hc']
      exact Nat.succ_lt_succ (ih hrest h)
    | cons_cons _ h =>
      have hc' : c ≠ c' := fun he => hhead (he ▸ h.subset (by simp))
      rw [List.idxOf_cons_self, List.idxOf_cons_ne _ hc']
      exact Nat.succ_pos _

/-- A call that has begun leaves none of the earlier ones unfinished. -/
theorem pcOf_earlier {t : Thread Call Pc} {calls : List Call} {c c' : Call}
    (hn : calls.Nodup) (hs : t.todo <:+ calls) (h : [c, c'].Sublist calls)
    (hb : t.pcOf start done c' ≠ start) : t.pcOf start done c = done := by
  by_contra hd
  have hmem := mem_of_pcOf_ne hd
  obtain ⟨pre, rfl⟩ := hs
  -- both calls are still in the list, `c'` behind its head
  obtain ⟨l, l', hl, hpre, htodo⟩ := List.sublist_append_iff.mp h
  cases l with
  | cons a l =>
    obtain ⟨rfl, _⟩ := List.cons.inj hl
    exact (List.nodup_append.mp hn).2.2 c (hpre.subset List.mem_cons_self) c hmem rfl
  | nil =>
    rw [List.nil_append] at hl
    subst hl
    cases ht : t.todo with
    | nil =>
      rw [ht] at hmem
      cases hmem
    | cons head rest =>
      rw [ht] at htodo
      have hnodup := List.nodup_cons.mp (ht ▸ (List.nodup_append.mp hn).2.1)
      have hrest : c' ∈ rest := by
        cases htodo with
        | cons _ h => exact h.subset (by simp)
        | cons_cons _ h => exact h.subset (by simp)
      have hhead : c' ≠ head := fun he => hnodup.1 (he ▸ hrest)
      exact hb (by simp [pcOf, ht, hhead, hrest])

end Thread

/-- The threads of a list whose place a test accepts. -/
def tally {α : Type u} {β : Type v} (p : β → Bool) (l : List α) (g : α → β) : Nat :=
  l.countP (fun x => p (g x))

/-- Moving one thread trades its old count for the new one. -/
theorem tally_update {α : Type u} {β : Type v} [DecidableEq α] {l : List α} (hn : l.Nodup) {a : α}
    (ha : a ∈ l) (p : β → Bool) (g : α → β) (b : β) :
    tally p l (Function.update g a b) + (p (g a)).toNat = tally p l g + (p b).toNat := by
  unfold tally
  induction l with
  | nil => cases ha
  | cons c l ih =>
    obtain ⟨hc, hn⟩ := List.nodup_cons.mp hn
    rw [List.countP_cons, List.countP_cons]
    rcases List.mem_cons.mp ha with rfl | ha
    · have hl : l.countP (fun x => p (Function.update g a b x)) = l.countP (fun x => p (g x)) := by
        apply List.countP_congr
        intro x hx
        have hne : x ≠ a := by
          rintro rfl
          exact hc hx
        rw [Function.update_of_ne hne]
      rw [hl, Function.update_self]
      cases p (g a) <;> cases p b <;> simp
    · have hne : c ≠ a := fun he => hc (he ▸ ha)
      rw [Function.update_of_ne hne]
      have := ih hn ha
      omega

theorem tally_pos {α : Type u} {β : Type v} {p : β → Bool} {l : List α} {g : α → β} {a : α}
    (ha : a ∈ l) (hp : p (g a) = true) : 0 < tally p l g :=
  List.countP_pos_iff.mpr ⟨a, ha, hp⟩

theorem tally_eq_zero {α : Type u} {β : Type v} {p : β → Bool} {l : List α} {g : α → β} :
    tally p l g = 0 ↔ ∀ a ∈ l, p (g a) = false := by
  simp [tally]

theorem tally_eq_length {α : Type u} {β : Type v} {p : β → Bool} {l : List α} {g : α → β} :
    tally p l g = l.length ↔ ∀ a ∈ l, p (g a) = true := by
  simp [tally]

/-- Replacing one summand trades its old share for the new one. -/
theorem sum_update {α : Type u} {β : Type v} {M : Type w} [DecidableEq α] [AddCommMonoid M]
    {s : Finset α} (f : β → M) (g : α → β) {a : α} (ha : a ∈ s) (b : β) :
    ∑ x ∈ s, f (Function.update g a b x) + f (g a) = ∑ x ∈ s, f (g x) + f b := by
  rw [← Finset.add_sum_erase s _ ha, ← Finset.add_sum_erase s (fun x => f (g x)) ha,
    Function.update_self]
  have he : ∑ x ∈ s.erase a, f (Function.update g a b x) = ∑ x ∈ s.erase a, f (g x) := by
    apply Finset.sum_congr rfl
    intro x hx
    rw [Function.update_of_ne (Finset.ne_of_mem_erase hx)]
  rw [he, add_comm (f b), add_assoc, add_comm (f b), ← add_assoc,
    add_comm (∑ x ∈ s.erase a, f (g x))]

end Mvdcc.Library
