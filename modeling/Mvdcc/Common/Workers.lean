import Mvdcc.Common.Workload

namespace Mvdcc
open Library

section Workers
variable {Key : Type u} {Pc : Type v} {start done : Pc}
variable {owner : Nat → Nat} {program : Nat → List (Call Key)}
variable {workers : Nat → Thread (Call Key) Pc}

/-- Every worker runs its own transactions, in loop order. -/
structure Assignment (owner : Nat → Nat) (program : Nat → List (Call Key)) : Prop where
  ordered : ∀ w, (program w).Pairwise Call.Before
  owned : ∀ w, ∀ c ∈ program w, owner c.serial = w

section Programs
variable {ops : Nat → List (Operation Key)} {c : Call Key}

/-- The 64 workers share the transactions sequentially. -/
theorem sequential_assigned (hd : ∀ s, ((ops s).map Operation.index).Nodup) :
    Assignment (· / 64) (fun w => if w < 64 then sequentialCalls w ops else []) := by
  refine ⟨fun w => ?_, fun w c hc => ?_⟩
  · split
    · exact sequentialCalls_pairwise w hd
    · exact List.Pairwise.nil
  · split at hc
    · exact (mem_sequentialCalls.mp hc).1
    · cases hc

/-- The 64 workers share the transactions in turns. -/
theorem roundRobin_assigned (hd : ∀ s, ((ops s).map Operation.index).Nodup) :
    Assignment (· % 64) (fun w => if w < 64 then roundRobinCalls w ops else []) := by
  refine ⟨fun w => ?_, fun w c hc => ?_⟩
  · split
    · exact roundRobinCalls_pairwise w hd
    · exact List.Pairwise.nil
  · split at hc
    · rename_i hw
      exact ((mem_roundRobinCalls hw).mp hc).2.1
    · cases hc

/-- A worker runs all of its transactions. -/
theorem mem_sequential_program :
    c ∈ (if c.serial / 64 < 64 then sequentialCalls (c.serial / 64) ops else []) ↔
      c.serial < numTxsInOneEpoch ∧ c.operation ∈ ops c.serial := by
  have hlt : c.serial / 64 < 64 ↔ c.serial < numTxsInOneEpoch := by
    unfold numTxsInOneEpoch
    omega
  rw [← hlt]
  split
  · rename_i hw
    rw [mem_sequentialCalls]
    simp [hw]
  · rename_i hw
    simp [hw]

theorem mem_roundRobin_program :
    c ∈ (if c.serial % 64 < 64 then roundRobinCalls (c.serial % 64) ops else []) ↔
      c.serial < numTxsInOneEpoch ∧ c.operation ∈ ops c.serial := by
  have hw : c.serial % 64 < 64 := Nat.mod_lt _ (by omega)
  rw [if_pos hw, mem_roundRobinCalls hw]
  simp

end Programs

/-- What is left of every worker's program. -/
def Remaining (program : Nat → List (Call Key)) (workers : Nat → Thread (Call Key) Pc) : Prop :=
  ∀ w, (workers w).todo <:+ program w

theorem Remaining.mem (hr : Remaining program workers) {w : Nat}
    (h : (workers w).todo = c :: rest) : c ∈ program w :=
  (hr w).subset (h ▸ List.mem_cons_self)

theorem Remaining.return (hr : Remaining program workers) {w : Nat}
    (h : (workers w).todo = c :: rest) (pc : Pc) :
    Remaining program (Function.update workers w ⟨rest, pc⟩) := by
  intro w'
  by_cases hw : w' = w
  · subst hw
    rw [Function.update_self]
    exact (List.suffix_cons c rest).trans (h ▸ hr w')
  · rw [Function.update_of_ne hw]
    exact hr w'

theorem Remaining.advance (hr : Remaining program workers) (w : Nat) (pc : Pc) :
    Remaining program (Function.update workers w { workers w with pc }) := by
  intro w'
  by_cases hw : w' = w
  · subst hw
    rw [Function.update_self]
    exact hr w'
  · rw [Function.update_of_ne hw]
    exact hr w'

variable [DecidableEq Key]

/-- Where each call stands: it belongs to the worker that owns its transaction. -/
def view (start done : Pc) (owner : Nat → Nat) (workers : Nat → Thread (Call Key) Pc)
    (c : Call Key) : Pc :=
  (workers (owner c.serial)).pcOf start done c

theorem view_head (ha : Assignment owner program) (hr : Remaining program workers) {w : Nat}
    (h : (workers w).todo = c :: rest) : view start done owner workers c = (workers w).pc := by
  rw [view, ha.owned w c (hr.mem h), Thread.pcOf_head h]

/-- A step inside a call moves that call and no other. -/
theorem view_advance (ha : Assignment owner program) (hr : Remaining program workers) {w : Nat}
    (h : (workers w).todo = c :: rest) (pc : Pc) :
    view start done owner (Function.update workers w { workers w with pc }) =
      Function.update (view start done owner workers) c pc := by
  have hc := ha.owned w c (hr.mem h)
  funext c'
  unfold view
  by_cases hw : owner c'.serial = w
  · rw [hw, Function.update_self, congrFun (Thread.pcOf_advance h pc) c']
    by_cases he : c' = c
    · rw [he, Function.update_self, Function.update_self]
    · rw [Function.update_of_ne he, Function.update_of_ne he, hw]
  · have he : c' ≠ c := fun he => hw (he ▸ hc)
    rw [Function.update_of_ne hw, Function.update_of_ne he]

/-- Returning from a finished call moves no call. -/
theorem view_return (ha : Assignment owner program) (hr : Remaining program workers) {w : Nat}
    (h : (workers w).todo = c :: rest) (hpc : (workers w).pc = done) :
    view start done owner (Function.update workers w ⟨rest, start⟩) =
      view start done owner workers := by
  have hn : (workers w).todo.Nodup :=
    ((ha.ordered w).imp Call.Before.ne).sublist (hr w).sublist
  funext c'
  unfold view
  by_cases hw : owner c'.serial = w
  · rw [hw, Function.update_self]
    exact Thread.pcOf_return h hpc hn c'
  · rw [Function.update_of_ne hw]

theorem view_enter (h : c ∈ program (owner c.serial)) :
    view start done owner (fun w => ⟨program w, start⟩) c = start :=
  Thread.pcOf_initial h

theorem view_not_mem (hr : Remaining program workers) (h : c ∉ program (owner c.serial)) :
    view start done owner workers c = done :=
  Thread.pcOf_not_mem (fun hm => h ((hr _).subset hm))

theorem view_finished (h : (workers (owner c.serial)).todo = []) :
    view start done owner workers c = done :=
  Thread.pcOf_nil h c

/-- Of two calls of one worker on one key, the earlier is finished or the later
has not begun. -/
theorem view_others (ha : Assignment owner program) (hr : Remaining program workers) {w : Nat}
    (h : (workers w).todo = c :: rest) (hc : c' ∈ program w) (hk : c'.index = c.index)
    (hne : c' ≠ c) :
    (view start done owner workers c' = done ∧ c'.serial < c.serial) ∨
      (view start done owner workers c' = start ∧ c.serial < c'.serial) := by
  rw [view, ha.owned w c' hc]
  rcases Thread.head_others (ha.ordered w) (hr w) h (fun _ _ => Call.Before.ne) hc hne with
    ⟨hd, hb⟩ | ⟨hs, hb⟩
  · exact Or.inl ⟨hd, hb.lt hk⟩
  · exact Or.inr ⟨hs, hb.lt hk.symm⟩

/-- A worker that has not finished a call is in that call or in an earlier one. -/
theorem view_unfinished (ha : Assignment owner program) (hr : Remaining program workers)
    (h : view start done owner workers c ≠ done) :
    ∃ head rest, (workers (owner c.serial)).todo = head :: rest ∧ head.serial ≤ c.serial := by
  have hm := Thread.mem_of_pcOf_ne h
  cases htodo : (workers (owner c.serial)).todo with
  | nil =>
    rw [htodo] at hm
    cases hm
  | cons head rest =>
    refine ⟨head, rest, rfl, ?_⟩
    rw [htodo] at hm
    rcases List.mem_cons.mp hm with rfl | hm
    · exact Nat.le_refl _
    · have ho := (ha.ordered (owner c.serial)).sublist (htodo ▸ (hr (owner c.serial)).sublist)
      exact ((List.pairwise_cons.mp ho).1 c hm).le

section Place
variable (v : Call Key → Pc) (c : Call Key) (pc : Pc)

/-- Seen from its own row and kind of operation, a step moves one serial id. -/
theorem update_place : (fun serial => Function.update v c pc ⟨serial, c.operation⟩) =
    Function.update (fun serial => v ⟨serial, c.operation⟩) c.serial pc := by
  funext serial
  by_cases h : serial = c.serial
  · subst h
    have hc : (⟨c.serial, c.operation⟩ : Call Key) = c := rfl
    simp [hc]
  · rw [Function.update_of_ne h]
    apply Function.update_of_ne
    intro he
    exact h (congrArg Call.serial he)

theorem update_place_other {o : Operation Key} (h : o ≠ c.operation) (serial : Nat) :
    Function.update v c pc ⟨serial, o⟩ = v ⟨serial, o⟩ := by
  apply Function.update_of_ne
  intro he
  exact h (congrArg Call.operation he)

end Place

end Workers
end Mvdcc
