import Mvdcc.Tpcc.Deliveries
import Mvdcc.Tpcc.Execution
import Mvdcc.Tpcc.Queries

namespace Mvdcc.Tpcc
open Library Transaction

/-! Rules for profiles that may also fail, once so many timestamps have been taken. -/

section Rules
variable {τ α β : Type} (committed view : τ → Store) (t : Nat)

/-- The transaction sees `s`, its abort would give `c`, and `t` timestamps have been taken. -/
def Stands (c s : Store) (w : World τ) : Prop := At committed view c s w ∧ t ≤ w.clock

/-- A profile that ends early has failed, or has committed nothing. -/
def Left (c : Store) (st : Status) (w : World τ) : Prop :=
  (st = .bug ∨ Ended committed view c st w) ∧ t ≤ w.clock

/-- Part of a profile takes what it sees from `s` to a store with `Q`. -/
def Works (c s : Store) (x : Script (World τ) Status α) (Q : α → Store → Prop) : Prop :=
  Script.Meets (Stands committed view t c s) x (fun a w => ∃ s', Stands committed view t c s' w ∧ Q a s')
    (Left committed view t c)

/-- A whole profile, or its end, commits a store with `Q` if it commits. -/
def Publishes (c s : Store) (x : Script (World τ) Status α) (Q : α → Store → Prop) : Prop :=
  Script.Meets (Stands committed view t c s) x
    (fun a w => ∃ s', Stands committed view t s' s' w ∧ Q a s') (Left committed view t c)

variable {committed view} {t : Nat} {T : Transaction τ} {c s : Store}
variable {x : Script (World τ) Status α} {f : α → Script (World τ) Status β}
variable {Q Q' : α → Store → Prop} {R : β → Store → Prop}

theorem Works.userAbort : Works committed view t c s (Script.throw .userAbort) Q :=
  Script.Meets.throw (fun _ hw => ⟨Or.inr ⟨hw.1.1, Or.inl rfl⟩, hw.2⟩)

theorem Works.bind (hx : Works committed view t c s x Q)
    (hf : ∀ a s', Q a s' → Works committed view t c s' (f a) R) :
    Works committed view t c s (x >>= f) R := by
  refine Script.Meets.bind hx ?_
  rintro a w ⟨s', hw, hq⟩
  exact hf a s' hq w hw

/-- What follows a part of a profile publishes. -/
theorem Works.publishes (hx : Works committed view t c s x Q)
    (hf : ∀ a s', Q a s' → Publishes committed view t c s' (f a) R) :
    Publishes committed view t c s (x >>= f) R := by
  refine Script.Meets.bind hx ?_
  rintro a w ⟨s', hw, hq⟩
  exact hf a s' hq w hw

theorem Works.weaken (hx : Works committed view t c s x Q) (hq : ∀ a s', Q a s' → Q' a s') :
    Works committed view t c s x Q' :=
  Script.Meets.weaken hx (fun _ hw => hw) (fun a _ ⟨s', hw, h⟩ => ⟨s', hw, hq a s' h⟩)

theorem Works.pure {a : α} (h : Q a s) : Works committed view t c s (Pure.pure a) Q :=
  fun _ hw => ⟨s, hw, h⟩

theorem Works.forRange {body : Nat → Script (World τ) Status Unit} {a m : Nat}
    {I : Nat → Store → Prop} (hs : I 0 s)
    (h : ∀ i < m, ∀ s, I i s → Works committed view t c s (body (a + i)) (fun _ => I (i + 1))) :
    Works committed view t c s (Script.forEach body (List.range' a m)) (fun _ => I m) := by
  refine Script.Meets.weaken (Script.Meets.forRange
    (I := fun n w => ∃ s', Stands committed view t c s' w ∧ I n s') ?_)
    (fun w hw => ⟨s, hw, hs⟩) (fun _ _ hq => hq)
  rintro i hi w ⟨s', hw, hI⟩
  exact h i hi s' hI w hw

theorem Works.getTimestamp : Works committed view t c s
    (getTimestamp : Script (World τ) Status _) (fun _ s' => s' = s) :=
  fun _ hw => ⟨s, ⟨hw.1, Nat.le_succ_of_le hw.2⟩, rfl⟩

/-- An operation, before its result is looked at. -/
theorem ask_works {op : Request τ α} {Q : Store → α → Store → Prop} {F : Store → Prop}
    (hop : Serves committed view op Q F) :
    Script.Meets (Stands committed view t c s) (ask op)
      (fun res w => Replied committed view c s (Q s) (F s) res w ∧ t ≤ w.clock)
      (Left committed view t c) := by
  rintro w ⟨⟨hc, rfl⟩, hclock⟩
  obtain ⟨hsame, hres⟩ := hop w.tx
  exact ⟨⟨hsame.trans hc, hres⟩, hclock⟩

/-- A result that is not a success ends the profile. -/
theorem checked_works (h : KeyedStore committed view T) {F : Prop} {res : Reply α} :
    Script.Meets (fun w => Replied committed view c s Q F res w ∧ t ≤ w.clock) (T.checked res)
      (fun a w => ∃ s', Stands committed view t c s' w ∧ Q a s') (Left committed view t c) := by
  rintro ⟨tx, coins, clock⟩ ⟨⟨hc, hres⟩, hclock⟩
  have habort : Left committed view t c .systemAbort { tx := T.abort tx, coins, clock } :=
    ⟨Or.inr ⟨(h.abort tx).1.trans hc, Or.inr ⟨rfl, (h.abort tx).2.trans hc⟩⟩, hclock⟩
  match res, coins with
  | .success a, [] => exact ⟨_, ⟨⟨hc, rfl⟩, hclock⟩, hres⟩
  | .success a, false :: coins => exact ⟨_, ⟨⟨hc, rfl⟩, hclock⟩, hres⟩
  | .success a, true :: coins => exact habort
  | .fail, [] => exact ⟨Or.inl rfl, hclock⟩
  | .fail, _ :: _ => exact ⟨Or.inl rfl, hclock⟩
  | .abort, [] => exact habort
  | .abort, _ :: _ => exact habort

theorem Works.require (h : KeyedStore committed view T) {op : Request τ α}
    {Q : Store → α → Store → Prop} {F : Store → Prop} (hop : Serves committed view op Q F) :
    Works committed view t c s (T.require op) (Q s) :=
  (ask_works hop).bind (fun _ => checked_works h)

/-- A commit publishes what the transaction sees. -/
theorem finish_publishes (h : KeyedStore committed view T) {Q : Unit → Store → Prop}
    (hs : Q () s) : Publishes committed view t c s T.finish Q := by
  rintro w ⟨⟨hc, rfl⟩, hclock⟩
  have hcommit := h.commit w.tx
  unfold Transaction.finish
  cases hdone : (T.commit w.tx).1 with
  | true =>
    simp only [hdone, if_true] at hcommit
    simp only [if_true, hdone]
    exact ⟨_, ⟨hcommit, hclock⟩, hs⟩
  | false =>
    simp only [hdone, Bool.false_eq_true, if_false] at hcommit
    simp only [Bool.false_eq_true, if_false, hdone]
    exact ⟨Or.inr ⟨hcommit.1.trans hc, Or.inr ⟨rfl, hcommit.2.trans hc⟩⟩, hclock⟩

/-- After the commit the profile returns what it has to report. -/
theorem finish_reports (h : KeyedStore committed view T) {a : α} (hs : Q a s) :
    Publishes committed view t c s (T.finish >>= fun _ => Pure.pure a) Q :=
  Script.Meets.bind (finish_publishes h (Q := fun _ s' => Q a s') hs) (fun _ _ hw => hw)

end Rules
end Mvdcc.Tpcc
