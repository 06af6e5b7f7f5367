import Mathlib.Data.List.Range

namespace Mvdcc.Library

/-- A program on a state that may end early. -/
def Script (σ : Type u) (ε : Type v) (α : Type w) := σ → Except ε α × σ

namespace Script
variable {σ : Type u} {ε : Type v} {α β : Type w} {ι : Type x}

def pure (a : α) : Script σ ε α := fun s => (.ok a, s)

def throw (e : ε) : Script σ ε α := fun s => (.error e, s)

def bind (x : Script σ ε α) (f : α → Script σ ε β) : Script σ ε β := fun s =>
  match x s with
  | (.ok a, s) => f a s
  | (.error e, s) => (.error e, s)

instance : Monad (Script σ ε) where
  pure := pure
  bind := bind

/-- The body once for each element, until one ends early. -/
def forEach (body : ι → Script σ ε PUnit) : List ι → Script σ ε PUnit
  | [] => pure ⟨⟩
  | i :: is => bind (body i) (fun _ => forEach body is)

/-- Every run from `P` ends, normally in `Q` or early in `E`. -/
def Meets (P : σ → Prop) (x : Script σ ε α) (Q : α → σ → Prop) (E : ε → σ → Prop) : Prop :=
  ∀ s, P s → match x s with
    | (.ok a, s') => Q a s'
    | (.error e, s') => E e s'

section Rules
variable {P P' : σ → Prop} {Q Q' : α → σ → Prop} {R : β → σ → Prop} {E : ε → σ → Prop}
variable {x : Script σ ε α} {f : α → Script σ ε β}

theorem Meets.throw {e : ε} (h : ∀ s, P s → E e s) : Meets P (throw e) Q E :=
  fun s hs => h s hs

theorem Meets.bind (hx : Meets P x Q E) (hf : ∀ a, Meets (Q a) (f a) R E) :
    Meets P (x >>= f) R E := by
  intro s hs
  have hq := hx s hs
  change match Script.bind x f s with | (.ok a, s') => R a s' | (.error e, s') => E e s'
  unfold Script.bind
  generalize x s = y at hq
  obtain ⟨_ | a, s'⟩ := y
  · exact hq
  · exact hf a s' hq

theorem Meets.weaken (h : Meets P x Q E) (hp : ∀ s, P' s → P s) (hq : ∀ a s, Q a s → Q' a s) :
    Meets P' x Q' E := by
  intro s hs
  have hx := h s (hp s hs)
  generalize x s = y at hx
  obtain ⟨_ | a, s'⟩ := y
  · exact hx
  · exact hq a s' hx

/-- A loop that keeps an invariant, which may count the elements it has been through. -/
theorem Meets.forEach {body : ι → Script σ ε PUnit} {I : Nat → σ → Prop} {is : List ι} {n : Nat}
    (h : ∀ i ∈ is, ∀ n, Meets (I n) (body i) (fun _ => I (n + 1)) E) :
    Meets (I n) (Script.forEach body is) (fun _ => I (n + is.length)) E := by
  induction is generalizing n with
  | nil => exact fun s hs => hs
  | cons i is ih =>
    have hrest := @ih (n + 1) (fun i' hi' => h i' (List.mem_cons_of_mem _ hi'))
    have hcount : n + (i :: is).length = n + 1 + is.length := by
      rw [List.length_cons]
      omega
    rw [hcount]
    exact Meets.bind (h i List.mem_cons_self n) (fun _ => hrest)

/-- A loop over a range, with an invariant that counts the rounds. -/
theorem Meets.forRange {body : Nat → Script σ ε PUnit} {I : Nat → σ → Prop} {a m : Nat}
    (h : ∀ i < m, Meets (I i) (body (a + i)) (fun _ => I (i + 1)) E) :
    Meets (I 0) (Script.forEach body (List.range' a m)) (fun _ => I m) E := by
  induction m generalizing a I with
  | zero => exact fun s hs => hs
  | succ m ih =>
    rw [List.range'_succ]
    refine Meets.bind (h 0 (Nat.succ_pos m)) (fun _ => ?_)
    refine ih (a := a + 1) (I := fun i => I (i + 1)) (fun i hi => ?_)
    rw [Nat.add_assoc, Nat.add_comm 1 i]
    exact h (i + 1) (Nat.succ_lt_succ hi)

end Rules
end Script
end Mvdcc.Library
