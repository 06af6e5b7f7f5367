import Mathlib.Order.Interval.Set.Nat

namespace Mvdcc.Library

/-- The resources `0, 1, ..., used - 1` were handed out, and each is in one place. -/
structure Placed {P : Type u} (f : P → Option Nat) (used : Nat) : Prop where
  unique : ∀ b p q, f p = some b → f q = some b → p = q
  used : ∀ b, (∃ p, f p = some b) ↔ b < used

namespace Placed
variable {P : Type u} {f f' : P → Option Nat} {used b : Nat} {p q : P}

theorem initial : Placed (fun _ : P => none) 0 := by
  refine ⟨nofun, ?_⟩
  intro b
  constructor
  · exact fun ⟨_, hp⟩ => nomatch hp
  · exact fun hb => absurd hb (Nat.not_lt_zero b)

theorem lt (h : Placed f used) (hp : f p = some b) : b < used :=
  (h.used b).mp ⟨p, hp⟩

/-- A resource moves to an empty place. -/
theorem move (h : Placed f used) (hp : f p = some b) (hq : f q = none) (hp' : f' p = none)
    (hq' : f' q = some b) (hr : ∀ r, r ≠ p → r ≠ q → f' r = f r) : Placed f' used := by
  have hback : ∀ x r, f' r = some x → (x = b ∧ r = q) ∨ (x ≠ b ∧ r ≠ q ∧ f r = some x) := by
    intro x r hx
    by_cases hrq : r = q
    · subst hrq
      rw [hq', Option.some.injEq] at hx
      exact Or.inl ⟨hx.symm, rfl⟩
    · have hrp : r ≠ p := by
        intro he
        rw [he, hp'] at hx
        cases hx
      rw [hr r hrp hrq] at hx
      refine Or.inr ⟨?_, hrq, hx⟩
      intro he
      exact hrp (h.unique b r p (he ▸ hx) hp)
  refine ⟨?_, ?_⟩
  · intro x r r' hx hx'
    rcases hback x r hx with ⟨hb, rfl⟩ | ⟨hb, _, hx⟩
    · rcases hback x r' hx' with ⟨_, rfl⟩ | ⟨hn, _⟩
      · rfl
      · exact absurd hb hn
    · rcases hback x r' hx' with ⟨hn, _⟩ | ⟨_, _, hx'⟩
      · exact absurd hn hb
      · exact h.unique x r r' hx hx'
  · intro x
    rw [← h.used x]
    constructor
    · intro hex
      obtain ⟨r, hx⟩ := hex
      rcases hback x r hx with ⟨rfl, _⟩ | ⟨_, _, hx⟩
      · exact ⟨p, hp⟩
      · exact ⟨r, hx⟩
    · intro hex
      obtain ⟨r, hx⟩ := hex
      by_cases hrp : r = p
      · rw [hrp, hp, Option.some.injEq] at hx
        exact ⟨q, hx ▸ hq'⟩
      · have hrq : r ≠ q := by
          intro he
          rw [he, hq] at hx
          cases hx
        exact ⟨r, (hr r hrp hrq).trans hx⟩

/-- A new resource is handed out to an empty place. -/
theorem put (h : Placed f used) (hq : f q = none) (hq' : f' q = some used)
    (hr : ∀ r, r ≠ q → f' r = f r) : Placed f' (used + 1) := by
  have hback : ∀ x r, f' r = some x → (x = used ∧ r = q) ∨ (r ≠ q ∧ f r = some x) := by
    intro x r hx
    by_cases hrq : r = q
    · subst hrq
      rw [hq', Option.some.injEq] at hx
      exact Or.inl ⟨hx.symm, rfl⟩
    · exact Or.inr ⟨hrq, (hr r hrq) ▸ hx⟩
  refine ⟨?_, ?_⟩
  · intro x r r' hx hx'
    rcases hback x r hx with ⟨hu, rfl⟩ | ⟨_, hx⟩
    · rcases hback x r' hx' with ⟨_, rfl⟩ | ⟨_, hx'⟩
      · rfl
      · exact absurd hu (Nat.ne_of_lt (h.lt hx'))
    · rcases hback x r' hx' with ⟨hu, _⟩ | ⟨_, hx'⟩
      · exact absurd hu (Nat.ne_of_lt (h.lt hx))
      · exact h.unique x r r' hx hx'
  · intro x
    rw [Nat.lt_succ_iff_lt_or_eq, ← h.used x]
    constructor
    · intro hex
      obtain ⟨r, hx⟩ := hex
      rcases hback x r hx with ⟨hu, _⟩ | ⟨_, hx⟩
      · exact Or.inr hu
      · exact Or.inl ⟨r, hx⟩
    · intro hex
      rcases hex with ⟨r, hx⟩ | hu
      · have hrq : r ≠ q := by
          intro he
          rw [he, hq] at hx
          cases hx
        exact ⟨r, (hr r hrq).trans hx⟩
      · exact ⟨q, hu ▸ hq'⟩

/-- As many resources were handed out as there are occupied places. -/
theorem used_eq_ncard (h : Placed f used) :
    {p | f p ≠ none}.Finite ∧ used = {p | f p ≠ none}.ncard := by
  have hbij : Set.BijOn (fun p => (f p).getD 0) {p | f p ≠ none} (Set.Iio used) := by
    refine ⟨?_, ?_, ?_⟩
    · intro p hp
      obtain ⟨x, hx⟩ := Option.ne_none_iff_exists'.mp hp
      simpa [hx] using h.lt hx
    · intro p hp q hq he
      obtain ⟨x, hx⟩ := Option.ne_none_iff_exists'.mp hp
      obtain ⟨y, hy⟩ := Option.ne_none_iff_exists'.mp hq
      simp only [hx, hy, Option.getD_some] at he
      exact h.unique x p q hx (he ▸ hy)
    · intro x hx
      obtain ⟨p, hp⟩ := (h.used x).mpr hx
      exact ⟨p, by simp [hp], by simp [hp]⟩
  refine ⟨hbij.finite_iff_finite.mpr (Set.finite_Iio used), ?_⟩
  rw [← hbij.injOn.ncard_image, hbij.image_eq, Set.ncard_Iio_nat]

end Placed
end Mvdcc.Library
