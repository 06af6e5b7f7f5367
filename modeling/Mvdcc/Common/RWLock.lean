import Mathlib.Logic.Function.Basic

namespace Mvdcc

/-- Zero is free, minus one is held exclusively. -/
structure RWLock where
  cnt : Int := 0
  deriving DecidableEq

namespace RWLock

/-- One load and one compare-exchange: both succeed exactly when the lock is free. -/
def tryLock (l : RWLock) : Option RWLock :=
  if l.cnt = 0 then some ⟨-1⟩ else none

/-- The spinning variant ends with the same transition and is refused until then. -/
def lock (l : RWLock) : Option RWLock := l.tryLock

def unlock (l : RWLock) : RWLock := ⟨l.cnt + 1⟩

def tryLockShared (l : RWLock) : Option RWLock :=
  if 0 ≤ l.cnt then some ⟨l.cnt + 1⟩ else none

def tryLockUpgrade (l : RWLock) : Option RWLock :=
  if l.cnt = 1 then some ⟨-1⟩ else none

def unlockShared (l : RWLock) : RWLock := ⟨l.cnt - 1⟩

/-- The counter agrees with who holds the lock, and at most one party does. -/
def Exclusive (l : RWLock) (held : ι → Prop) : Prop :=
  (l.cnt = 0 ∧ ∀ i, ¬ held i) ∨ (l.cnt = -1 ∧ ∃ i, held i ∧ ∀ j, held j → j = i)

/-- A party has no hold on the lock: it is free, or another party has it. -/
def FreeOf (l : RWLock) (held : ι → Prop) (i : ι) : Prop :=
  l.cnt = 0 ∨ ∃ j, j ≠ i ∧ held j

/-- One party leaves the lock alone, takes it or gives it back. -/
def Moves (l l' : RWLock) (holds holds' : Prop) : Prop :=
  (l' = l ∧ (holds' ↔ holds)) ∨ (l.tryLock = some l' ∧ holds') ∨
    (holds ∧ ¬ holds' ∧ l' = l.unlock)

namespace Exclusive
variable {l l' : RWLock} {held held' : ι → Prop} {i j : ι}

theorem unique (h : l.Exclusive held) (hi : held i) (hj : held j) : i = j := by
  rcases h with ⟨_, hn⟩ | ⟨_, k, _, hk⟩
  · exact absurd hi (hn i)
  · exact (hk i hi).trans (hk j hj).symm

theorem tryLock_none (h : l.Exclusive held) (hi : held i) : l.tryLock = none := by
  rcases h with ⟨_, hn⟩ | ⟨hc, _⟩
  · exact absurd hi (hn i)
  · simp [tryLock, hc]

/-- Who has the lock keeps it from being free of them. -/
theorem not_freeOf (h : l.Exclusive held) (hi : held i) : ¬ l.FreeOf held i := by
  intro hf
  rcases hf with hc | ⟨j, hne, hj⟩
  · have hn := h.tryLock_none hi
    simp [tryLock, hc] at hn
  · exact hne (h.unique hj hi)

theorem free (h : l.Exclusive held) (hn : ∀ i, ¬ held i) : l.cnt = 0 := by
  rcases h with ⟨hc, _⟩ | ⟨_, i, hi, _⟩
  · exact hc
  · exact absurd hi (hn i)

/-- A lock that nobody holds is a new one. -/
theorem unlocked (h : l.Exclusive held) (hn : ∀ i, ¬ held i) : l = {} :=
  congrArg RWLock.mk (h.free hn)

theorem none_held (h : l.Exclusive held) (ht : l.tryLock = some l') : ∀ i, ¬ held i := by
  intro i hi
  rw [h.tryLock_none hi] at ht
  cases ht

theorem keep (h : l.Exclusive held) (ho : ∀ j, held' j ↔ held j) : l.Exclusive held' := by
  rcases h with ⟨hc, hn⟩ | ⟨hc, i, hi, hu⟩
  · exact Or.inl ⟨hc, fun j hj => hn j ((ho j).mp hj)⟩
  · exact Or.inr ⟨hc, i, (ho i).mpr hi, fun j hj => hu j ((ho j).mp hj)⟩

theorem acquire (h : l.Exclusive held) (ht : l.tryLock = some l') (hi : held' i)
    (ho : ∀ j, j ≠ i → (held' j ↔ held j)) : l'.Exclusive held' := by
  have hn := h.none_held ht
  simp only [tryLock, Option.ite_none_right_eq_some, Option.some.injEq] at ht
  refine Or.inr ⟨by rw [← ht.2], i, hi, ?_⟩
  intro j hj
  by_contra hne
  exact hn j ((ho j hne).mp hj)

theorem release (h : l.Exclusive held) (hi : held i) (hi' : ¬ held' i)
    (ho : ∀ j, j ≠ i → (held' j ↔ held j)) : l.unlock.Exclusive held' := by
  have hu : ∀ j, held j → j = i := fun j hj => h.unique hj hi
  rcases h with ⟨_, hn⟩ | ⟨hc, _⟩
  · exact absurd hi (hn i)
  · refine Or.inl ⟨by simp [unlock, hc], ?_⟩
    intro j hj
    by_cases he : j = i
    · exact hi' (he ▸ hj)
    · exact he (hu j ((ho j he).mp hj))

theorem move (h : l.Exclusive held) (hm : Moves l l' (held i) (held' i))
    (ho : ∀ j, j ≠ i → (held' j ↔ held j)) : l'.Exclusive held' := by
  rcases hm with ⟨rfl, hi⟩ | ⟨ht, hi⟩ | ⟨hi, hi', rfl⟩
  · refine h.keep (fun j => ?_)
    by_cases hj : j = i
    · rw [hj, hi]
    · exact ho j hj
  · exact h.acquire ht hi ho
  · exact h.release hi hi' ho

end Exclusive
end RWLock
end Mvdcc
