import Mvdcc.Common.Bitmap

namespace Mvdcc.Bitmap
open Library

/-- The two-level search shared by the row region and the write bitmap: the
core bitmap names the cores, each core has a transaction bitmap. -/
def identifyVisible (coreBitmap : BitVec 64) (txBitmapOf : Nat → BitVec 64) (core tx : Nat) :
    Option (Nat × Nat) :=
  let (secondCore, firstCore) := findTheTwoLargestAmongOrLessThan coreBitmap core
  if firstCore = -1 then none
  else if firstCore = core then
    let firstTx := findTheLargestAmongLessThan (txBitmapOf firstCore.toNat) tx
    if firstTx ≠ -1 then some (firstCore.toNat, firstTx.toNat)
    else if secondCore ≠ -1 then
      some (secondCore.toNat, (findTheLargest (txBitmapOf secondCore.toNat)).toNat)
    else none
  else some (firstCore.toNat, (findTheLargest (txBitmapOf firstCore.toNat)).toNat)

/-- The bitmaps record a write by transaction `t` of core `c`. -/
def Recorded (coreBitmap : BitVec 64) (txBitmapOf : Nat → BitVec 64) (c t : Nat) : Prop :=
  coreBitmap.getMsbD c = true ∧ (txBitmapOf c).getMsbD t = true

theorem Recorded.lt {coreBitmap : BitVec 64} {txBitmapOf : Nat → BitVec 64} {c t : Nat}
    (h : Recorded coreBitmap txBitmapOf c t) : c < 64 ∧ t < 64 :=
  ⟨lt_of_getMsbD h.1, lt_of_getMsbD h.2⟩

theorem largest_of_ne_zero {b : BitVec 64} (h : b ≠ 0) :
    ∃ m : Nat, findTheLargest b = (m : Int) ∧ b.getMsbD m = true ∧
      ∀ i, b.getMsbD i = true → i ≤ m := by
  cases hl : (positions b).getLast? with
  | none => exact absurd (List.getLast?_eq_none_iff.mp hl) (positions_ne_nil h)
  | some m =>
    refine ⟨m, findTheLargest_eq hl, mem_positions.mp (List.mem_of_getLast? hl), ?_⟩
    intro i hi
    exact le_getLast (positions_pairwise b) hl (mem_positions.mpr hi)

/-- The greatest position below a bound, or minus one. -/
theorem largestBelow_cases (b : BitVec 64) (pos : Nat) :
    (findTheLargestAmongLessThan b pos = -1 ∧ ∀ i, b.getMsbD i = true → pos ≤ i) ∨
    ∃ m : Nat, findTheLargestAmongLessThan b pos = (m : Int) ∧ b.getMsbD m = true ∧ m < pos ∧
      ∀ i, b.getMsbD i = true → i < pos → i ≤ m := by
  rw [findTheLargestAmongLessThan_eq]
  cases hl : ((positions b).filter (· < pos)).getLast? with
  | none =>
    left
    refine ⟨rfl, ?_⟩
    intro i hi
    have hn : i ∉ (positions b).filter (· < pos) := by
      rw [List.getLast?_eq_none_iff.mp hl]
      exact List.not_mem_nil
    simpa [hi] using hn
  | some m =>
    right
    have hm := List.mem_filter.mp (List.mem_of_getLast? hl)
    refine ⟨m, rfl, mem_positions.mp hm.1, by simpa using hm.2, ?_⟩
    intro i hi hlt
    exact le_getLast ((positions_pairwise b).sublist List.filter_sublist) hl
      (List.mem_filter.mpr ⟨mem_positions.mpr hi, by simpa using hlt⟩)

/-- The two greatest positions at or below a bound, each minus one when missing. -/
theorem twoLargest_cases (b : BitVec 64) (pos : Nat) :
    (findTheTwoLargestAmongOrLessThan b pos = (-1, -1) ∧ ∀ i, b.getMsbD i = true → pos < i) ∨
    (∃ m : Nat, findTheTwoLargestAmongOrLessThan b pos = (-1, (m : Int)) ∧ b.getMsbD m = true ∧
      m ≤ pos ∧ ∀ i, b.getMsbD i = true → i ≤ pos → i = m) ∨
    ∃ k m : Nat, findTheTwoLargestAmongOrLessThan b pos = ((k : Int), (m : Int)) ∧
      b.getMsbD k = true ∧ b.getMsbD m = true ∧ k < m ∧ m ≤ pos ∧
      ∀ i, b.getMsbD i = true → i ≤ pos → i = m ∨ i ≤ k := by
  rw [findTheTwoLargestAmongOrLessThan_eq]
  have hp : ((positions b).filter (· ≤ pos)).Pairwise (· < ·) :=
    (positions_pairwise b).sublist List.filter_sublist
  have hmem : ∀ i, i ∈ (positions b).filter (· ≤ pos) ↔ b.getMsbD i = true ∧ i ≤ pos := by
    intro i
    simp
  generalize (positions b).filter (· ≤ pos) = l at hp hmem
  cases hl : l.getLast? with
  | none =>
    left
    rw [List.getLast?_eq_none_iff.mp hl] at hmem ⊢
    refine ⟨rfl, ?_⟩
    intro i hi
    have := (hmem i).mpr
    simp only [List.not_mem_nil, imp_false, not_and, not_le] at this
    exact this hi
  | some m =>
    right
    obtain ⟨init, rfl⟩ := List.getLast?_eq_some_iff.mp hl
    obtain ⟨hinit, _, hlt⟩ := List.pairwise_append.mp hp
    have hm := (hmem m).mp (by simp)
    rw [List.dropLast_concat]
    cases hi : init.getLast? with
    | none =>
      left
      rw [List.getLast?_eq_none_iff.mp hi] at hmem
      refine ⟨m, rfl, hm.1, hm.2, ?_⟩
      intro i hb hle
      simpa using (hmem i).mpr ⟨hb, hle⟩
    | some k =>
      right
      have hk := List.mem_of_getLast? hi
      refine ⟨k, m, rfl, ((hmem k).mp (by simp [hk])).1, hm.1, hlt k hk m (by simp), hm.2, ?_⟩
      intro i hb hle
      rcases List.mem_append.mp ((hmem i).mpr ⟨hb, hle⟩) with h | h
      · exact Or.inr (le_getLast hinit hi h)
      · exact Or.inl (List.mem_singleton.mp h)

section Search
variable {coreBitmap : BitVec 64} {txBitmapOf : Nat → BitVec 64} {core tx : Nat}

/-- The greatest recorded write below the reader, ordered by core and transaction. -/
def IsVisible (coreBitmap : BitVec 64) (txBitmapOf : Nat → BitVec 64) (core tx c t : Nat) : Prop :=
  Recorded coreBitmap txBitmapOf c t ∧ c * 64 + t < core * 64 + tx ∧
    ∀ c' t', Recorded coreBitmap txBitmapOf c' t' → c' * 64 + t' < core * 64 + tx →
      c' * 64 + t' ≤ c * 64 + t

theorem IsVisible.of_last {c t : Nat} (htx : tx < 64)
    (hr : Recorded coreBitmap txBitmapOf c t) (hc : c < core)
    (hcores : ∀ c', coreBitmap.getMsbD c' = true → c' < core → c' ≤ c)
    (htxs : ∀ t', (txBitmapOf c).getMsbD t' = true → t' ≤ t)
    (hown : ∀ t', Recorded coreBitmap txBitmapOf core t' → tx ≤ t') :
    IsVisible coreBitmap txBitmapOf core tx c t := by
  have ht := hr.lt.2
  refine ⟨hr, by omega, ?_⟩
  intro c' t' hr' hlt
  have ht' := hr'.lt.2
  rcases Nat.lt_trichotomy c' core with h | rfl | h
  · have hle := hcores c' hr'.1 h
    rcases Nat.lt_or_eq_of_le hle with hlt' | rfl
    · omega
    · have := htxs t' hr'.2
      omega
  · have := hown t' hr'
    omega
  · omega

/-- A write of the reader's own core comes after those of the cores before. -/
theorem IsVisible.of_own {t : Nat} (htx : tx < 64) (hr : Recorded coreBitmap txBitmapOf core t)
    (ht : t < tx) (hown : ∀ t', (txBitmapOf core).getMsbD t' = true → t' < tx → t' ≤ t) :
    IsVisible coreBitmap txBitmapOf core tx core t := by
  refine ⟨hr, by omega, ?_⟩
  intro c' t' hr' hlt
  have ht' := hr'.lt.2
  rcases Nat.lt_trichotomy c' core with h | rfl | h
  · omega
  · have := hown t' hr'.2 (by omega)
    omega
  · omega

/-- The search finds the greatest recorded write below the reader, and reports
none exactly when there is none. -/
theorem identifyVisible_spec (core : Nat)
    (hne : ∀ c, coreBitmap.getMsbD c = true → txBitmapOf c ≠ 0)
    (htx : tx < 64) :
    match identifyVisible coreBitmap txBitmapOf core tx with
    | some (c, t) => IsVisible coreBitmap txBitmapOf core tx c t
    | none => ∀ c t, Recorded coreBitmap txBitmapOf c t → ¬ c * 64 + t < core * 64 + tx := by
  unfold identifyVisible
  rcases twoLargest_cases coreBitmap core with ⟨he, hn⟩ | ⟨m, he, hm, hle, hu⟩ |
    ⟨k, m, he, hk, hm, hkm, hle, hu⟩
  · simp only [he, if_true]
    intro c t hr
    have := hn c hr.1
    omega
  · have hneg : ¬ ((m : Int) = -1) := by omega
    by_cases hmc : m = core
    · subst hmc
      rcases largestBelow_cases (txBitmapOf m) tx with ⟨ht, htn⟩ | ⟨t, ht, htm, htlt, htu⟩
      · simp only [he, if_neg hneg, Int.toNat_natCast, if_true, ht, ne_eq, not_true_eq_false,
          if_false]
        intro c' t' hr
        rcases Nat.lt_trichotomy c' m with h | rfl | h
        · have := hu c' hr.1 (Nat.le_of_lt h)
          omega
        · have := htn t' hr.2
          omega
        · omega
      · have hneg' : (t : Int) ≠ -1 := by omega
        simp only [he, if_neg hneg, Int.toNat_natCast, if_true, ht, if_pos hneg']
        exact .of_own htx ⟨hm, htm⟩ htlt htu
    · obtain ⟨t, ht, htm, htu⟩ := largest_of_ne_zero (hne m hm)
      simp only [he, if_neg hneg, Int.toNat_natCast, Nat.cast_inj, if_neg hmc, ht]
      refine IsVisible.of_last htx ⟨hm, htm⟩ (by omega) ?_ htu ?_
      · intro c' hc' hlt
        exact Nat.le_of_eq (hu c' hc' (Nat.le_of_lt hlt))
      · intro t' hr
        exact absurd (hu core hr.1 (Nat.le_refl _)).symm hmc
  · have hneg : ¬ ((m : Int) = -1) := by omega
    have hnegk : (k : Int) ≠ -1 := by omega
    by_cases hmc : m = core
    · subst hmc
      rcases largestBelow_cases (txBitmapOf m) tx with ⟨ht, htn⟩ | ⟨t, ht, htm, htlt, htu⟩
      · obtain ⟨t, htk, htm, htu⟩ := largest_of_ne_zero (hne k hk)
        simp only [he, if_neg hneg, Int.toNat_natCast, if_true, ht, ne_eq, not_true_eq_false,
          if_false, hnegk, not_false_eq_true, htk]
        refine IsVisible.of_last htx ⟨hk, htm⟩ hkm ?_ htu (fun t' hr => htn t' hr.2)
        intro c' hc' hlt
        rcases hu c' hc' (Nat.le_of_lt hlt) with h | h
        · omega
        · exact h
      · have hneg' : (t : Int) ≠ -1 := by omega
        simp only [he, if_neg hneg, Int.toNat_natCast, if_true, ht, if_pos hneg']
        exact .of_own htx ⟨hm, htm⟩ htlt htu
    · obtain ⟨t, ht, htm, htu⟩ := largest_of_ne_zero (hne m hm)
      simp only [he, if_neg hneg, Int.toNat_natCast, Nat.cast_inj, if_neg hmc, ht]
      refine IsVisible.of_last htx ⟨hm, htm⟩ (by omega) ?_ htu ?_
      · intro c' hc' hlt
        rcases hu c' hc' (Nat.le_of_lt hlt) with h | h
        · omega
        · omega
      · intro t' hr
        rcases hu core hr.1 (Nat.le_refl _) with h | h
        · exact absurd h.symm hmc
        · omega

end Search
end Mvdcc.Bitmap
