import Mathlib.Order.Bounds.Basic
import Mathlib.Data.Finset.Card
import Mvdcc.Common.Bitmap

namespace Mvdcc.Bitmap
open Library

/-! The searches with their assertions: one that fails leaves no result. -/

namespace Asserted

def findTheLargest (bits : BitVec 64) : Option Int := do
  guard (bits ≠ 0)
  let result := Bitmap.findTheLargest bits
  guard (0 ≤ result ∧ result < 64)
  return result

def findTheLargestAmongOrLessThan (bitmap : BitVec 64) (pos : Nat) : Option Int := do
  guard (bitmap ≠ 0)
  guard (pos < 64)
  let smallers := bitmap &&& fillTheLeftSideUntilTheGivenPosition pos
  if smallers = 0 then return -1
  findTheLargest smallers

def findTheTwoLargestAmongOrLessThan (bitmap : BitVec 64) (pos : Nat) : Option (Int × Int) := do
  guard (bitmap ≠ 0)
  guard (pos < 64)
  let smallers := bitmap &&& fillTheLeftSideUntilTheGivenPosition pos
  if smallers = 0 then return (-1, -1)
  let largestPos ← findTheLargest smallers
  guard (largestPos < 64)
  if builtinPopcountll smallers = 1 then return (-1, largestPos)
  guard (0 ≤ largestPos)
  let secondLargestPos ←
    findTheLargest (~~~(setBitAtTheGivenLocation largestPos.toNat) &&& smallers)
  guard (secondLargestPos < largestPos)
  return (secondLargestPos, largestPos)

def findTheLargestAmongLessThan (bitmap : BitVec 64) (pos : Nat) : Option Int := do
  guard (bitmap ≠ 0)
  guard (pos < 64)
  let smallers := bitmap &&& fillTheLeftSideUntilBeforeTheGivenPosition pos
  if smallers = 0 then return -1
  findTheLargest smallers

end Asserted

/-- The set that a bitmap stands for. -/
def elements (bitmap : BitVec 64) : Finset Nat :=
  (Finset.range 64).filter (fun i => bitmap.getMsbD i)

/-- The greatest of a set, or minus one if there is none. -/
def IsLast (s : Finset Nat) (r : Int) : Prop :=
  (∃ m : Nat, IsGreatest (s : Set Nat) m ∧ r = m) ∨ (s = ∅ ∧ r = -1)

variable {b : BitVec 64} {pos : Nat}

theorem mem_elements {i : Nat} : i ∈ elements b ↔ b.getMsbD i = true := by
  rw [elements, Finset.mem_filter, Finset.mem_range]
  exact and_iff_right_of_imp lt_of_getMsbD

theorem elements_zero : elements 0 = ∅ :=
  Finset.eq_empty_of_forall_notMem (fun i hi => by simpa using mem_elements.mp hi)

/-- An assertion that holds changes nothing. -/
theorem guard_bind {p : Prop} [Decidable p] (hp : p) (x : Unit → Option α) :
    (guard p >>= x) = x () := by
  rw [guard, if_pos hp]
  rfl

theorem some_bind (a : α) (f : α → Option β) : (some a >>= f) = f a := rfl

/-- The greatest element of a set bitmap comes out of every assertion. -/
theorem asserted_findTheLargest (hb : b ≠ 0) :
    ∃ m : Nat, Asserted.findTheLargest b = some (m : Int) ∧ IsGreatest (elements b : Set Nat) m := by
  obtain ⟨m, hm⟩ : ∃ m, (positions b).getLast? = some m :=
    Option.ne_none_iff_exists'.mp (fun h => positions_ne_nil hb (List.getLast?_eq_none_iff.mp h))
  have hbit := mem_positions.mp (List.mem_of_getLast? hm)
  have hlt := lt_of_getMsbD hbit
  refine ⟨m, ?_, mem_elements.mpr hbit, ?_⟩
  · unfold Asserted.findTheLargest
    rw [guard_bind hb, findTheLargest_eq hm, guard_bind (by omega)]
    rfl
  · intro j hj
    exact le_getLast (positions_pairwise b) hm (mem_positions.mpr (mem_elements.mp hj))

theorem elements_and_fillUntil (b : BitVec 64) (pos : Nat) :
    elements (b &&& fillTheLeftSideUntilTheGivenPosition pos) = (elements b).filter (· ≤ pos) := by
  ext i
  rw [Finset.mem_filter, mem_elements, mem_elements, BitVec.getMsbD_and, Bool.and_eq_true]
  refine and_congr_right (fun hi => ?_)
  rw [getMsbD_fillUntil pos (lt_of_getMsbD hi), decide_eq_true_iff]

theorem elements_and_fillUntilBefore (b : BitVec 64) (pos : Nat) :
    elements (b &&& fillTheLeftSideUntilBeforeTheGivenPosition pos) =
      (elements b).filter (· < pos) := by
  ext i
  rw [Finset.mem_filter, mem_elements, mem_elements, BitVec.getMsbD_and, Bool.and_eq_true]
  refine and_congr_right (fun hi => ?_)
  rw [getMsbD_fillUntilBefore pos (lt_of_getMsbD hi), decide_eq_true_iff]

/-- Clearing a bit takes its position out. -/
theorem elements_clear {m : Nat} (hm : m < 64) (b : BitVec 64) :
    elements (~~~(setBitAtTheGivenLocation m) &&& b) = (elements b).erase m := by
  ext i
  rw [Finset.mem_erase, mem_elements, mem_elements, BitVec.getMsbD_and, Bool.and_eq_true, and_comm,
    and_comm (a := i ≠ m)]
  refine and_congr_right (fun hi => ?_)
  rw [BitVec.getMsbD_not, getMsbD_setBit hm]
  simp [lt_of_getMsbD hi]

theorem countBits_eq_card (b : BitVec 64) : countBits b = (elements b).card := by
  have hset : elements b = (positions b).toFinset := by
    ext i
    rw [mem_elements, List.mem_toFinset, mem_positions]
  have hnodup : (positions b).Nodup := (positions_pairwise b).imp Nat.ne_of_lt
  rw [countBits, popcount_eq, hset, List.toFinset_card_of_nodup hnodup]

/-- The last part of a search: nothing to look through, or its greatest element. -/
theorem last_of_masked (m : BitVec 64) :
    ∃ r, (if m = 0 then some (-1) else Asserted.findTheLargest m) = some r ∧
      IsLast (elements m) r := by
  by_cases hm : m = 0
  · rw [if_pos hm]
    exact ⟨-1, rfl, Or.inr ⟨hm ▸ elements_zero, rfl⟩⟩
  · obtain ⟨k, hk, hgreatest⟩ := asserted_findTheLargest hm
    rw [if_neg hm]
    exact ⟨k, hk, Or.inl ⟨k, hgreatest, rfl⟩⟩

theorem amongOrLessThan_last (hb : b ≠ 0) (hp : pos < 64) :
    ∃ r, Asserted.findTheLargestAmongOrLessThan b pos = some r ∧
      IsLast ((elements b).filter (· ≤ pos)) r := by
  unfold Asserted.findTheLargestAmongOrLessThan
  rw [guard_bind hb, guard_bind hp, ← elements_and_fillUntil]
  exact last_of_masked _

theorem amongLessThan_last (hb : b ≠ 0) (hp : pos < 64) :
    ∃ r, Asserted.findTheLargestAmongLessThan b pos = some r ∧
      IsLast ((elements b).filter (· < pos)) r := by
  unfold Asserted.findTheLargestAmongLessThan
  rw [guard_bind hb, guard_bind hp, ← elements_and_fillUntilBefore]
  exact last_of_masked _

/-- The greatest element, and the greatest of the others. -/
theorem twoLargest_last (hb : b ≠ 0) (hp : pos < 64) :
    ∃ r₂ r₁, Asserted.findTheTwoLargestAmongOrLessThan b pos = some (r₂, r₁) ∧
      IsLast ((elements b).filter (· ≤ pos)) r₁ ∧
      IsLast (((elements b).filter (· ≤ pos)).filter (fun i => (i : Int) ≠ r₁)) r₂ := by
  unfold Asserted.findTheTwoLargestAmongOrLessThan
  rw [guard_bind hb, guard_bind hp, ← elements_and_fillUntil]
  generalize b &&& fillTheLeftSideUntilTheGivenPosition pos = m
  dsimp only
  by_cases hm : m = 0
  · rw [if_pos hm]
    have hempty : elements m = ∅ := hm ▸ elements_zero
    exact ⟨-1, -1, rfl, Or.inr ⟨hempty, rfl⟩, Or.inr ⟨by rw [hempty]; rfl, rfl⟩⟩
  · obtain ⟨k, hk, hgreatest⟩ := asserted_findTheLargest hm
    have hlt : k < 64 := lt_of_getMsbD (mem_elements.mp hgreatest.1)
    have hothers : (elements m).filter (fun i : Nat => (i : Int) ≠ k) = (elements m).erase k := by
      ext i
      rw [Finset.mem_filter, Finset.mem_erase, and_comm]
      simp
    rw [if_neg hm, hk, some_bind, guard_bind (by omega)]
    have hcard := countBits_eq_card m
    by_cases hone : builtinPopcountll m = 1
    · rw [if_pos hone]
      refine ⟨-1, k, rfl, Or.inl ⟨k, hgreatest, rfl⟩, Or.inr ⟨?_, rfl⟩⟩
      rw [hothers, ← Finset.card_eq_zero, Finset.card_erase_of_mem hgreatest.1, ← hcard]
      exact Nat.sub_eq_zero_of_le hone.le
    · rw [if_neg hone]
      have hrest : ~~~(setBitAtTheGivenLocation k) &&& m ≠ 0 := by
        intro hz
        have hempty := elements_clear hlt m
        rw [hz, elements_zero] at hempty
        have hzero := congrArg Finset.card hempty
        rw [Finset.card_empty, Finset.card_erase_of_mem hgreatest.1, ← hcard] at hzero
        have hpos : 0 < countBits m := hcard ▸ Finset.card_pos.mpr ⟨k, hgreatest.1⟩
        have hcount : countBits m = builtinPopcountll m := rfl
        omega
      obtain ⟨j, hj, hsecond⟩ := asserted_findTheLargest hrest
      rw [elements_clear hlt] at hsecond
      obtain ⟨hne, hmem⟩ := Finset.mem_erase.mp hsecond.1
      have hle := hgreatest.2 hmem
      rw [guard_bind (by omega), Int.toNat_natCast, hj, some_bind, guard_bind (by omega)]
      refine ⟨j, k, rfl, Or.inl ⟨k, hgreatest, rfl⟩, Or.inl ⟨j, ?_, rfl⟩⟩
      rw [hothers]
      exact hsecond

/-- The searches and the count, as facts about sets of positions. -/
theorem searches_exact (b : BitVec 64) (hb : b ≠ 0) (pos : Nat) (hp : pos < 64) :
    (∃ m : Nat, Asserted.findTheLargest b = some (m : Int) ∧
      IsGreatest (elements b : Set Nat) m) ∧
    (∃ r, Asserted.findTheLargestAmongOrLessThan b pos = some r ∧
      IsLast ((elements b).filter (· ≤ pos)) r) ∧
    (∃ r, Asserted.findTheLargestAmongLessThan b pos = some r ∧
      IsLast ((elements b).filter (· < pos)) r) ∧
    (∃ r₂ r₁, Asserted.findTheTwoLargestAmongOrLessThan b pos = some (r₂, r₁) ∧
      IsLast ((elements b).filter (· ≤ pos)) r₁ ∧
      IsLast (((elements b).filter (· ≤ pos)).filter (fun i => (i : Int) ≠ r₁)) r₂) ∧
    countBits (b &&& fillTheLeftSideUntilBeforeTheGivenPosition pos) =
      ((elements b).filter (· < pos)).card := by
  refine ⟨asserted_findTheLargest hb, amongOrLessThan_last hb hp, amongLessThan_last hb hp,
    twoLargest_last hb hp, ?_⟩
  rw [countBits_eq_card, elements_and_fillUntilBefore]

theorem searches_exact_full :
    ∃ r₂ r₁, Asserted.findTheTwoLargestAmongOrLessThan (BitVec.allOnes 64) 0 = some (r₂, r₁) ∧
      IsLast ((elements (BitVec.allOnes 64)).filter (· ≤ 0)) r₁ ∧
      IsLast (((elements (BitVec.allOnes 64)).filter (· ≤ 0)).filter
        (fun i => (i : Int) ≠ r₁)) r₂ :=
  (searches_exact (BitVec.allOnes 64) (by decide) 0 (by decide)).2.2.2.1

end Mvdcc.Bitmap
