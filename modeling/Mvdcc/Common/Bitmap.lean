import Mathlib.Data.BitVec
import Mvdcc.Library.Bits

namespace Mvdcc.Bitmap
open Library

/-- The compiler's population count of a 64-bit word. -/
def builtinPopcountll (bits : BitVec 64) : Nat :=
  (List.range 64).countP (fun i => bits.getLsbD i)

/-- The compiler's one-based index of the least significant set bit; zero if none. -/
def builtinFfsll (bits : BitVec 64) : Int :=
  match (List.range 64).find? (fun i => bits.getLsbD i) with
  | some i => i + 1
  | none => 0

def countBits (bits : BitVec 64) : Nat := builtinPopcountll bits

/-- Only the leftmost bit. The signed and the unsigned word have the same bits;
they differ in the right shift their users apply. -/
def setUpperBit : BitVec 64 := ~~~(BitVec.allOnes 64 >>> 1)

def setBitAtTheGivenLocation (pos : Nat) : BitVec 64 := setUpperBit >>> pos

def isBitSetAtThePosition (bitmap : BitVec 64) (pos : Nat) : Bool :=
  (bitmap &&& setBitAtTheGivenLocation pos) != 0

/-- The two-argument overload: the bitmap with one more bit. -/
def setBitOfBitmapAtTheGivenLocation (bitmap : BitVec 64) (pos : Nat) : BitVec 64 :=
  bitmap ||| setBitAtTheGivenLocation pos

def fillTheLeftSideUntilBeforeTheGivenPosition (pos : Nat) : BitVec 64 :=
  if pos = 0 then 0 else setUpperBit.sshiftRight (pos - 1)

def fillTheLeftSideUntilTheGivenPosition (pos : Nat) : BitVec 64 :=
  setUpperBit.sshiftRight pos

def findTheLocationOfFirstBitFromRight (bits : BitVec 64) : Int := builtinFfsll bits

def findTheLargest (bits : BitVec 64) : Int :=
  64 - findTheLocationOfFirstBitFromRight bits

/-- The second largest position comes first. -/
def findTheTwoLargestAmongOrLessThan (bitmap : BitVec 64) (pos : Nat) : Int × Int :=
  let smallers := bitmap &&& fillTheLeftSideUntilTheGivenPosition pos
  if smallers = 0 then (-1, -1) else
    let largestPos := findTheLargest smallers
    if builtinPopcountll smallers = 1 then (-1, largestPos) else
      (findTheLargest (~~~(setBitAtTheGivenLocation largestPos.toNat) &&& smallers), largestPos)

def findTheLargestAmongLessThan (bitmap : BitVec 64) (pos : Nat) : Int :=
  let smallers := bitmap &&& fillTheLeftSideUntilBeforeTheGivenPosition pos
  if smallers = 0 then -1 else findTheLargest smallers

/-- Positions as the searches report them: minus one stands for none. -/
def position : Option Nat → Int
  | none => -1
  | some m => m

@[simp] theorem getMsbD_setUpperBit (i : Nat) : setUpperBit.getMsbD i = decide (i = 0) := by
  unfold setUpperBit
  rw [BitVec.getMsbD_not, BitVec.getMsbD_ushiftRight]
  simp only [BitVec.getMsbD_allOnes]
  rcases Nat.eq_zero_or_pos i with rfl | hp
  · simp
  · have h1 : ¬ i < 1 := by omega
    have h2 : i ≠ 0 := by omega
    by_cases h : i < 64
    · have h3 : i - 1 < 64 := by omega
      simp [h1, h2, h, h3]
    · simp [h, h2]

theorem getMsbD_setBit {pos : Nat} (hp : pos < 64) (i : Nat) :
    (setBitAtTheGivenLocation pos).getMsbD i = decide (i = pos) := by
  unfold setBitAtTheGivenLocation
  rw [BitVec.getMsbD_ushiftRight, getMsbD_setUpperBit]
  by_cases h : i < 64
  · by_cases hlt : i < pos
    · have hne : i ≠ pos := by omega
      simp [hlt, hne]
    · by_cases he : i = pos
      · simp [he, hp]
      · have h0 : i - pos ≠ 0 := by omega
        simp [hlt, he, h0]
  · have hne : i ≠ pos := by omega
    simp [h, hne]

theorem isBitSet_eq {pos : Nat} (hp : pos < 64) (bitmap : BitVec 64) :
    isBitSetAtThePosition bitmap pos = bitmap.getMsbD pos := by
  unfold isBitSetAtThePosition
  cases hb : bitmap.getMsbD pos with
  | true =>
    have hne : bitmap &&& setBitAtTheGivenLocation pos ≠ 0 := by
      intro he
      have := congrArg (fun b => b.getMsbD pos) he
      simp [getMsbD_setBit hp, hb] at this
    simpa using hne
  | false =>
    have he : bitmap &&& setBitAtTheGivenLocation pos = 0 := by
      apply eq_of_getMsbD
      intro i _
      rw [BitVec.getMsbD_and, getMsbD_setBit hp]
      by_cases hi : i = pos <;> simp [hi, hb]
    simp [he]

theorem getMsbD_setBitOfBitmap {pos : Nat} (hp : pos < 64) (bitmap : BitVec 64) (i : Nat) :
    (setBitOfBitmapAtTheGivenLocation bitmap pos).getMsbD i = true ↔
      i = pos ∨ bitmap.getMsbD i = true := by
  simp only [setBitOfBitmapAtTheGivenLocation, BitVec.getMsbD_or, getMsbD_setBit hp,
    Bool.or_eq_true, decide_eq_true_eq]
  exact or_comm

theorem getMsbD_fillUntil (pos : Nat) {i : Nat} (hi : i < 64) :
    (fillTheLeftSideUntilTheGivenPosition pos).getMsbD i = decide (i ≤ pos) := by
  have hm : setUpperBit.msb = true := by decide
  unfold fillTheLeftSideUntilTheGivenPosition
  rw [BitVec.getMsbD_sshiftRight, getMsbD_setUpperBit, hm]
  by_cases h : i < pos
  · simp [hi, h, Nat.le_of_lt h]
  · by_cases he : i = pos
    · simp [he ▸ hi, he]
    · have h0 : i - pos ≠ 0 := by omega
      have hle : ¬ i ≤ pos := by omega
      simp [h, h0, hle]

theorem getMsbD_fillUntilBefore (pos : Nat) {i : Nat} (hi : i < 64) :
    (fillTheLeftSideUntilBeforeTheGivenPosition pos).getMsbD i = decide (i < pos) := by
  unfold fillTheLeftSideUntilBeforeTheGivenPosition
  split
  · rename_i h
    simp [h]
  · rename_i h
    have := getMsbD_fillUntil (pos - 1) hi
    unfold fillTheLeftSideUntilTheGivenPosition at this
    rw [this]
    apply decide_eq_decide.mpr
    omega

theorem positions_filter {b m : BitVec 64} {p : Nat → Bool}
    (hm : ∀ i, i < 64 → m.getMsbD i = p i) :
    positions (b &&& m) = (positions b).filter p := by
  apply pairwise_lt_ext (positions_pairwise _)
    (List.Pairwise.sublist List.filter_sublist (positions_pairwise b))
  intro i
  simp only [mem_positions, BitVec.getMsbD_and, Bool.and_eq_true, List.mem_filter]
  constructor
  · rintro ⟨hb, h⟩
    exact ⟨hb, hm i (lt_of_getMsbD hb) ▸ h⟩
  · rintro ⟨hb, h⟩
    exact ⟨hb, (hm i (lt_of_getMsbD hb)).symm ▸ h⟩

theorem positions_and_fillUntil (b : BitVec 64) (pos : Nat) :
    positions (b &&& fillTheLeftSideUntilTheGivenPosition pos) =
      (positions b).filter (· ≤ pos) :=
  positions_filter (fun _ hi => getMsbD_fillUntil pos hi)

theorem positions_and_fillUntilBefore (b : BitVec 64) (pos : Nat) :
    positions (b &&& fillTheLeftSideUntilBeforeTheGivenPosition pos) =
      (positions b).filter (· < pos) :=
  positions_filter (fun _ hi => getMsbD_fillUntilBefore pos hi)

theorem popcount_eq (b : BitVec 64) : builtinPopcountll b = (positions b).length :=
  countP_getLsbD b

/-- The count before a position is the rank the packed vectors are indexed by. -/
theorem countBits_fillUntilBefore (b : BitVec 64) (pos : Nat) :
    countBits (b &&& fillTheLeftSideUntilBeforeTheGivenPosition pos) = rank (positions b) pos := by
  rw [countBits, popcount_eq, positions_and_fillUntilBefore]
  rfl

/-- The least significant bit is the greatest position from the left. -/
theorem findTheLargest_eq {b : BitVec 64} {m : Nat} (h : (positions b).getLast? = some m) :
    findTheLargest b = m := by
  have hm : b.getMsbD m = true := mem_positions.mp (List.mem_of_getLast? h)
  have hlt := lt_of_getMsbD hm
  have hmax : ∀ j ∈ positions b, j ≤ m := fun j hj => le_getLast (positions_pairwise b) h hj
  have hf : (List.range 64).find? (fun i => b.getLsbD i) = some (63 - m) := by
    rw [List.find?_range_eq_some]
    have hg : b.getLsbD (63 - m) = true := by
      rw [BitVec.getMsbD_eq_getLsbD] at hm
      simpa [hlt] using hm
    refine ⟨hg, List.mem_range.mpr (by omega), ?_⟩
    intro j hj
    cases hb : b.getLsbD j with
    | false => rfl
    | true =>
      have hj' : 63 - j ∈ positions b := by
        rw [mem_positions, BitVec.getMsbD_eq_getLsbD]
        have : 64 - 1 - (63 - j) = j := by omega
        simp [this, hb]
        omega
      have := hmax _ hj'
      omega
  unfold findTheLargest findTheLocationOfFirstBitFromRight builtinFfsll
  rw [hf]
  simp only
  omega

theorem findTheLargestAmongLessThan_eq (b : BitVec 64) (pos : Nat) :
    findTheLargestAmongLessThan b pos = position ((positions b).filter (· < pos)).getLast? := by
  unfold findTheLargestAmongLessThan
  rw [← positions_and_fillUntilBefore]
  simp only
  split
  · rename_i h
    simp [h, positions_eq_nil.mpr, position]
  · rename_i h
    cases hl : (positions (b &&& fillTheLeftSideUntilBeforeTheGivenPosition pos)).getLast? with
    | none => exact absurd (List.getLast?_eq_none_iff.mp hl) (positions_ne_nil h)
    | some m => exact findTheLargest_eq hl

/-- The two largest positions at or before a bound are the last two of the ascending list. -/
theorem findTheTwoLargestAmongOrLessThan_eq (b : BitVec 64) (pos : Nat) :
    findTheTwoLargestAmongOrLessThan b pos =
      (position ((positions b).filter (· ≤ pos)).dropLast.getLast?,
        position ((positions b).filter (· ≤ pos)).getLast?) := by
  unfold findTheTwoLargestAmongOrLessThan
  rw [← positions_and_fillUntil]
  generalize b &&& fillTheLeftSideUntilTheGivenPosition pos = m
  simp only
  split
  · rename_i h
    simp [h, positions_eq_nil.mpr, position]
  · rename_i h
    cases hl : (positions m).getLast? with
    | none => exact absurd (List.getLast?_eq_none_iff.mp hl) (positions_ne_nil h)
    | some k =>
      obtain ⟨init, hi⟩ := List.getLast?_eq_some_iff.mp hl
      have hp := positions_pairwise m
      have hk : k < 64 := lt_of_getMsbD (mem_positions.mp (List.mem_of_getLast? hl))
      rw [findTheLargest_eq hl, popcount_eq, hi]
      -- clearing the largest bit leaves the initial part of the list
      have hrest : positions (~~~(setBitAtTheGivenLocation k) &&& m) = init := by
        rw [hi] at hp
        obtain ⟨hinit, _, hlt⟩ := List.pairwise_append.mp hp
        apply pairwise_lt_ext (positions_pairwise _) hinit
        intro j
        have hj : m.getMsbD j = true ↔ j ∈ init ∨ j = k := by
          rw [← mem_positions, hi]
          simp
        simp only [mem_positions, BitVec.getMsbD_and, BitVec.getMsbD_not, getMsbD_setBit hk,
          Bool.and_eq_true, decide_eq_true_eq, Bool.not_eq_true', decide_eq_false_iff_not, hj]
        constructor
        · rintro ⟨⟨_, hne⟩, h | h⟩
          · exact h
          · exact absurd h hne
        · intro h
          have := hlt j h k (by simp)
          exact ⟨⟨by omega, by omega⟩, Or.inl h⟩
      simp only [List.length_append, List.length_singleton, List.dropLast_concat, Int.toNat_natCast]
      split
      · rename_i hlen
        have : init = [] := List.eq_nil_of_length_eq_zero (by omega)
        simp [this, position]
      · rename_i hlen
        cases hl' : init.getLast? with
        | none =>
          rw [List.getLast?_eq_none_iff.mp hl'] at hlen
          simp at hlen
        | some j =>
          rw [← hrest] at hl'
          rw [findTheLargest_eq hl']
          simp [position]

end Mvdcc.Bitmap
