import Mvdcc.Common.RWLock
import Mvdcc.Common.Version
import Mvdcc.Common.VisibleVersion
import Mvdcc.Library.UnorderedMap

namespace Mvdcc.Cheetah
open Library Bitmap

def getCoreSerial (serialId : Nat) : Nat := serialId / 64
def getTxSerial (serialId : Nat) : Nat := serialId % 64
def getSerialId (core tx : Nat) : Nat := core * 64 + tx

@[simp] theorem getSerialId_split (serial : Nat) :
    getSerialId (getCoreSerial serial) (getTxSerial serial) = serial := by
  unfold getSerialId getCoreSerial getTxSerial
  omega

theorem getTxSerial_lt (serial : Nat) : getTxSerial serial < 64 :=
  Nat.mod_lt _ (by omega)

theorem getCoreSerial_lt {serial : Nat} (h : serial < 64 * 64) : getCoreSerial serial < 64 :=
  Nat.div_lt_of_lt_mul h

/-- A counter that went below zero would show as a negative number. -/
structure WriteBitmap where
  refCnt : Int
  lock : RWLock
  coreBitmap : BitVec 64
  txBitmaps : List (BitVec 64)
  placeholders : UnorderedMap Nat Ptr
  master : Option Ptr
  previousMaster : Option Ptr

namespace WriteBitmap

def countPrefixSum (b : WriteBitmap) (core : Nat) : Nat :=
  countBits (b.coreBitmap &&& fillTheLeftSideUntilBeforeTheGivenPosition core)

def insertTxBitmap (b : WriteBitmap) (insertPos : Nat) (txBitmap : BitVec 64) : WriteBitmap :=
  { b with txBitmaps := b.txBitmaps.insertIdx insertPos txBitmap }

def updateCoreBitmap (b : WriteBitmap) (core : Nat) : WriteBitmap :=
  { b with coreBitmap := setBitOfBitmapAtTheGivenLocation b.coreBitmap core }

def updateBitmap (b : WriteBitmap) (core : Nat) (txBitmap : BitVec 64) : WriteBitmap :=
  let insertPos := b.countPrefixSum core
  (b.insertTxBitmap insertPos txBitmap).updateCoreBitmap core

def clearBitmaps (b : WriteBitmap) : WriteBitmap :=
  { b with coreBitmap := 0, txBitmaps := [] }

/-- `tx_bitmaps_[count_prefix_sum(core)]`. -/
def txBitmapOf (b : WriteBitmap) (core : Nat) : BitVec 64 :=
  b.txBitmaps.getD (b.countPrefixSum core) 0

def identifyVisibleVersionInBitmaps (b : WriteBitmap) (core tx : Nat) : Option (Nat × Nat) :=
  identifyVisible b.coreBitmap b.txBitmapOf core tx

def isFinalState (b : WriteBitmap) (core tx : Nat) : Bool :=
  if b.coreBitmap ≠ 0 then
    let lastCore := findTheLargest b.coreBitmap
    if lastCore = core then
      let lastTx := findTheLargest (b.txBitmaps.getLastD 0)
      lastTx = tx
    else false
  else false

/-- One transaction bitmap for each core of the core bitmap, none of them empty. -/
structure Packed (b : WriteBitmap) : Prop where
  length : (positions b.coreBitmap).length = b.txBitmaps.length
  nonzero : ∀ c, b.coreBitmap.getMsbD c = true → b.txBitmapOf c ≠ 0

/-- The bitmaps name this transaction. -/
def Records (b : WriteBitmap) (serial : Nat) : Prop :=
  Recorded b.coreBitmap b.txBitmapOf (getCoreSerial serial) (getTxSerial serial)

/-- The bitmaps name exactly these transactions. -/
structure Marked (writers : List Nat) (b : WriteBitmap) : Prop where
  packed : b.Packed
  records : ∀ serial, b.Records serial ↔ serial ∈ writers

section Bitmaps
variable {b : WriteBitmap} {core : Nat} {txBitmap : BitVec 64} {writers : List Nat} {serial : Nat}

/-- Only the bitmaps decide what is marked. -/
theorem Marked.of_eq {b' : WriteBitmap} (h : Marked writers b)
    (hc : b'.coreBitmap = b.coreBitmap) (ht : b'.txBitmaps = b.txBitmaps) : Marked writers b' := by
  obtain ⟨⟨hl, hn⟩, hr⟩ := h
  cases b'
  cases hc
  cases ht
  exact ⟨⟨hl, hn⟩, hr⟩

theorem countPrefixSum_eq (b : WriteBitmap) (core : Nat) :
    b.countPrefixSum core = rank (positions b.coreBitmap) core :=
  countBits_fillUntilBefore _ _

theorem txBitmapOf_eq (h : (core, txBitmap) ∈ aligned b.coreBitmap b.txBitmaps) :
    b.txBitmapOf core = txBitmap := by
  unfold txBitmapOf
  rw [countPrefixSum_eq, List.getD_eq_getElem?_getD, getElem_rank h]
  rfl

theorem mem_aligned (hl : (positions b.coreBitmap).length = b.txBitmaps.length)
    (hc : b.coreBitmap.getMsbD core = true) :
    (core, b.txBitmapOf core) ∈ aligned b.coreBitmap b.txBitmaps := by
  obtain ⟨x, hx⟩ := mem_aligned_fst hl hc
  rw [txBitmapOf_eq hx]
  exact hx

theorem packed_of_empty (hc : b.coreBitmap = 0) (ht : b.txBitmaps = []) : b.Packed := by
  have hz : positions b.coreBitmap = [] := positions_eq_nil.mpr hc
  refine ⟨by rw [hz, ht]; rfl, ?_⟩
  intro c hb
  rw [← mem_positions, hz] at hb
  cases hb

theorem updateBitmap_core (txBitmap : BitVec 64) (hcore : core < 64) (c : Nat) :
    (b.updateBitmap core txBitmap).coreBitmap.getMsbD c = true ↔
      c = core ∨ b.coreBitmap.getMsbD c = true :=
  getMsbD_setBitOfBitmap hcore b.coreBitmap c

/-- A core that has not marked the row yet adds its transaction bitmap and moves no other. -/
theorem updateBitmap_txBitmapOf (txBitmap : BitVec 64)
    (hl : (positions b.coreBitmap).length = b.txBitmaps.length)
    (hcore : core < 64) (hclear : b.coreBitmap.getMsbD core = false) {c : Nat}
    (hc : c = core ∨ b.coreBitmap.getMsbD c = true) :
    (b.updateBitmap core txBitmap).txBitmapOf c =
      if c = core then txBitmap else b.txBitmapOf c := by
  have hins := aligned_insert hl hclear (updateBitmap_core txBitmap hcore) txBitmap
  rw [← countPrefixSum_eq] at hins
  apply txBitmapOf_eq
  change _ ∈ aligned _ (b.txBitmaps.insertIdx (b.countPrefixSum core) txBitmap)
  rw [hins, mem_insertEntry]
  split
  · rename_i he
    exact Or.inl (by rw [he])
  · rename_i hne
    exact Or.inr (mem_aligned hl (hc.resolve_left hne))

theorem Packed.updateBitmap (h : b.Packed) (hcore : core < 64)
    (hclear : b.coreBitmap.getMsbD core = false) (hne : txBitmap ≠ 0) :
    (b.updateBitmap core txBitmap).Packed := by
  refine ⟨?_, ?_⟩
  · rw [length_positions_insert hclear (updateBitmap_core txBitmap hcore), h.length]
    change _ = (b.txBitmaps.insertIdx (b.countPrefixSum core) txBitmap).length
    rw [List.length_insertIdx_of_le_length]
    rw [countPrefixSum_eq, ← h.length]
    exact rank_le_length _ _
  · intro c hc
    have hc' := (updateBitmap_core txBitmap hcore c).mp hc
    rw [updateBitmap_txBitmapOf txBitmap h.length hcore hclear hc']
    split
    · exact hne
    · rename_i hcc
      exact h.nonzero c (hc'.resolve_left hcc)

theorem records_getSerialId {c t : Nat} (ht : t < 64) :
    b.Records (getSerialId c t) ↔ Recorded b.coreBitmap b.txBitmapOf c t := by
  have h1 : getCoreSerial (getSerialId c t) = c := by
    unfold getCoreSerial getSerialId
    omega
  have h2 : getTxSerial (getSerialId c t) = t := by
    unfold getTxSerial getSerialId
    omega
  rw [Records, h1, h2]

/-- The vector's last bitmap belongs to the greatest core. -/
theorem getLastD_txBitmaps (hl : (positions b.coreBitmap).length = b.txBitmaps.length)
    {m : Nat} (hm : b.coreBitmap.getMsbD m = true)
    (hmax : ∀ c, b.coreBitmap.getMsbD c = true → c ≤ m) :
    b.txBitmaps.getLastD 0 = b.txBitmapOf m := by
  have hlast : (positions b.coreBitmap).getLast? = some m :=
    (getLast_eq_some (positions_pairwise _)).mpr
      ⟨mem_positions.mpr hm, fun c hc => hmax c (mem_positions.mp hc)⟩
  obtain ⟨init, hi⟩ := List.getLast?_eq_some_iff.mp hlast
  have hlt : ∀ c ∈ init, c < m := by
    intro c hc
    have hp := positions_pairwise b.coreBitmap
    rw [hi] at hp
    exact (List.pairwise_append.mp hp).2.2 c hc m (by simp)
  have hrank : rank (positions b.coreBitmap) m = init.length := by
    have hf : init.filter (· < m) = init := List.filter_eq_self.mpr (by simpa using hlt)
    simp [rank, hi, List.filter_append, hf]
  rw [hi, List.length_append, List.length_singleton] at hl
  unfold txBitmapOf
  rw [countPrefixSum_eq, hrank, List.getD_eq_getElem?_getD, List.getLastD_eq_getLast?,
    List.getLast?_eq_getElem?, ← hl, Nat.add_sub_cancel]

/-- Only the greatest recorded transaction is the final state. -/
theorem Packed.isFinalState_iff (h : b.Packed) {core tx : Nat} :
    b.isFinalState core tx = true ↔ Recorded b.coreBitmap b.txBitmapOf core tx ∧
      ∀ c t, Recorded b.coreBitmap b.txBitmapOf c t → c < core ∨ c = core ∧ t ≤ tx := by
  unfold isFinalState
  by_cases hz : b.coreBitmap = 0
  · simp [hz, Recorded]
  · obtain ⟨m, hm, hbit, hmax⟩ := largest_of_ne_zero hz
    obtain ⟨t, ht, htbit, htmax⟩ := largest_of_ne_zero (h.nonzero m hbit)
    rw [if_pos hz, hm, getLastD_txBitmaps h.length hbit hmax, ht]
    simp only [Nat.cast_inj, Bool.if_false_right, Bool.and_eq_true, decide_eq_true_eq]
    constructor
    · intro heq
      obtain ⟨rfl, rfl⟩ := heq
      refine ⟨⟨hbit, htbit⟩, ?_⟩
      intro c t' hr
      rcases Nat.lt_or_eq_of_le (hmax c hr.1) with hlt | rfl
      · exact Or.inl hlt
      · exact Or.inr ⟨rfl, htmax t' hr.2⟩
    · intro hall
      obtain ⟨hr, hgreatest⟩ := hall
      have hle := hmax core hr.1
      rcases hgreatest m t ⟨hbit, htbit⟩ with hlt | ⟨rfl, htx⟩
      · omega
      · exact ⟨rfl, Nat.le_antisymm htx (htmax tx hr.2)⟩

theorem Marked.coreBitmap_eq_zero (h : Marked writers b) : b.coreBitmap = 0 ↔ writers = [] := by
  constructor
  · intro hz
    apply List.eq_nil_iff_forall_not_mem.mpr
    intro s hs
    have hb := ((h.records s).mpr hs).1
    rw [hz] at hb
    simp at hb
  · intro hW
    by_contra hne
    obtain ⟨c, _, hc, _⟩ := largest_of_ne_zero hne
    obtain ⟨t, _, ht, _⟩ := largest_of_ne_zero (h.packed.nonzero c hc)
    have hr := (records_getSerialId (lt_of_getMsbD ht)).mpr ⟨hc, ht⟩
    rw [h.records, hW] at hr
    cases hr

/-- The greatest bits name the final writer. -/
theorem Marked.isFinalState_iff (h : Marked writers b) (hp : writers.Pairwise (· < ·)) :
    b.isFinalState (getCoreSerial serial) (getTxSerial serial) = true ↔
      writers.getLast? = some serial := by
  rw [h.packed.isFinalState_iff, getLast_eq_some hp]
  refine and_congr (h.records serial) ⟨?_, ?_⟩
  · intro hall y hy
    have horder := hall _ _ ((h.records y).mpr hy)
    unfold getCoreSerial getTxSerial at horder
    omega
  · intro hmax c t hr
    have ht := lt_of_getMsbD hr.2
    have hle := hmax _ ((h.records _).mp ((records_getSerialId ht).mpr hr))
    unfold getSerialId at hle
    unfold getCoreSerial getTxSerial
    omega

/-- The search finds the greatest writer below the reader. -/
theorem Marked.identify_eq (h : Marked writers b) (hp : writers.Pairwise (· < ·)) :
    b.identifyVisibleVersionInBitmaps (getCoreSerial serial) (getTxSerial serial) =
      (greatestBelow serial writers).map (fun w => (getCoreSerial w, getTxSerial w)) := by
  have hs := identifyVisible_spec (getCoreSerial serial) h.packed.nonzero (getTxSerial_lt serial)
  have hid : getCoreSerial serial * 64 + getTxSerial serial = serial := getSerialId_split serial
  rw [hid] at hs
  unfold identifyVisibleVersionInBitmaps
  cases hv : identifyVisible b.coreBitmap b.txBitmapOf (getCoreSerial serial)
      (getTxSerial serial) with
  | none =>
    rw [hv] at hs
    have hn : greatestBelow serial writers = none := by
      rw [greatestBelow_eq_none]
      intro w hw
      have := hs _ _ ((h.records w).mpr hw)
      rw [show getCoreSerial w * 64 + getTxSerial w = w from getSerialId_split w] at this
      omega
    rw [hn]
    rfl
  | some ct =>
    obtain ⟨c, t⟩ := ct
    rw [hv] at hs
    obtain ⟨hr, hlt, hmax⟩ := hs
    rw [hid] at hlt hmax
    have ht := hr.lt.2
    have hg : greatestBelow serial writers = some (getSerialId c t) := by
      rw [greatestBelow_eq_some hp]
      refine ⟨(h.records _).mp ((records_getSerialId ht).mpr hr), hlt, ?_⟩
      intro y hy hlt'
      have := hmax _ _ ((h.records y).mpr hy)
      rw [show getCoreSerial y * 64 + getTxSerial y = y from getSerialId_split y] at this
      exact this hlt'
    rw [hg]
    simp only [Option.map_some, Option.some.injEq, Prod.mk.injEq, getSerialId, getCoreSerial,
      getTxSerial]
    omega

end Bitmaps
end WriteBitmap
end Mvdcc.Cheetah
