import Mvdcc.Serval.System

namespace Mvdcc.Serval
open Library Bitmap

/-- `MAX_SLOTS_OF_PER_CORE_ARRAY`. -/
def maxSlotsOfPerCoreArray : Nat := 64

namespace PerCoreVersionArray

/-- The functions of the array with their assertions and those of the bitmap functions
they call: `none` is an assertion that failed. A version is never a null pointer. -/
def updateTransactionBitmapAsserted (a : PerCoreVersionArray) (txId : Nat) :
    Option PerCoreVersionArray := do
  guard (isBitSetAtThePosition a.transactionBitmap txId = false)
  let bits := a.transactionBitmap
  guard (txId < 64)
  let a := a.updateTransactionBitmap txId
  guard (bits ≠ a.transactionBitmap)
  guard (builtinPopcountll bits + 1 = builtinPopcountll a.transactionBitmap)
  guard (isBitSetAtThePosition a.transactionBitmap txId = true)
  return a

def getAsserted (a : PerCoreVersionArray) (tx : Nat) : Option Ptr := do
  guard (tx < 64)
  guard (setBitAtTheGivenLocation tx ≠ 0)
  let mask := fillTheLeftSideUntilTheGivenPosition tx
  let len := builtinPopcountll (a.transactionBitmap &&& mask)
  let index : Int := len - 1
  guard (0 ≤ index)
  a.slots[index.toNat]?

def latestAsserted (a : PerCoreVersionArray) : Option Ptr := do
  guard (0 < a.length)
  guard (a.length = a.slots.length)
  a.slots[a.length - 1]?

def popLatestAsserted (a : PerCoreVersionArray) :
    Option ((Int × Option Ptr) × PerCoreVersionArray) := do
  guard (0 < a.length)
  guard (a.length = a.slots.length)
  guard (a.transactionBitmap ≠ 0)
  let result := findTheLargest a.transactionBitmap
  guard (0 ≤ result ∧ result < 64)
  return a.popLatest

def appendAsserted (a : PerCoreVersionArray) (version : Ptr) (txId : Nat) :
    Option PerCoreVersionArray := do
  guard (txId < 64)
  guard (a.length < maxSlotsOfPerCoreArray)
  let len := a.length
  let debugLen := a.slots.length
  guard (len = a.slots.length)
  guard (a.slots.length < 64)
  let a := { a with slots := a.slots.insertIdx len version }
  -- the same bound once more, after the insertion
  guard (a.slots.length < 64)
  guard (debugLen + 1 = a.slots.length)
  guard (isBitSetAtThePosition a.transactionBitmap txId = false)
  let a ← a.updateTransactionBitmapAsserted txId
  guard (isBitSetAtThePosition a.transactionBitmap txId = true)
  guard (len + 1 = a.length)
  guard (a.length = a.slots.length)
  return a

def appendAllAsserted (a : PerCoreVersionArray) (es : List (Nat × Ptr)) :
    Option PerCoreVersionArray :=
  es.foldlM (fun a e => a.appendAsserted e.2 e.1) a

/-- No assertion of the appends fails, nor of what may follow them: each version can
be fetched, and once there is one, the latest can be looked at or popped. -/
def AssertsHold (a : PerCoreVersionArray) (es : List (Nat × Ptr)) : Prop :=
  ∃ b, a.appendAllAsserted es = some b ∧ (∀ e ∈ es, b.getAsserted e.1 = some e.2) ∧
    (es ≠ [] → b.latestAsserted.isSome ∧ b.popLatestAsserted.isSome)

structure Holds (a : PerCoreVersionArray) (es : List (Nat × Ptr)) : Prop where
  ids : positions a.transactionBitmap = es.map Prod.fst
  slots : a.slots = es.map Prod.snd

section Holds
variable {a : PerCoreVersionArray} {es rest : List (Nat × Ptr)} {tx : Nat} {version : Ptr}

theorem holds_doGc (a : PerCoreVersionArray) (heap : Heap) :
    (a.doGcAndInitializeTxBitmap heap).1.Holds [] :=
  ⟨positions_eq_nil.mpr rfl, rfl⟩

theorem Holds.length (h : a.Holds es) : a.length = es.length := by
  rw [PerCoreVersionArray.length, popcount_eq, h.ids, List.length_map]

theorem Holds.isBitSet (h : a.Holds es) (htx : tx < 64) :
    isBitSetAtThePosition a.transactionBitmap tx = true ↔ tx ∈ es.map Prod.fst := by
  rw [isBitSet_eq htx, ← mem_positions, h.ids]

theorem Holds.not_isBitSet (h : a.Holds es) (htx : tx < 64) (hlt : ∀ e ∈ es, e.1 < tx) :
    isBitSetAtThePosition a.transactionBitmap tx = false := by
  rw [Bool.eq_false_iff, Ne, h.isBitSet htx]
  intro hm
  obtain ⟨e, he, rfl⟩ := List.mem_map.mp hm
  exact Nat.lt_irrefl _ (hlt e he)

/-- A greater transaction id goes to the end of both levels. -/
theorem Holds.append (h : a.Holds es) (version : Ptr) (htx : tx < 64) (hlt : ∀ e ∈ es, e.1 < tx) :
    (a.append version tx).Holds (es ++ [(tx, version)]) := by
  have hids : ∀ i ∈ es.map Prod.fst, i < tx := by
    intro i hi
    obtain ⟨e, he, rfl⟩ := List.mem_map.mp hi
    exact hlt e he
  constructor
  · rw [List.map_append, ← h.ids]
    apply pairwise_lt_ext (positions_pairwise _)
    · refine List.pairwise_append.mpr ⟨positions_pairwise _, List.pairwise_singleton _ _, ?_⟩
      intro i hi j hj
      rw [List.mem_singleton.mp hj]
      exact hids i (h.ids ▸ hi)
    · intro i
      rw [mem_positions]
      change (setBitOfBitmapAtTheGivenLocation a.transactionBitmap tx).getMsbD i = true ↔ _
      rw [getMsbD_setBitOfBitmap htx, List.mem_append, mem_positions, or_comm]
      simp
  · change a.slots.insertIdx a.length version = _
    rw [h.length, h.slots, List.map_append, ← List.length_map Prod.snd]
    exact List.insertIdx_length_self

theorem Holds.update_asserted (h : a.Holds es) (htx : tx < 64) (hlt : ∀ e ∈ es, e.1 < tx)
    (slots : List Ptr) : ({ a with slots }).updateTransactionBitmapAsserted tx =
      some (({ a with slots }).updateTransactionBitmap tx) := by
  have hn := h.not_isBitSet htx hlt
  have ha := h.append 0 htx hlt
  have hb : isBitSetAtThePosition (setBitOfBitmapAtTheGivenLocation a.transactionBitmap tx) tx =
      true := by
    rw [isBitSet_eq htx]
    exact (getMsbD_setBitOfBitmap htx _ _).mpr (Or.inl rfl)
  have hne : a.transactionBitmap ≠ setBitOfBitmapAtTheGivenLocation a.transactionBitmap tx := by
    intro he
    rw [← he, hn] at hb
    cases hb
  have hcount : builtinPopcountll a.transactionBitmap + 1 =
      builtinPopcountll (setBitOfBitmapAtTheGivenLocation a.transactionBitmap tx) := by
    have hl := ha.length
    rw [List.length_append, List.length_singleton, ← h.length] at hl
    exact hl.symm
  simp [updateTransactionBitmapAsserted, updateTransactionBitmap, htx, hn, hb, hne, hcount]

/-- The only assertion of an append that can fail is the bound after the insertion. -/
theorem Holds.append_asserted (h : a.Holds es) (version : Ptr) (htx : tx < 64)
    (hlt : ∀ e ∈ es, e.1 < tx) :
    a.appendAsserted version tx =
      if es.length + 1 < 64 then some (a.append version tx) else none := by
  have ha := h.append version htx hlt
  have hslots : a.slots.length = es.length := by rw [h.slots, List.length_map]
  have hn := h.not_isBitSet htx hlt
  have hb := (ha.isBitSet htx).mpr (by simp)
  have hins : (a.slots.insertIdx es.length version).length = es.length + 1 := by
    rw [List.length_insertIdx_of_le_length (by omega), hslots]
  have hlen := ha.length
  rw [List.length_append, List.length_singleton] at hlen
  have hslots' : (a.append version tx).slots.length = es.length + 1 := by
    rw [ha.slots, List.length_map, List.length_append, List.length_singleton]
  split
  · rename_i hsize
    have hup := h.update_asserted htx hlt (a.slots.insertIdx es.length version)
    have happ : ({ a with slots := a.slots.insertIdx es.length version }).updateTransactionBitmap
        tx = a.append version tx := by
      rw [PerCoreVersionArray.append, h.length]
    have hmax : es.length < maxSlotsOfPerCoreArray := by
      unfold maxSlotsOfPerCoreArray
      omega
    have h64 : es.length < 64 := by omega
    rw [happ] at hup
    simp [appendAsserted, htx, h.length, hmax, hslots, h64, hins, hsize, hn, hup, hb, hlen, hslots']
  · rename_i hsize
    simp [appendAsserted, h.length, hins, hsize]

theorem Holds.appendAll_asserted (h : a.Holds es) (hasc : Ascending (es ++ rest))
    (h64 : ∀ e ∈ rest, e.1 < 64) (hl : (es ++ rest).length < 64) :
    ∃ b, a.appendAllAsserted rest = some b ∧ b.Holds (es ++ rest) := by
  induction rest generalizing a es with
  | nil => exact ⟨a, rfl, by rwa [List.append_nil]⟩
  | cons e rest ih =>
    obtain ⟨tx, version⟩ := e
    have htx := h64 _ List.mem_cons_self
    have hlt : ∀ e ∈ es, e.1 < tx := fun e he =>
      (List.pairwise_append.mp hasc).2.2 e he _ List.mem_cons_self
    rw [List.append_cons] at hasc hl ⊢
    have hstep := h.append_asserted version htx hlt
    rw [if_pos (by simp at hl; omega)] at hstep
    obtain ⟨b, hb, hholds⟩ := ih (h.append version htx hlt) hasc
      (fun e he => h64 e (List.mem_cons_of_mem _ he)) hl
    refine ⟨b, ?_, hholds⟩
    rw [appendAllAsserted, List.foldlM_cons, hstep]
    exact hb

/-- Appends that all pass their assertions stay below the bound. -/
theorem Holds.length_of_appendAll {b : PerCoreVersionArray} (h : a.Holds es)
    (hasc : Ascending (es ++ rest)) (h64 : ∀ e ∈ rest, e.1 < 64) (hes : es.length < 64)
    (hb : a.appendAllAsserted rest = some b) : (es ++ rest).length < 64 := by
  induction rest generalizing a es with
  | nil => rwa [List.append_nil]
  | cons e rest ih =>
    obtain ⟨tx, version⟩ := e
    have htx := h64 _ List.mem_cons_self
    have hlt : ∀ e ∈ es, e.1 < tx := fun e he =>
      (List.pairwise_append.mp hasc).2.2 e he _ List.mem_cons_self
    rw [List.append_cons] at hasc ⊢
    rw [appendAllAsserted, List.foldlM_cons, h.append_asserted version htx hlt] at hb
    split at hb
    · rename_i hsize
      exact ih (h.append version htx hlt) hasc (fun e he => h64 e (List.mem_cons_of_mem _ he))
        (by simpa using hsize) hb
    · cases hb

theorem Holds.get_asserted (h : a.Holds es) (hm : (tx, version) ∈ es) (htx : tx < 64) :
    a.getAsserted tx = some version := by
  have hal : (tx, version) ∈ aligned a.transactionBitmap a.slots := by
    have hz := List.zip_unzip es
    rw [List.unzip_eq_map] at hz
    unfold aligned
    rw [h.ids, h.slots, hz]
    exact hm
  have hget := RowRegion.get_eq hal
  have hset : setBitAtTheGivenLocation tx ≠ 0#64 := by
    intro he
    have hb := getMsbD_setBit htx tx
    rw [he] at hb
    simp at hb
  have hpos : 1 ≤ builtinPopcountll
      (a.transactionBitmap &&& fillTheLeftSideUntilTheGivenPosition tx) := by
    rw [popcount_eq, positions_and_fillUntil, Nat.one_le_iff_ne_zero, ← Nat.pos_iff_ne_zero,
      List.length_pos_iff_exists_mem]
    refine ⟨tx, List.mem_filter.mpr ⟨?_, by simp⟩⟩
    exact mem_positions.mpr (getMsbD_of_mem_aligned hal)
  unfold PerCoreVersionArray.get at hget
  simp [getAsserted, htx, hset, hpos, hget]

theorem Holds.latest_asserted (h : a.Holds es) (hne : es ≠ []) :
    a.latestAsserted.isSome ∧ a.popLatestAsserted.isSome := by
  have hpos : 0 < es.length := List.length_pos_iff.mpr hne
  have hslots : a.slots.length = es.length := by rw [h.slots, List.length_map]
  constructor
  · simp [latestAsserted, h.length, hslots, hpos]
  · have hbits : a.transactionBitmap ≠ 0#64 := by
      intro hz
      have hids := h.ids
      rw [positions_eq_nil.mpr hz] at hids
      exact hne (List.map_eq_nil_iff.mp hids.symm)
    obtain ⟨m, hm, hbit, _⟩ := largest_of_ne_zero hbits
    have hm64 := lt_of_getMsbD hbit
    simp [popLatestAsserted, h.length, hslots, hpos, hbits, hm, hm64]

end Holds

/-- The assertions of a per-core array hold for every ascending sequence of appends
that does not fill the array. -/
theorem asserts_hold_iff (a : PerCoreVersionArray) (heap : Heap) (es : List (Nat × Ptr))
    (hasc : Ascending es) (h64 : ∀ e ∈ es, e.1 < 64) :
    AssertsHold (a.doGcAndInitializeTxBitmap heap).1 es ↔ es.length < 64 := by
  have h := holds_doGc a heap
  constructor
  · intro hall
    obtain ⟨b, hb, _⟩ := hall
    exact h.length_of_appendAll hasc h64 (by decide) hb
  · intro hl
    obtain ⟨b, hb, hholds⟩ := h.appendAll_asserted hasc h64 hl
    exact ⟨b, hb, fun e he => hholds.get_asserted he (h64 e he), hholds.latest_asserted⟩

/-- The first and the last transaction of a core write. -/
theorem asserts_hold_two :
    AssertsHold ((RowRegion.fresh.arrays 0).doGcAndInitializeTxBitmap loadedRow.heap).1
      [(0, 1), (63, 2)] :=
  (asserts_hold_iff _ _ _ (by simp [Ascending]) (by simp)).mpr (by decide)

/-- A row that all 64 transactions of a core write. -/
def everyTransaction : List (Nat × Ptr) := (List.range 64).map (fun tx => (tx, tx))

theorem full_array_asserts : ¬ ∀ (a : PerCoreVersionArray) (heap : Heap) (es : List (Nat × Ptr)),
    Ascending es → (∀ e ∈ es, e.1 < 64) →
      AssertsHold (a.doGcAndInitializeTxBitmap heap).1 es := by
  intro hall
  have hasc : Ascending everyTransaction := by
    unfold Ascending
    decide +kernel
  obtain ⟨b, hb, _⟩ := hall (RowRegion.fresh.arrays 0) loadedRow.heap everyTransaction hasc
    (by decide)
  -- the assertion after the 64th insertion stops the run
  have hrun : (((RowRegion.fresh.arrays 0).doGcAndInitializeTxBitmap loadedRow.heap).1
      |>.appendAllAsserted everyTransaction).map slots = none := by
    decide +kernel
  rw [hb] at hrun
  cases hrun

end PerCoreVersionArray
end Mvdcc.Serval
