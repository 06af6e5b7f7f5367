import Mathlib.Algebra.BigOperators.Group.Finset.Basic
import Mathlib.Algebra.Order.Group.Multiset
import Mathlib.Data.Nat.Cast.Order.Ring
import Mvdcc.Common.RWLock
import Mvdcc.Common.VisibleVersion
import Mvdcc.Common.Version
import Mvdcc.Common.Workload

namespace Mvdcc.Serval
open Library Bitmap

/-- `ids_slots_`, ascending in the serial id. The loaded version has id -1. -/
structure GlobalVersionArray where
  idsSlots : List (Int × Ptr)

namespace GlobalVersionArray

/-- The triple `{false, 0, nullptr}` is `none`. `std::upper_bound` returns the
first position its comparison accepts. -/
def searchVisibleVersion (g : GlobalVersionArray) (serialId : Int) : Option (Int × Ptr) :=
  match g.idsSlots with
  | [] => none
  | first :: _ =>
    if serialId ≤ first.1 then none
    else g.idsSlots[g.idsSlots.findIdx (fun pair => decide (serialId ≤ pair.1)) - 1]?

def append (g : GlobalVersionArray) (version : Ptr) (serialId : Int) : GlobalVersionArray :=
  ⟨insertEntry serialId version g.idsSlots⟩

def minorGc (g : GlobalVersionArray) (heap : Heap) : Heap :=
  heap.deleteAll (g.idsSlots.map Prod.snd)

def gc (g : GlobalVersionArray) (heap : Heap) : GlobalVersionArray × Heap :=
  (⟨[]⟩, g.minorGc heap)

def popFinalState (g : GlobalVersionArray) : Option (Int × Ptr) × GlobalVersionArray :=
  (g.idsSlots.getLast?, ⟨g.idsSlots.dropLast⟩)

def isDirty (g : GlobalVersionArray) : Bool := !g.idsSlots.isEmpty

end GlobalVersionArray

structure PerCoreVersionArray where
  transactionBitmap : BitVec 64
  slots : List Ptr

namespace PerCoreVersionArray

def minorGc (a : PerCoreVersionArray) (heap : Heap) : Heap := heap.deleteAll a.slots

def doGcAndInitializeTxBitmap (a : PerCoreVersionArray) (heap : Heap) :
    PerCoreVersionArray × Heap :=
  (⟨0, []⟩, a.minorGc heap)

def updateTransactionBitmap (a : PerCoreVersionArray) (txId : Nat) : PerCoreVersionArray :=
  { a with transactionBitmap := setBitOfBitmapAtTheGivenLocation a.transactionBitmap txId }

def length (a : PerCoreVersionArray) : Nat := builtinPopcountll a.transactionBitmap

def get (a : PerCoreVersionArray) (tx : Nat) : Option Ptr :=
  let mask := fillTheLeftSideUntilTheGivenPosition tx
  let len := builtinPopcountll (a.transactionBitmap &&& mask)
  a.slots[len - 1]?

/-- The transaction bit of the popped version stays set. -/
def popLatest (a : PerCoreVersionArray) : (Int × Option Ptr) × PerCoreVersionArray :=
  ((findTheLargest a.transactionBitmap, a.slots.getLast?), { a with slots := a.slots.dropLast })

def append (a : PerCoreVersionArray) (version : Ptr) (txId : Nat) : PerCoreVersionArray :=
  updateTransactionBitmap { a with slots := a.slots.insertIdx a.length version } txId

end PerCoreVersionArray

structure RowRegion where
  coreBitmap : BitVec 64
  arrays : Nat → PerCoreVersionArray

namespace RowRegion

/-- A region as the controller constructs it. -/
def fresh : RowRegion := ⟨0, fun _ => ⟨0, []⟩⟩

def initializeCoreBitmap (r : RowRegion) : RowRegion := { r with coreBitmap := 0 }

def identifyVisibleVersion (r : RowRegion) (core tx : Nat) : Option (Nat × Nat) :=
  identifyVisible r.coreBitmap (fun c => (r.arrays c).transactionBitmap) core tx

def isDirty (r : RowRegion) : Bool := r.coreBitmap != 0

def popFinalState (r : RowRegion) : (Int × Option Ptr) × RowRegion :=
  let core := (findTheLargest r.coreBitmap).toNat
  let (last, array) := (r.arrays core).popLatest
  (last, { r with arrays := Function.update r.arrays core array })

def gcAndInitializeTxBitmap (r : RowRegion) (core : Nat) (heap : Heap) : RowRegion × Heap :=
  let (array, heap) := (r.arrays core).doGcAndInitializeTxBitmap heap
  ({ r with arrays := Function.update r.arrays core array }, heap)

def isFirstWrite (r : RowRegion) (core : Nat) : Bool :=
  !isBitSetAtThePosition r.coreBitmap core

/-- What `append` does for the first write of a core in an epoch: collect the
core's array, then `__atomic_or_fetch` its bit. -/
def firstWrite (r : RowRegion) (core : Nat) (heap : Heap) : RowRegion × Heap :=
  let (r, heap) := r.gcAndInitializeTxBitmap core heap
  ({ r with coreBitmap := r.coreBitmap ||| setBitAtTheGivenLocation core }, heap)

/-- The last statement of `append`: `arrays_[core]->append(version, tx)`. -/
def appendSlot (r : RowRegion) (core : Nat) (version : Ptr) (tx : Nat) : RowRegion :=
  { r with arrays := Function.update r.arrays core ((r.arrays core).append version tx) }

def append (r : RowRegion) (core : Nat) (version : Ptr) (tx : Nat) (heap : Heap) :
    RowRegion × Heap :=
  let (r, heap) := if r.isFirstWrite core then r.firstWrite core heap else (r, heap)
  (r.appendSlot core version tx, heap)

end RowRegion

/-- `RowRegionController`: the regions, and how many of them are in use. -/
structure RowRegionController where
  regions : Nat → RowRegion
  lock : RWLock
  used : Nat

namespace RowRegionController

/-- Under `lock_`. `none` is the exception: no region is left. -/
def fetchNewRegion (numRegions : Nat) (c : RowRegionController) :
    Option (Nat × RowRegionController) :=
  if numRegions ≤ c.used then none else some (c.used, { c with used := c.used + 1 })

def setRegion (c : RowRegionController) (i : Nat) (r : RowRegion) : RowRegionController :=
  { c with regions := Function.update c.regions i r }

end RowRegionController

namespace RowRegion

/-- What a region holds: its versions by serial id, in ascending order. -/
def entries (r : RowRegion) : List (Int × Ptr) :=
  (positions r.coreBitmap).flatMap (fun c =>
    (aligned (r.arrays c).transactionBitmap (r.arrays c).slots).map
      (fun e => (((c * 64 + e.1 : Nat) : Int), e.2)))

/-- Every core that wrote in the epoch has one slot for each set transaction bit. -/
def WellFormed (r : RowRegion) : Prop :=
  ∀ c, r.coreBitmap.getMsbD c = true →
    (positions (r.arrays c).transactionBitmap).length = (r.arrays c).slots.length

/-- All versions a region points to, collected or not. -/
def owned (r : RowRegion) : Multiset Ptr :=
  ∑ c ∈ cores, ((r.arrays c).slots : Multiset Ptr)

theorem mem_entries {r : RowRegion} {i : Int} {p : Ptr} : (i, p) ∈ r.entries ↔
    ∃ c t, r.coreBitmap.getMsbD c = true ∧
      (t, p) ∈ aligned (r.arrays c).transactionBitmap (r.arrays c).slots ∧
      i = ((c * 64 + t : Nat) : Int) := by
  simp only [entries, List.mem_flatMap, mem_positions, List.mem_map, Prod.mk.injEq]
  constructor
  · rintro ⟨c, hc, ⟨t, q⟩, hm, rfl, rfl⟩
    exact ⟨c, t, hc, hm, rfl⟩
  · rintro ⟨c, t, hc, hm, rfl⟩
    exact ⟨c, hc, (t, p), hm, rfl, rfl⟩

theorem entries_ascending (r : RowRegion) : Ascending r.entries := by
  unfold entries Ascending
  rw [List.pairwise_flatMap]
  constructor
  · intro c _
    rw [List.pairwise_map]
    refine (aligned_ascending _ _).imp ?_
    intro a b hab
    simp only [Nat.cast_lt]
    omega
  · refine (positions_pairwise _).imp ?_
    intro c c' hlt a ha b hb
    obtain ⟨⟨t, q⟩, hm, rfl⟩ := List.mem_map.mp ha
    obtain ⟨⟨t', q'⟩, _, rfl⟩ := List.mem_map.mp hb
    have ht := lt_of_getMsbD (getMsbD_of_mem_aligned hm)
    simp only [Nat.cast_lt]
    omega

theorem entries_fresh : fresh.entries = [] := by
  simp [entries, fresh, positions_eq_nil.mpr]

theorem wellFormed_fresh : fresh.WellFormed := by
  intro c hc
  simp [fresh] at hc

@[simp] theorem owned_fresh : fresh.owned = 0 := by
  simp [owned, fresh]

@[simp] theorem entries_initializeCoreBitmap (r : RowRegion) :
    r.initializeCoreBitmap.entries = [] := by
  simp [entries, initializeCoreBitmap, positions_eq_nil.mpr]

theorem wellFormed_initializeCoreBitmap (r : RowRegion) : r.initializeCoreBitmap.WellFormed := by
  intro c hc
  simp [initializeCoreBitmap] at hc

/-- Replacing one array trades its slots. -/
theorem owned_update (r : RowRegion) {core : Nat} (hc : core < 64) (a : PerCoreVersionArray)
    (b : BitVec 64) :
    (⟨b, Function.update r.arrays core a⟩ : RowRegion).owned + ((r.arrays core).slots : Multiset Ptr)
      = r.owned + (a.slots : Multiset Ptr) :=
  sum_update (fun x : PerCoreVersionArray => (x.slots : Multiset Ptr)) r.arrays
    (mem_cores.mpr hc) a

section FirstWrite
variable (r : RowRegion) {core : Nat} (heap : Heap)

theorem firstWrite_heap : (r.firstWrite core heap).2 = heap.deleteAll (r.arrays core).slots := rfl

theorem firstWrite_arrays : (r.firstWrite core heap).1.arrays =
    Function.update r.arrays core ⟨0, []⟩ := rfl

theorem firstWrite_core (hc : core < 64) (j : Nat) :
    (r.firstWrite core heap).1.coreBitmap.getMsbD j = true ↔
      j = core ∨ r.coreBitmap.getMsbD j = true :=
  getMsbD_setBitOfBitmap hc r.coreBitmap j

theorem firstWrite_owned (hc : core < 64) :
    (r.firstWrite core heap).1.owned + ((r.arrays core).slots : Multiset Ptr) = r.owned := by
  have h := r.owned_update hc ⟨0, []⟩ (r.firstWrite core heap).1.coreBitmap
  rw [Multiset.coe_nil, add_zero] at h
  exact h

theorem firstWrite_wellFormed (hc : core < 64) (hw : r.WellFormed) :
    (r.firstWrite core heap).1.WellFormed := by
  intro c h
  rw [firstWrite_arrays]
  by_cases he : c = core
  · subst he
    simp [positions_eq_nil.mpr]
  · rw [Function.update_of_ne he]
    rcases (r.firstWrite_core heap hc c).mp h with h | h
    · exact absurd h he
    · exact hw c h

/-- A core's first write leaves what the region holds unchanged: stale slots
do not count while the core's bit is clear. -/
theorem firstWrite_entries (hc : core < 64) (hf : r.coreBitmap.getMsbD core = false) :
    (r.firstWrite core heap).1.entries = r.entries := by
  apply (entries_ascending _).ext (entries_ascending r)
  rintro ⟨i, p⟩
  rw [mem_entries, mem_entries, firstWrite_arrays]
  constructor
  · rintro ⟨c, t, h, hm, rfl⟩
    by_cases he : c = core
    · subst he
      simp [aligned, positions_eq_nil.mpr] at hm
    · rw [Function.update_of_ne he] at hm
      rcases (r.firstWrite_core heap hc c).mp h with h | h
      · exact absurd h he
      · exact ⟨c, t, h, hm, rfl⟩
  · rintro ⟨c, t, h, hm, rfl⟩
    have he : c ≠ core := by
      rintro rfl
      rw [hf] at h
      cases h
    refine ⟨c, t, (r.firstWrite_core heap hc c).mpr (Or.inr h), ?_, rfl⟩
    rw [Function.update_of_ne he]
    exact hm

end FirstWrite

section AppendSlot
variable {r : RowRegion} {core tx : Nat} {version : Ptr}

theorem appendSlot_core : (r.appendSlot core version tx).coreBitmap = r.coreBitmap := rfl

theorem appendSlot_arrays : (r.appendSlot core version tx).arrays =
    Function.update r.arrays core ((r.arrays core).append version tx) := rfl

/-- With ascending transaction ids the slot goes to the end. -/
theorem append_slots (hw : r.WellFormed) (hb : r.coreBitmap.getMsbD core = true) :
    ((r.arrays core).append version tx).slots = (r.arrays core).slots ++ [version] := by
  have hl := hw core hb
  simp only [PerCoreVersionArray.append, PerCoreVersionArray.updateTransactionBitmap,
    PerCoreVersionArray.length, popcount_eq, hl]
  exact List.insertIdx_length_self

theorem append_aligned (hw : r.WellFormed) (hb : r.coreBitmap.getMsbD core = true)
    (htx : tx < 64)
    (hlt : ∀ t, (r.arrays core).transactionBitmap.getMsbD t = true → t < tx) :
    aligned ((r.arrays core).append version tx).transactionBitmap
        ((r.arrays core).append version tx).slots =
      insertEntry tx version (aligned (r.arrays core).transactionBitmap (r.arrays core).slots) := by
  have hn : (r.arrays core).transactionBitmap.getMsbD tx = false := by
    cases h : (r.arrays core).transactionBitmap.getMsbD tx with
    | false => rfl
    | true => exact absurd (hlt tx h) (Nat.lt_irrefl _)
  have hr : (r.arrays core).length = rank (positions (r.arrays core).transactionBitmap) tx := by
    rw [PerCoreVersionArray.length, popcount_eq,
      rank_eq_length (fun j hj => hlt j (mem_positions.mp hj))]
  unfold PerCoreVersionArray.append PerCoreVersionArray.updateTransactionBitmap
  simp only [hr]
  exact aligned_insert (hw core hb) hn (getMsbD_setBitOfBitmap htx _) version

theorem appendSlot_wellFormed (hw : r.WellFormed) (hb : r.coreBitmap.getMsbD core = true)
    (htx : tx < 64)
    (hlt : ∀ t, (r.arrays core).transactionBitmap.getMsbD t = true → t < tx) :
    (r.appendSlot core version tx).WellFormed := by
  intro c hc
  rw [appendSlot_arrays]
  by_cases he : c = core
  · subst he
    rw [Function.update_self, append_slots hw hb, List.length_append, ← hw c hb]
    have hn : (r.arrays c).transactionBitmap.getMsbD tx = false := by
      cases h : (r.arrays c).transactionBitmap.getMsbD tx with
      | false => rfl
      | true => exact absurd (hlt tx h) (Nat.lt_irrefl _)
    exact length_positions_insert hn (getMsbD_setBitOfBitmap htx _)
  · rw [Function.update_of_ne he]
    exact hw c hc

/-- Appending to a core's array inserts the version under its serial id. -/
theorem appendSlot_entries (hw : r.WellFormed) (hb : r.coreBitmap.getMsbD core = true)
    (htx : tx < 64)
    (hlt : ∀ t, (r.arrays core).transactionBitmap.getMsbD t = true → t < tx) :
    (r.appendSlot core version tx).entries =
      insertEntry ((core * 64 + tx : Nat) : Int) version r.entries := by
  have hfresh : ∀ e ∈ r.entries, e.1 ≠ ((core * 64 + tx : Nat) : Int) := by
    rintro ⟨i, p⟩ hm he
    obtain ⟨c, t, _, ha, rfl⟩ := mem_entries.mp hm
    have hbit := getMsbD_of_mem_aligned ha
    have ht := lt_of_getMsbD hbit
    simp only [Nat.cast_inj] at he
    have hcc : c = core := by omega
    subst hcc
    have := hlt t hbit
    omega
  apply (entries_ascending _).ext ((entries_ascending r).insertEntry version hfresh)
  rintro ⟨i, p⟩
  rw [mem_insertEntry, mem_entries, mem_entries, appendSlot_arrays, appendSlot_core]
  constructor
  · rintro ⟨c, t, hc, hm, rfl⟩
    by_cases he : c = core
    · subst he
      rw [Function.update_self, append_aligned hw hb htx hlt, mem_insertEntry] at hm
      rcases hm with hm | hm
      · obtain ⟨rfl, rfl⟩ := Prod.mk.injEq _ _ _ _ ▸ hm
        exact Or.inl rfl
      · exact Or.inr ⟨c, t, hc, hm, rfl⟩
    · rw [Function.update_of_ne he] at hm
      exact Or.inr ⟨c, t, hc, hm, rfl⟩
  · rintro (he | ⟨c, t, hc, hm, rfl⟩)
    · obtain ⟨rfl, rfl⟩ := Prod.mk.injEq _ _ _ _ ▸ he
      refine ⟨core, tx, hb, ?_, rfl⟩
      rw [Function.update_self, append_aligned hw hb htx hlt, mem_insertEntry]
      exact Or.inl rfl
    · refine ⟨c, t, hc, ?_, rfl⟩
      by_cases he : c = core
      · subst he
        rw [Function.update_self, append_aligned hw hb htx hlt, mem_insertEntry]
        exact Or.inr hm
      · rw [Function.update_of_ne he]
        exact hm

theorem appendSlot_owned (hw : r.WellFormed) (hb : r.coreBitmap.getMsbD core = true) :
    (r.appendSlot core version tx).owned = r.owned + {version} := by
  have h := r.owned_update (lt_of_getMsbD hb) ((r.arrays core).append version tx) r.coreBitmap
  rw [append_slots hw hb, ← Multiset.coe_add, ← add_assoc,
    add_right_comm r.owned] at h
  exact add_right_cancel h

end AppendSlot

end RowRegion
end Mvdcc.Serval
