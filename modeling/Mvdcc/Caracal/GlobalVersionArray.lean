import Mathlib.Data.Nat.Bitwise
import Mvdcc.Common.RWLock
import Mvdcc.Common.Version
import Mvdcc.Library.Ascending

namespace Mvdcc.Caracal
open Library

/-- The epoch in the upper half of a 64-bit word, the serial id in the lower. -/
def convertToSerialIdWithEpoch (epoch serialId : Nat) : Nat :=
  (epoch <<< 32) % 2 ^ 64 ||| serialId

theorem convert_eq {epoch serialId : Nat} (he : epoch < 2 ^ 32) (hs : serialId < 2 ^ 32) :
    convertToSerialIdWithEpoch epoch serialId = epoch * 2 ^ 32 + serialId := by
  have hlt : epoch <<< 32 < 2 ^ 64 := by
    rw [Nat.shiftLeft_eq]
    omega
  rw [convertToSerialIdWithEpoch, Nat.mod_eq_of_lt hlt, ← Nat.shiftLeft_add_eq_or_of_lt hs,
    Nat.shiftLeft_eq]

/-- Whatever is left of the epoch in the upper half, the serial id is added to it. -/
theorem convert_add {epoch serialId : Nat} (hs : serialId < 2 ^ 32) :
    convertToSerialIdWithEpoch epoch serialId = convertToSerialIdWithEpoch epoch 0 + serialId := by
  have hupper : (epoch <<< 32) % 2 ^ 64 = (epoch % 2 ^ 32) <<< 32 := by
    rw [Nat.shiftLeft_eq, Nat.shiftLeft_eq, show (2 : Nat) ^ 64 = 2 ^ 32 * 2 ^ 32 from rfl,
      Nat.mul_mod_mul_right]
  unfold convertToSerialIdWithEpoch
  rw [hupper, ← Nat.shiftLeft_add_eq_or_of_lt hs, Nat.or_zero]

/-- The packed ids order as the pairs of epoch and serial id do. -/
theorem convert_lt {epoch serialId epoch' serialId' : Nat} (he : epoch < 2 ^ 32)
    (hs : serialId < 2 ^ 32) (he' : epoch' < 2 ^ 32) (hs' : serialId' < 2 ^ 32) :
    convertToSerialIdWithEpoch epoch serialId < convertToSerialIdWithEpoch epoch' serialId' ↔
      epoch < epoch' ∨ epoch = epoch' ∧ serialId < serialId' := by
  rw [convert_eq he hs, convert_eq he' hs']
  omega

/-- Ids of an epoch start at the id of its first transaction. -/
theorem convert_start_le {epoch epoch' serialId : Nat} (hle : epoch ≤ epoch')
    (he' : epoch' < 2 ^ 32) (hs : serialId < 2 ^ 32) :
    convertToSerialIdWithEpoch epoch 0 ≤ convertToSerialIdWithEpoch epoch' serialId := by
  rw [convert_eq (Nat.lt_of_le_of_lt hle he') (by decide), convert_eq he' hs]
  omega

/-- `ids_slots_` of one core's slice of a row buffer. -/
structure PerCoreBuffer where
  idsSlots : List (Nat × Ptr)

namespace PerCoreBuffer

/-- Returns whether the buffer still has room after the insertion. -/
def appendable (maxSlots : Nat) (b : PerCoreBuffer) (version : Ptr) (epoch serialId : Nat) :
    Bool × PerCoreBuffer :=
  let globalId := convertToSerialIdWithEpoch epoch serialId
  let idsSlots := insertEntry globalId version b.idsSlots
  (decide (idsSlots.length < maxSlots), ⟨idsSlots⟩)

def clearSlots (_b : PerCoreBuffer) : PerCoreBuffer := ⟨[]⟩

end PerCoreBuffer

/-- The versions of a row under their packed ids, in ascending order. -/
structure GlobalVersionArray where
  rwl : RWLock
  idsSlots : List (Nat × Ptr)

namespace GlobalVersionArray

/-- Stepping back from the first entry stands for no pair. -/
def searchVisibleVersion (g : GlobalVersionArray) (epoch serialId : Nat) : Option (Nat × Ptr) :=
  let globalId := convertToSerialIdWithEpoch epoch serialId
  let it := g.idsSlots.findIdx (fun pair => decide (globalId ≤ pair.1))
  if it = 0 then none else g.idsSlots[it - 1]?

def appendWithNoGc (g : GlobalVersionArray) (serialIdWithEpoch : Nat) (version : Ptr) :
    GlobalVersionArray :=
  { g with idsSlots := insertEntry serialIdWithEpoch version g.idsSlots }

/-- The loop of `minor_gc`: the first entry goes while the second is still below the epoch. -/
def minorGcLoop (serialIdWithEpoch : Nat) : List (Nat × Ptr) → Heap → List (Nat × Ptr) × Heap
  | itr :: next :: rest, heap =>
    if serialIdWithEpoch ≤ next.1 then (itr :: next :: rest, heap)
    else minorGcLoop serialIdWithEpoch (next :: rest) (heap.delete itr.2)
  | slots, heap => (slots, heap)

def minorGc (g : GlobalVersionArray) (epoch : Nat) (heap : Heap) : GlobalVersionArray × Heap :=
  let (idsSlots, heap) := minorGcLoop (convertToSerialIdWithEpoch epoch 0) g.idsSlots heap
  ({ g with idsSlots }, heap)

def appendWithGc (g : GlobalVersionArray) (epoch serialId : Nat) (version : Ptr) (heap : Heap) :
    GlobalVersionArray × Heap :=
  let (g, heap) := g.minorGc epoch heap
  (g.appendWithNoGc (convertToSerialIdWithEpoch epoch serialId) version, heap)

/-- Moves the buffer's entries over and clears it. -/
def batchAppend (g : GlobalVersionArray) (buffer : PerCoreBuffer) (curEpoch : Nat) (heap : Heap) :
    GlobalVersionArray × PerCoreBuffer × Heap :=
  let (g, heap) := g.minorGc curEpoch heap
  (buffer.idsSlots.foldl (fun g e => g.appendWithNoGc e.1 e.2) g, buffer.clearSlots, heap)

theorem foldl_appendWithNoGc (es : List (Nat × Ptr)) (g : GlobalVersionArray) :
    es.foldl (fun g e => g.appendWithNoGc e.1 e.2) g =
      { g with idsSlots := insertAll es g.idsSlots } := by
  induction es generalizing g with
  | nil => rfl
  | cons e es ih =>
    rw [List.foldl_cons, ih]
    rfl

/-- Collection, then the buffer's entries. -/
theorem batchAppend_eq (g : GlobalVersionArray) (buffer : PerCoreBuffer) (epoch : Nat)
    (heap : Heap) : g.batchAppend buffer epoch heap =
      (⟨g.rwl, insertAll buffer.idsSlots (g.minorGc epoch heap).1.idsSlots⟩, ⟨[]⟩,
        (g.minorGc epoch heap).2) := by
  unfold batchAppend
  simp only [foldl_appendWithNoGc]
  rfl

section Search
variable {g : GlobalVersionArray} {epoch serialId : Nat}

theorem search_eq (h : Ascending g.idsSlots) {first : Nat × Ptr} (hfirst : first ∈ g.idsSlots)
    (hlt : first.1 < convertToSerialIdWithEpoch epoch serialId) :
    g.searchVisibleVersion epoch serialId =
      entryBelow (convertToSerialIdWithEpoch epoch serialId) g.idsSlots := by
  cases hslots : g.idsSlots with
  | nil =>
    rw [hslots] at hfirst
    cases hfirst
  | cons head rest =>
    rw [hslots] at h hfirst
    have hhead : head.1 ≤ first.1 := by
      rcases List.mem_cons.mp hfirst with rfl | hm
      · exact Nat.le_refl _
      · exact Nat.le_of_lt ((List.pairwise_cons.mp h).1 first hm)
    have hpos : 0 < (head :: rest).findIdx
        (fun pair => decide (convertToSerialIdWithEpoch epoch serialId ≤ pair.1)) := by
      have hn : ¬ convertToSerialIdWithEpoch epoch serialId ≤ head.1 := by omega
      simp [List.findIdx_cons, hn]
    unfold searchVisibleVersion
    simp only [hslots]
    rw [if_neg (by omega), h.getElem_findIdx _ hpos]

end Search

section MinorGc
variable {bound : Nat} {removed rest : List (Nat × Ptr)} {last : Nat × Ptr} {heap : Heap}

/-- Ascending entries that begin below the bound: those before the last one below
it, that one, and those from the bound on. -/
theorem split_at_bound {slots : List (Nat × Ptr)} (h : Ascending slots) {first : Nat × Ptr}
    (hfirst : slots.head? = some first) (hlt : first.1 < bound) :
    ∃ removed last rest, slots = removed ++ last :: rest ∧ (∀ e ∈ removed, e.1 < bound) ∧
      last.1 < bound ∧ ∀ e ∈ rest, bound ≤ e.1 := by
  induction slots generalizing first with
  | nil => cases hfirst
  | cons head slots ih =>
    rw [List.head?_cons, Option.some.injEq] at hfirst
    subst hfirst
    obtain ⟨hbelow, hslots⟩ := List.pairwise_cons.mp h
    cases hs : slots with
    | nil => exact ⟨[], head, [], rfl, by simp, hlt, by simp⟩
    | cons next tail =>
      by_cases hnext : next.1 < bound
      · obtain ⟨removed, last, rest, hsplit, hremoved, hlast, hrest⟩ :=
          ih hslots (by rw [hs]; rfl) hnext
        refine ⟨head :: removed, last, rest, ?_, ?_, hlast, hrest⟩
        · rw [← hs, hsplit, List.cons_append]
        · intro e he
          rcases List.mem_cons.mp he with rfl | he
          · exact hlt
          · exact hremoved e he
      · refine ⟨[], head, next :: tail, rfl, by simp, hlt, ?_⟩
        intro e he
        rw [hs] at hslots
        rcases List.mem_cons.mp he with rfl | he
        · exact Nat.not_lt.mp hnext
        · have := (List.pairwise_cons.mp hslots).1 e he
          omega

theorem minorGcLoop_eq (hremoved : ∀ e ∈ removed, e.1 < bound) (hlast : last.1 < bound)
    (hrest : ∀ e ∈ rest, bound ≤ e.1) :
    minorGcLoop bound (removed ++ last :: rest) heap =
      (last :: rest, heap.deleteAll (removed.map Prod.snd)) := by
  induction removed generalizing heap with
  | nil =>
    cases rest with
    | nil => rfl
    | cons next rest =>
      rw [List.nil_append, minorGcLoop, if_pos (hrest next List.mem_cons_self)]
      rfl
  | cons itr removed ih =>
    have hrec : minorGcLoop bound (removed ++ last :: rest) (heap.delete itr.2) =
        (last :: rest, (heap.delete itr.2).deleteAll (removed.map Prod.snd)) :=
      ih (fun e he => hremoved e (List.mem_cons_of_mem _ he))
    cases removed with
    | nil =>
      rw [List.cons_append, List.nil_append, minorGcLoop, if_neg (by omega)]
      exact hrec
    | cons next removed =>
      have hnext := hremoved next (by simp)
      rw [List.cons_append, List.cons_append, minorGcLoop, if_neg (by omega)]
      exact hrec

theorem minorGc_eq {g : GlobalVersionArray} {epoch : Nat}
    (hslots : g.idsSlots = removed ++ last :: rest)
    (hremoved : ∀ e ∈ removed, e.1 < convertToSerialIdWithEpoch epoch 0)
    (hlast : last.1 < convertToSerialIdWithEpoch epoch 0)
    (hrest : ∀ e ∈ rest, convertToSerialIdWithEpoch epoch 0 ≤ e.1) :
    g.minorGc epoch heap =
      ({ g with idsSlots := last :: rest }, heap.deleteAll (removed.map Prod.snd)) := by
  unfold minorGc
  rw [hslots, minorGcLoop_eq hremoved hlast hrest]

end MinorGc

section Exact
variable {g : GlobalVersionArray} {epoch : Nat} {heap : Heap} {first : Nat × Ptr}

/-- What `minor_gc` has kept and reclaimed. -/
def KeepsLast (g : GlobalVersionArray) (epoch : Nat) (heap : Heap) (g' : GlobalVersionArray)
    (heap' : Heap) : Prop :=
  ∃ removed last rest, g.idsSlots = removed ++ last :: rest ∧
    last.1 < convertToSerialIdWithEpoch epoch 0 ∧
    (∀ e ∈ rest, convertToSerialIdWithEpoch epoch 0 ≤ e.1) ∧
    g' = { g with idsSlots := last :: rest } ∧ heap' = heap.deleteAll (removed.map Prod.snd)

/-- Collection keeps the last version of the previous epochs and all of this one: no
later reader can tell, a second collection finds nothing, and new versions may be
appended before or after it. -/
theorem minorGc_exact (h : Ascending g.idsSlots)
    (hfirst : g.idsSlots.head? = some first)
    (hlt : first.1 < convertToSerialIdWithEpoch epoch 0) :
    KeepsLast g epoch heap (g.minorGc epoch heap).1 (g.minorGc epoch heap).2 ∧
    (∀ epoch' serialId, epoch ≤ epoch' → epoch' < 2 ^ 32 → serialId < 2 ^ 32 →
      ∃ pair, g.searchVisibleVersion epoch' serialId = some pair ∧
        (g.minorGc epoch heap).1.searchVisibleVersion epoch' serialId = some pair) ∧
    (g.minorGc epoch heap).1.minorGc epoch (g.minorGc epoch heap).2 = g.minorGc epoch heap ∧
    (∀ id version, convertToSerialIdWithEpoch epoch 0 ≤ id →
      (g.appendWithNoGc id version).minorGc epoch heap =
        ((g.minorGc epoch heap).1.appendWithNoGc id version, (g.minorGc epoch heap).2)) := by
  obtain ⟨removed, last, rest, hslots, hremoved, hlast, hrest⟩ := split_at_bound h hfirst hlt
  have hgc : g.minorGc epoch heap =
      ({ g with idsSlots := last :: rest }, heap.deleteAll (removed.map Prod.snd)) :=
    minorGc_eq hslots hremoved hlast hrest
  rw [hgc]
  refine ⟨⟨removed, last, rest, hslots, hlast, hrest, rfl, rfl⟩, ?_, ?_, ?_⟩
  · intro epoch' serialId hle he' hs
    have hbound : last.1 < convertToSerialIdWithEpoch epoch' serialId :=
      Nat.lt_of_lt_of_le hlast (convert_start_le hle he' hs)
    have hmem : last ∈ last :: rest := List.mem_cons_self
    have hmem' : last ∈ g.idsSlots := by
      rw [hslots]
      exact List.mem_append_right _ hmem
    have hasc : Ascending (last :: rest) := by
      rw [hslots] at h
      exact (List.pairwise_append.mp h).2.1
    rw [search_eq h hmem' hbound,
      search_eq (g := { g with idsSlots := last :: rest }) hasc hmem hbound, hslots,
      entryBelow_append removed hmem hbound]
    cases hb : entryBelow (convertToSerialIdWithEpoch epoch' serialId) (last :: rest) with
    | none =>
      have := entryBelow_eq_none.mp hb last hmem
      omega
    | some pair => exact ⟨pair, rfl, rfl⟩
  · have hsplit : ({ g with idsSlots := last :: rest } : GlobalVersionArray).idsSlots =
        [] ++ last :: rest := rfl
    exact minorGc_eq hsplit (by simp) hlast hrest
  · intro id version hid
    have hbelow : ∀ e ∈ removed ++ [last], e.1 ≤ id := by
      intro e hm
      rcases List.mem_append.mp hm with hm | hm
      · exact Nat.le_trans (Nat.le_of_lt (hremoved e hm)) hid
      · rw [List.mem_singleton.mp hm]
        exact Nat.le_trans (Nat.le_of_lt hlast) hid
    have hins : insertEntry id version (removed ++ last :: rest) =
        removed ++ last :: insertEntry id version rest := by
      have := insertEntry_append version hbelow rest
      simpa using this
    have hrest' : ∀ e ∈ insertEntry id version rest,
        convertToSerialIdWithEpoch epoch 0 ≤ e.1 := by
      intro e hm
      rcases mem_insertEntry.mp hm with rfl | hm
      · exact hid
      · exact hrest e hm
    have happend : (g.appendWithNoGc id version).idsSlots =
        removed ++ last :: insertEntry id version rest := by
      rw [appendWithNoGc, hslots, hins]
    rw [minorGc_eq happend hremoved hlast hrest']
    have hins' : insertEntry id version (last :: rest) = last :: insertEntry id version rest :=
      insertEntry_append (l := [last]) version
        (fun e he => hbelow e (List.mem_append_right _ he)) rest
    rw [appendWithNoGc, appendWithNoGc, hins']

end Exact

/-- A row at the start of its third epoch, with two versions of the first, one of the
second and one of the third. -/
def threeEpochs : GlobalVersionArray where
  rwl := {}
  idsSlots := [(2 ^ 32, 0), (2 ^ 32 + 5, 1), (2 * 2 ^ 32, 2), (3 * 2 ^ 32, 3)]

def fourVersions : Heap where
  version := fun _ => ⟨some (.loaded 0), .stable⟩
  next := 4
  reclaimed := []

theorem minorGc_threeEpochs :
    let g := threeEpochs
    let heap := fourVersions
    KeepsLast g 3 heap (g.minorGc 3 heap).1 (g.minorGc 3 heap).2 ∧
    (∀ epoch' serialId, 3 ≤ epoch' → epoch' < 2 ^ 32 → serialId < 2 ^ 32 →
      ∃ pair, g.searchVisibleVersion epoch' serialId = some pair ∧
        (g.minorGc 3 heap).1.searchVisibleVersion epoch' serialId = some pair) ∧
    (g.minorGc 3 heap).1.minorGc 3 (g.minorGc 3 heap).2 = g.minorGc 3 heap ∧
    (∀ id version, convertToSerialIdWithEpoch 3 0 ≤ id →
      (g.appendWithNoGc id version).minorGc 3 heap =
        ((g.minorGc 3 heap).1.appendWithNoGc id version, (g.minorGc 3 heap).2)) :=
  minorGc_exact (g := threeEpochs) (by unfold Ascending; decide) rfl (by decide)

end GlobalVersionArray
end Mvdcc.Caracal
