import Mathlib.Algebra.Order.Group.Multiset
import Mathlib.Tactic.Abel
import Mvdcc.Cheetah.System

namespace Mvdcc.Cheetah
open Library Bitmap

section Row
variable (row : Row)

/-- Every version the row still points to. -/
def live : Multiset Ptr :=
  (row.wBitmap.master.toList : Multiset Ptr) + (row.wBitmap.previousMaster.toList : Multiset Ptr) +
    (row.wBitmap.placeholders.values : Multiset Ptr)

/-- Every version ever created is reclaimed or in exactly one place of the row. -/
structure Kept : Prop where
  places : (row.heap.freed : Multiset Ptr) + live row = Multiset.range row.heap.next
  clean : row.heap.CleanLog

/-- No read refers to the row, and its master version shows the latest write. -/
structure Resting (latest : Option Stamp) : Prop where
  kept : Kept row
  refCnt : row.wBitmap.refCnt = 0
  placeholders : row.wBitmap.placeholders = .empty
  previous : row.wBitmap.previousMaster = none
  master : ∃ m, row.wBitmap.master = some m ∧ row.heap.version m = ⟨some (recOf latest), .stable⟩

/-- A row between two epochs. -/
structure Quiet (latest : Option Stamp) : Prop extends Resting row latest where
  coreBitmap : row.wBitmap.coreBitmap = 0
  txBitmaps : row.wBitmap.txBitmaps = []

end Row

section Phases
variable (W R : List Nat) (e : Nat) (row : Row)

/-- A row in the write phase. A core that has marked it has recorded all its
writers; of any other, the worker's own map has those it has been through. -/
structure Marking (latest : Option Stamp) (bits : Nat → BitVec 64) (pcs : Nat → Pc) : Prop where
  resting : Resting row latest
  packed : row.wBitmap.Packed
  marked : ∀ serial, row.wBitmap.coreBitmap.getMsbD (getCoreSerial serial) = true →
    (row.wBitmap.Records serial ↔ serial ∈ W)
  unmarked : ∀ serial, row.wBitmap.coreBitmap.getMsbD (getCoreSerial serial) = false →
    ((bits (getCoreSerial serial)).getMsbD (getTxSerial serial) = true ↔
      serial ∈ W ∧ pcs serial = .done)

def Pc.begun : Pc → Bool
  | .start => false
  | _ => true

def Pc.adding : Pc → Bool
  | .addOne => true
  | _ => false

/-- The first reader adds one for all of them, a step after its own. -/
def Counted (refCnt : Int) (begun adding : Nat) : Prop :=
  adding ≤ begun ∧ refCnt + adding = begun + if begun = 0 then 0 else 1

/-- What a reader in the read phase has at hand. -/
def ResolverOk (serial : Nat) : Pc → Prop
  | .start | .addOne | .identify => True
  | .lockPlaceholder w | .placeholder w => greatestBelow serial W = some w
  | .unlockPlaceholder v => ∃ w, greatestBelow serial W = some w ∧
      row.wBitmap.placeholders.find w = some v
  | .done =>
    match greatestBelow serial W with
    | some w => ∃ v, row.pending e serial = some v ∧ row.wBitmap.placeholders.find w = some v
    | none => row.pending e serial = row.wBitmap.master
  | _ => False

/-- A placeholder waits for its writer, and some reader put it there. -/
def PlaceholderOk (pcs : Nat → Pc) (w : Nat) (v : Ptr) : Prop :=
  row.heap.version v = ⟨none, .pending⟩ ∧ ∃ s ∈ R, greatestBelow s W = some w ∧
    (pcs s = .unlockPlaceholder v ∨ (pcs s = .done ∧ row.pending e s = some v))

/-- A row in the read phase. -/
structure Resolving (latest : Option Stamp) (pcs : Nat → Pc) : Prop where
  kept : Kept row
  marked : row.wBitmap.Marked W
  previous : row.wBitmap.previousMaster = none
  master : ∃ m, row.wBitmap.master = some m ∧ row.heap.version m = ⟨some (recOf latest), .stable⟩
  counted : Counted row.wBitmap.refCnt (tally Pc.begun R pcs) (tally Pc.adding R pcs)
  placeholders : ∀ w v, row.wBitmap.placeholders.find w = some v → PlaceholderOk W R e row pcs w v
  readers : ∀ s ∈ R, ResolverOk W e row s (pcs s)

/-- Readers of the epoch have resolved to this version of this writer. -/
def Resolved (w : Nat) (v : Ptr) : Prop :=
  ∃ s ∈ R, greatestBelow s W = some w ∧ row.pending e s = some v

/-- What the read phase leaves behind: one version for each writer that is read,
and the master version of before the epoch for all other reads. -/
structure Assigned (latest : Option Stamp) (m : Ptr) : Prop where
  targets : ∀ s ∈ R, match greatestBelow s W with
    | some _ => ∃ v, row.pending e s = some v
    | none => row.pending e s = some m
  injective : ∀ w w' v, Resolved W R e row w v → Resolved W R e row w' v → w = w'
  functional : ∀ w v v', Resolved W R e row w v → Resolved W R e row w v' → v = v'
  apart : ∀ w v, Resolved W R e row w v → v < row.heap.next ∧ v ≠ m
  old : m < row.heap.next ∧ row.heap.version m = ⟨some (recOf latest), .stable⟩

def Pc.written : Pc → Bool
  | .start | .identifyWrite => false
  | _ => true

/-- The final writer has been through its locked section. -/
def finalized (wp : Nat → Pc) : Bool :=
  match W.getLast? with
  | some f => (wp f).written
  | none => false

def Pc.reading : Pc → Bool
  | .start | .fetch _ | .decrement _ => true
  | _ => false

def Pc.closing : Pc → Bool
  | .lastLock _ | .lastBody _ => true
  | _ => false

/-- The count is that of the reads that hold a reference, and one more until the
final reader's section. -/
def Held (refCnt : Int) (reading closing : Nat) : Prop :=
  (0 < reading ∧ closing = 0 ∧ refCnt = reading + 1) ∨
    (reading = 0 ∧ closing = 1 ∧ refCnt = 1) ∨ (reading = 0 ∧ closing = 0 ∧ refCnt = 0)

/-- Before the final writer's section. -/
structure Unfinalized (m : Ptr) : Prop where
  marked : row.wBitmap.Marked W
  master : row.wBitmap.master = some m
  previous : row.wBitmap.previousMaster = none

/-- After it: the bitmaps are clear, and the version of before the epoch is kept
for as long as the row has reads to serve. -/
structure Finalized (m : Ptr) : Prop where
  coreBitmap : row.wBitmap.coreBitmap = 0
  txBitmaps : row.wBitmap.txBitmaps = []
  previous : row.wBitmap.previousMaster = if row.wBitmap.refCnt = 0 then none else some m
  master : ∃ p, row.wBitmap.master = some p ∧ p ≠ m ∧
    (∀ w, Resolved W R e row w p → W.getLast? = some w) ∧
    ∀ w v, W.getLast? = some w → Resolved W R e row w v → v = p

/-- The version a write must fill, if there is one. -/
def Owns (wp : Nat → Pc) (w : Nat) (p : Ptr) : Prop :=
  Resolved W R e row w p ∨
    (finalized W wp = true ∧ W.getLast? = some w ∧ row.wBitmap.master = some p)

/-- What a writer in the execution phase has done to its version. -/
def WriterOk (wp : Nat → Pc) (w : Nat) : Pc → Prop
  | .start | .identifyWrite => ∀ p, Owns W R e row wp w p → row.heap.version p = ⟨none, .pending⟩
  | .unlockWrite none => ∀ p, ¬ Owns W R e row wp w p
  | .unlockWrite (some p) | .storeRec p =>
    Owns W R e row wp w p ∧ row.heap.version p = ⟨none, .pending⟩
  | .storeStable p =>
    Owns W R e row wp w p ∧ row.heap.version p = ⟨some (.written e w), .pending⟩
  | .done => ∀ p, Owns W R e row wp w p → row.heap.version p = ⟨some (.written e w), .stable⟩
  | _ => False

/-- What a reader in the execution phase has seen of its version. -/
def ReaderOk (serial : Nat) : Pc → Prop
  | .start => True
  | .fetch v => row.pending e serial = some v ∧ (row.heap.version v).status = .stable
  | .decrement r | .lastLock r | .lastBody r | .lastUnlock r | .returning r =>
    ∃ v, row.pending e serial = some v ∧ (row.heap.version v).status = .stable ∧
      r = (row.heap.version v).record
  | .done => ∃ v, row.pending e serial = some v ∧ (row.heap.version v).status = .stable
  | _ => False

/-- A row in the execution phase; `m` was its master version before. -/
structure Executing (latest : Option Stamp) (m : Ptr) (wp rp : Nat → Pc) : Prop where
  kept : Kept row
  assigned : Assigned W R e row latest m
  held : Held row.wBitmap.refCnt (tally Pc.reading R rp) (tally Pc.closing R rp)
  before : finalized W wp = false → Unfinalized W row m
  after : finalized W wp = true → Finalized W R e row m
  placeholders : ∀ w v, row.wBitmap.placeholders.find w = some v ↔
    row.wBitmap.refCnt ≠ 0 ∧ Resolved W R e row w v ∧
      ¬ (finalized W wp = true ∧ W.getLast? = some w)
  writers : ∀ w ∈ W, WriterOk W R e row wp w (wp w)
  readers : ∀ s ∈ R, ReaderOk e row s (rp s)

end Phases

section Kept
variable {row : Row} {p : Ptr}

theorem mem_live : p ∈ live row ↔ row.wBitmap.master = some p ∨
    row.wBitmap.previousMaster = some p ∨ ∃ w, row.wBitmap.placeholders.find w = some p := by
  simp [live, UnorderedMap.mem_values, UnorderedMap.find_eq_some]

theorem Kept.of_eq {row' : Row} (h : Kept row) (hh : row'.heap = row.heap)
    (hl : live row' = live row) : Kept row' := by
  refine ⟨?_, ?_⟩
  · rw [hh, hl]
    exact h.places
  · rw [hh]
    exact h.clean

theorem Kept.nodup (h : Kept row) : ((row.heap.freed : Multiset Ptr) + live row).Nodup := by
  rw [h.places]
  exact Multiset.nodup_range _

theorem Kept.lt_next (h : Kept row) (hp : p ∈ live row) : p < row.heap.next := by
  rw [← Multiset.mem_range, ← h.places]
  exact Multiset.mem_add.mpr (Or.inr hp)

/-- A version that was created is live or has been reclaimed, never both. -/
theorem Kept.freed_iff (h : Kept row) (hp : p < row.heap.next) :
    p ∈ row.heap.freed ↔ p ∉ live row := by
  have hd := (Multiset.nodup_add.mp h.nodup).2.2
  constructor
  · exact fun hf hl => Multiset.disjoint_left.mp hd hf hl
  · intro hn
    rw [← Multiset.mem_range, ← h.places, Multiset.mem_add] at hp
    exact Multiset.mem_coe.mp (hp.resolve_right hn)

theorem Kept.freed_nodup (h : Kept row) : row.heap.freed.Nodup :=
  Multiset.coe_nodup.mp (Multiset.nodup_add.mp h.nodup).1

end Kept
end Mvdcc.Cheetah
