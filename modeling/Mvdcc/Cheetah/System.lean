import Mvdcc.Cheetah.WriteBitmap
import Mvdcc.Common.Workload
import Mvdcc.Library.Transition

namespace Mvdcc.Cheetah
open Library Bitmap

/-- One row: its `WriteBitmap`, its versions, and `pending_` of the reads of it,
by epoch and serial id. -/
structure Row where
  wBitmap : WriteBitmap
  heap : Heap
  pending : Nat → Nat → Option Ptr

namespace Row

def setPending (r : Row) (epoch serial : Nat) (pending : Option Ptr) : Row :=
  let ofEpoch := Function.update (r.pending epoch) serial pending
  { r with pending := Function.update r.pending epoch ofEpoch }

def setLock (r : Row) (lock : RWLock) : Row :=
  { r with wBitmap := { r.wBitmap with lock } }

def lock (r : Row) : Option Row := r.wBitmap.lock.lock.map r.setLock
def tryLock (r : Row) : Option Row := r.wBitmap.lock.tryLock.map r.setLock
def unlock (r : Row) : Row := r.setLock r.wBitmap.lock.unlock

def addRefCnt (r : Row) (n : Int) : Row :=
  { r with wBitmap := { r.wBitmap with refCnt := r.wBitmap.refCnt + n } }

/-- The locked section of `append_pending_version`: the placeholder with this id,
created if it does not exist. -/
def placeholder (r : Row) (position visibleId : Nat) : Ptr × Row :=
  match r.wBitmap.placeholders.find visibleId with
  | some v => (v, r)
  | none =>
    let (v, heap) := r.heap.createPendingVersion
    let placeholders := r.wBitmap.placeholders.emplace position visibleId v
    (v, { r with heap, wBitmap := { r.wBitmap with placeholders } })

/-- The locked section of `decrement_ref_cnt`: the final reader deletes the
previous master and all placeholders. -/
def closeReads (r : Row) : Row :=
  let heap := r.heap.deleteAll r.wBitmap.previousMaster.toList
  let heap := heap.deleteAll r.wBitmap.placeholders.values
  let wBitmap := { r.wBitmap with
    previousMaster := none, placeholders := .empty, refCnt := r.wBitmap.refCnt - 1 }
  { r with heap, wBitmap }

/-- The locked section of `identify_write_version`. -/
def identifyWriteVersion (r : Row) (core tx : Nat) : Option Ptr × Row :=
  let serialId := getSerialId core tx
  let found := r.wBitmap.placeholders.find serialId
  if r.wBitmap.isFinalState core tx then
    let (version, heap) := match found with
      | none => r.heap.createPendingVersion
      | some v => (v, r.heap)
    let placeholders := r.wBitmap.placeholders.erase serialId
    let (previousMaster, heap) :=
      if r.wBitmap.refCnt = 0 then
        (r.wBitmap.previousMaster, heap.deleteAll r.wBitmap.master.toList)
      else (r.wBitmap.master, heap)
    let wBitmap := { r.wBitmap with placeholders, previousMaster, master := some version }
    (some version,
      { r with heap, wBitmap := if wBitmap.coreBitmap ≠ 0 then wBitmap.clearBitmaps else wBitmap })
  else (found, r)

end Row

/-- Where a worker is inside one call. `start` is the entry of the call in each
phase, and in the execution phase the loop of a read that tests its version. -/
inductive Pc where
  | start
  | addOne | identify
  | lockPlaceholder (visibleId : Nat) | placeholder (visibleId : Nat)
  | unlockPlaceholder (version : Ptr)
  | fetch (visible : Ptr)
  | decrement (record : Option Rec)
  | lastLock (record : Option Rec) | lastBody (record : Option Rec)
  | lastUnlock (record : Option Rec)
  | returning (record : Option Rec)
  | identifyWrite
  | unlockWrite (version : Option Ptr)
  | storeRec (pending : Ptr) | storeStable (pending : Ptr)
  | done
  deriving DecidableEq

/-- One step of `append_pending_version` in the read phase: an atomic access, a
lock operation, or the body of a section that holds the lock. The bitmaps and the
master version do not change in this phase. -/
def readPhaseStep (position epoch core serial : Nat) (pc : Pc) (r : Row) : Option (Pc × Row) :=
  match pc with
  | .start => some (if r.wBitmap.refCnt = 0 then .addOne else .identify, r.addRefCnt 1)
  | .addOne => some (.identify, r.addRefCnt 1)
  | .identify =>
    if r.wBitmap.coreBitmap ≠ 0 then
      match r.wBitmap.identifyVisibleVersionInBitmaps core (getTxSerial serial) with
      | some (visibleCore, visibleTx) =>
        some (.lockPlaceholder (getSerialId visibleCore visibleTx), r)
      | none => some (.done, r.setPending epoch serial r.wBitmap.master)
    else some (.done, r.setPending epoch serial r.wBitmap.master)
  | .lockPlaceholder visibleId => r.lock.map (fun r => (.placeholder visibleId, r))
  | .placeholder visibleId =>
    let (v, r) := r.placeholder position visibleId
    some (.unlockPlaceholder v, r)
  | .unlockPlaceholder v => some (.done, r.unlock.setPending epoch serial (some v))
  | _ => none

/-- Taking the lock on the way to another place. -/
theorem Row.lock_step {r r' : Row} {pc pc' : Pc}
    (h : r.lock.map (fun r => (pc, r)) = some (pc', r')) :
    ∃ l, r.wBitmap.lock.tryLock = some l ∧ pc = pc' ∧ r.setLock l = r' := by
  simpa only [Row.lock, RWLock.lock, Option.map_map, Option.map_eq_some_iff, Function.comp_apply,
    Prod.mk.injEq] using h

/-- One step of `read` or `write` in the execution phase. A version that is still
pending is tested again. -/
def executionStep (epoch core serial : Nat) (ope : Ope) (pc : Pc) (r : Row) : Option (Pc × Row) :=
  match pc with
  | .start =>
    match ope with
    | .read =>
      match r.pending epoch serial with
      | some v => some (if (r.heap.version v).status = .pending then .start else .fetch v, r)
      | none => none
    | .update => r.lock.map (fun r => (.identifyWrite, r))
  | .fetch v => some (.decrement (r.heap.version v).record, r)
  | .decrement record =>
    let r := r.addRefCnt (-1)
    some (if r.wBitmap.refCnt = 1 then .lastLock record else .returning record, r)
  | .lastLock record => r.lock.map (fun r => (.lastBody record, r))
  | .lastBody record => some (.lastUnlock record, r.closeReads)
  | .lastUnlock record => some (.returning record, r.unlock)
  | .returning _ => some (.done, r)
  | .identifyWrite =>
    let (version, r) := r.identifyWriteVersion core (getTxSerial serial)
    some (.unlockWrite version, r)
  | .unlockWrite none => some (.done, r.unlock)
  | .unlockWrite (some p) => some (.storeRec p, r.unlock)
  | .storeRec p => some (.storeStable p, { r with heap := r.heap.storeRec p (.written epoch serial) })
  | .storeStable p => some (.done, { r with heap := r.heap.storeStable p })
  | _ => none

/-- Where a worker is inside `finalize_update_write_bitmaps`. -/
inductive FinalizePc (Key : Type u) where
  | scan
  | update (k : Key) (txBitmap : BitVec 64)
  | unlock (k : Key)
  deriving DecidableEq

/-- The write phase of one worker: `bitmaps_`, and the entries that the current
pass over it has not reached. -/
structure Marker (Key : Type u) where
  bitmaps : UnorderedMap Key (BitVec 64)
  pass : List (Key × BitVec 64)
  pc : FinalizePc Key
  deriving DecidableEq

/-- Nothing is left for `finalize_update_write_bitmaps` to do. -/
def Marker.idle : Marker Key := ⟨.empty, [], .scan⟩

inductive Phase where
  | write | read | execution
  deriving DecidableEq

structure State (Key : Type u) where
  epoch : Nat
  phase : Phase
  workers : Nat → Thread (Call Key) Pc
  markers : Nat → Marker Key
  rows : Key → Row

/-- A scheduler moves one of the 64 workers, or all of them through the barrier. A
key that is new to a hash map takes some place in its iteration order. -/
inductive Choice where
  | worker (w position : Nat)
  | barrier

section System
variable {Key : Type u}

/-- The calls of one of the 64 workers in a phase. -/
def program (wl : Workload Key) (phase : Phase) (epoch w : Nat) : List (Call Key) :=
  if w < 64 then
    match phase with
    | .write => sequentialCalls w (wl.wSet epoch)
    | .read => sequentialCalls w (wl.rSet epoch)
    | .execution => roundRobinCalls w (wl.rwSet epoch)
  else []

def State.enter (wl : Workload Key) (s : State Key) (phase : Phase) (epoch : Nat) : State Key :=
  { s with
    phase
    epoch
    workers := fun w => ⟨program wl phase epoch w, .start⟩ }

/-- One pointer: the version that `insert_into_index` stores in `master_`. -/
def loadedRow : Row where
  wBitmap := {
    refCnt := 0
    lock := {}
    coreBitmap := 0
    txBitmaps := []
    placeholders := .empty
    master := some 0
    previousMaster := none }
  heap := {
    version := fun _ => ⟨some (.loaded 0), .stable⟩
    next := 1
    reclaimed := [] }
  pending := fun _ _ => none

def initial (wl : Workload Key) : State Key where
  epoch := 1
  phase := .write
  workers := fun w => ⟨program wl .write 1 w, .start⟩
  markers := fun _ => .idle
  rows := fun _ => loadedRow

variable [DecidableEq Key]

/-- `update_write_bitmaps` touches nothing but the worker's own map. -/
def State.updateWriteBitmaps (s : State Key) (w position : Nat) (c : Call Key) : State Key :=
  let bitmaps := ((s.markers w).bitmaps.emplace position c.index 0).modify c.index
    (fun bitmap => setBitOfBitmapAtTheGivenLocation bitmap (getTxSerial c.serial))
  { s with
    workers := Function.update s.workers w { s.workers w with pc := .done }
    markers := Function.update s.markers w { s.markers w with bitmaps } }

/-- One step of `finalize_update_write_bitmaps`. A pass skips the rows whose
lock it does not get; passes follow one another until the map is empty. -/
def State.finalize (s : State Key) (w : Nat) : Option (State Key) :=
  let m := s.markers w
  match m.pc with
  | .scan =>
    match m.pass with
    | [] =>
      if m.bitmaps.isEmpty then none
      else some { s with markers := Function.update s.markers w { m with pass := m.bitmaps.entries } }
    | (k, txBitmap) :: rest =>
      match (s.rows k).tryLock with
      | none => some { s with markers := Function.update s.markers w { m with pass := rest } }
      | some row => some { s with
          markers := Function.update s.markers w { m with pass := rest, pc := .update k txBitmap }
          rows := Function.update s.rows k row }
  | .update k txBitmap =>
    let row := { s.rows k with wBitmap := (s.rows k).wBitmap.updateBitmap w txBitmap }
    some { s with
      markers := Function.update s.markers w { m with pc := .unlock k }
      rows := Function.update s.rows k row }
  | .unlock k => some { s with
      markers := Function.update s.markers w { m with bitmaps := m.bitmaps.erase k, pc := .scan }
      rows := Function.update s.rows k (s.rows k).unlock }

/-- `core_` is the worker in the read phase and `serial_id_ / 64` in the execution phase. -/
def callStep (s : State Key) (w position : Nat) (c : Call Key) (pc : Pc) (r : Row) :
    Option (Pc × Row) :=
  match s.phase with
  | .write => none
  | .read => readPhaseStep position s.epoch w c.serial pc r
  | .execution => executionStep s.epoch (getCoreSerial c.serial) c.serial c.operation.ope pc r

/-- The effect of one step inside a call on the row with key `k`. -/
def State.advance (s : State Key) (w : Nat) (k : Key) (pc : Pc) (r : Row) : State Key :=
  { s with
    workers := Function.update s.workers w { s.workers w with pc }
    rows := Function.update s.rows k r }

def State.return (s : State Key) (w : Nat) (rest : List (Call Key)) : State Key :=
  { s with workers := Function.update s.workers w ⟨rest, .start⟩ }

def step (wl : Workload Key) : Choice → State Key → Option (State Key)
  | .worker w position, s =>
    match (s.workers w).todo with
    | [] => if s.phase = .write then s.finalize w else none
    | c :: rest =>
      if (s.workers w).pc = .done then some (s.return w rest)
      else if s.phase = .write then some (s.updateWriteBitmaps w position c)
      else
        (callStep s w position c (s.workers w).pc (s.rows c.index)).map
          (fun (pc, r) => s.advance w c.index pc r)
  | .barrier, s =>
    if ∀ w < 64, (s.workers w).todo = [] ∧ s.markers w = .idle then
      some (match s.phase with
        | .write => s.enter wl .read s.epoch
        | .read => s.enter wl .execution s.epoch
        | .execution => s.enter wl .write (s.epoch + 1))
    else none

def system (wl : Workload Key) : TransitionSystem (State Key) Choice :=
  ⟨step wl⟩

/-- States of whole runs, over any number of epochs. -/
def Reachable (wl : Workload Key) (s : State Key) : Prop :=
  (system wl).Reachable (· = initial wl) s

end System
end Mvdcc.Cheetah
