import Mvdcc.Common.RWLock
import Mvdcc.Common.Workload
import Mvdcc.Library.Transition
import Mvdcc.Serval.VersionArrays

namespace Mvdcc.Serval
open Library

structure Value where
  rwl : RWLock
  epoch : Nat
  master : Option Ptr
  globalArray : GlobalVersionArray
  rowRegion : Option Nat

/-- One row: its `Value`, its versions, and `pending_` of the operations on it,
by epoch and serial id. -/
structure Row where
  value : Value
  heap : Heap
  pending : Nat → Nat → Option Ptr

/-- What a call on one row can reach. -/
structure Memory extends Row where
  controller : RowRegionController

namespace Memory

def setPending (m : Memory) (epoch serial : Nat) (version : Ptr) : Memory :=
  let ofEpoch := Function.update (m.pending epoch) serial (some version)
  { m with pending := Function.update m.pending epoch ofEpoch }

def unlock (m : Memory) : Memory :=
  { m with value := { m.value with rwl := m.value.rwl.unlock } }

def hasDirtyRegion (m : Memory) : Bool :=
  match m.value.rowRegion with
  | some region => (m.controller.regions region).isDirty
  | none => false

def gcMasterVersion (m : Memory) (latest : Option Ptr) : Memory :=
  { m with
    heap := m.heap.deleteAll m.value.master.toList
    value := { m.value with master := latest } }

/-- Step 1 of `initialize_the_row`: the final state of the previous writing
epoch becomes the master version. -/
def storeFinalState (m : Memory) : Memory :=
  if m.value.globalArray.isDirty then
    let (last, globalArray) := m.value.globalArray.popFinalState
    let (globalArray, heap) := globalArray.gc m.heap
    gcMasterVersion { m with heap, value := { m.value with globalArray } } (last.map Prod.snd)
  else
    match m.value.rowRegion with
    | some region =>
      if (m.controller.regions region).isDirty then
        let (last, popped) := (m.controller.regions region).popFinalState
        let controller := m.controller.setRegion region popped.initializeCoreBitmap
        gcMasterVersion { m with controller } last.2
      else m
    | none => m

def initializeTheRow (m : Memory) (epoch : Nat) : Memory :=
  let m := m.storeFinalState
  { m with value := { m.value with epoch } }

/-- The version `Serval::read` chooses, and whether it waits for it to be stable. -/
def readVisible (m : Memory) (epoch core serial : Nat) : Option Ptr × Bool :=
  if m.value.epoch ≠ epoch then (m.value.master, false)
  else if m.value.globalArray.isDirty then
    match m.value.globalArray.searchVisibleVersion serial with
    | some (_, v) => (some v, true)
    | none => (m.value.master, false)
  else
    match m.value.rowRegion with
    | some region =>
      if (m.controller.regions region).isDirty then
        match (m.controller.regions region).identifyVisibleVersion core (getTxSerial serial) with
        | some (c, tx) => (((m.controller.regions region).arrays c).get tx, true)
        | none => (m.value.master, false)
      else (m.value.master, false)
    | none => (m.value.master, false)

end Memory

/-- Where a worker is inside one call. `start` is the loop head of `epoch_guard`
in the initialization phase, and the entry of `read` or `write` in the
execution phase. -/
inductive Pc where
  | start
  | guardTryLock | guardLocked | guardUnlock
  | tryLock | locked | unlock
  | waitRegion | waitTryLock | waitLocked
  | waitUnlock (region : Nat)
  | contended (region : Nat)
  | firstWrite (region : Nat) (version : Ptr)
  | appendSlot (region : Nat) (version : Ptr)
  | waitStable (visible : Ptr)
  | fetch (visible : Ptr)
  | returning (record : Option Rec)
  | storeStable (pending : Ptr)
  | done
  deriving DecidableEq

/-- One step of `do_append_pending_version`: a lock operation, an atomic access,
or the body of a section that holds the row lock. -/
def appendStep (numRegions epoch core serial : Nat) (pc : Pc) (m : Memory) :
    Option (Pc × Memory) :=
  match pc with
  | .start => some (if m.value.epoch < epoch then .guardTryLock else .tryLock, m)
  | .guardTryLock =>
    match m.value.rwl.tryLock with
    | some rwl => some (.guardLocked, { m with value := { m.value with rwl } })
    | none => some (.start, m)
  | .guardLocked =>
    some (.guardUnlock, if m.value.epoch < epoch then m.initializeTheRow epoch else m)
  | .guardUnlock => some (.tryLock, m.unlock)
  | .tryLock =>
    match m.value.rwl.tryLock with
    | some rwl => some (.locked, { m with value := { m.value with rwl } })
    | none => some (.waitRegion, m)
  | .locked =>
    let (version, heap) := m.heap.createPendingVersion
    match m.value.rowRegion with
    | some region =>
      let (appended, heap) :=
        (m.controller.regions region).append core version (getTxSerial serial) heap
      let m := { m with heap, controller := m.controller.setRegion region appended }
      some (.unlock, m.setPending epoch serial version)
    | none =>
      let globalArray := m.value.globalArray.append version serial
      let m := { m with heap, value := { m.value with globalArray } }
      some (.unlock, m.setPending epoch serial version)
  | .unlock => some (.done, m.unlock)
  | .waitRegion =>
    match m.value.rowRegion with
    | some region => some (.contended region, m)
    | none => some (.waitTryLock, m)
  | .waitTryLock =>
    match m.value.rwl.tryLock with
    | some rwl => some (.waitLocked, { m with value := { m.value with rwl } })
    | none => some (.waitRegion, m)
  | .waitLocked =>
    match m.value.rowRegion with
    | some region => some (.waitUnlock region, m)
    | none =>
      match m.controller.fetchNewRegion numRegions with
      | none => none
      | some (region, controller) =>
        let (globalArray, moved, heap) :=
          moveGlobalArrayToRowRegion m.value.globalArray (controller.regions region) m.heap
        let value := { m.value with globalArray, rowRegion := some region }
        let controller := controller.setRegion region moved
        some (.waitUnlock region, { m with heap, value, controller })
  | .waitUnlock region => some (.contended region, m.unlock)
  | .contended region =>
    let (version, heap) := m.heap.createPendingVersion
    some (if (m.controller.regions region).isFirstWrite core then .firstWrite region version
      else .appendSlot region version, { m with heap })
  | .firstWrite region version =>
    let (appended, heap) := (m.controller.regions region).firstWrite core m.heap
    let controller := m.controller.setRegion region appended
    some (.appendSlot region version, { m with heap, controller })
  | .appendSlot region version =>
    let appended := (m.controller.regions region).appendSlot core version (getTxSerial serial)
    let m := { m with controller := m.controller.setRegion region appended }
    some (.done, m.setPending epoch serial version)
  | _ => none

/-- One step of `read` or `write` in the execution phase. A version that is still
pending is tested again. -/
def executionStep (epoch core serial : Nat) (ope : Ope) (pc : Pc) (m : Memory) :
    Option (Pc × Memory) :=
  match pc with
  | .start =>
    match ope with
    | .read =>
      match m.readVisible epoch core serial with
      | (some v, true) => some (.waitStable v, m)
      | (some v, false) => some (.fetch v, m)
      | (none, _) => none
    | .update =>
      match m.pending epoch serial with
      | some p => some (.storeStable p, { m with heap := m.heap.storeRec p (.written epoch serial) })
      | none => some (.done, m)
  | .waitStable v =>
    some (if (m.heap.version v).status = .pending then .waitStable v else .fetch v, m)
  | .fetch v => some (.returning (m.heap.version v).record, m)
  | .returning _ => some (.done, m)
  | .storeStable p => some (.done, { m with heap := m.heap.storeStable p })
  | _ => none

/-- No step of the execution phase creates or deletes a version, or changes where
versions are kept. -/
theorem executionStep_keeps {e core serial : Nat} {ope : Ope} {pc pc' : Pc} {m m' : Memory}
    (h : executionStep e core serial ope pc m = some (pc', m')) :
    m'.value = m.value ∧ m'.controller = m.controller ∧ m'.heap.next = m.heap.next ∧
      m'.heap.reclaimed = m.heap.reclaimed := by
  unfold executionStep at h
  split at h
  · split at h
    · split at h <;> cases h <;> exact ⟨rfl, rfl, rfl, rfl⟩
    · split at h <;> cases h <;> exact ⟨rfl, rfl, rfl, rfl⟩
  all_goals cases h <;> exact ⟨rfl, rfl, rfl, rfl⟩

inductive Phase where
  | initialization | execution
  deriving DecidableEq

structure State (Key : Type u) where
  epoch : Nat
  phase : Phase
  workers : Nat → Thread (Call Key) Pc
  rows : Key → Row
  controller : RowRegionController

/-- A scheduler moves one of the 64 workers, or all of them through the barrier. -/
inductive Choice where
  | worker (w : Nat)
  | barrier

section System
variable {Key : Type u} [DecidableEq Key]

def State.memory (s : State Key) (k : Key) : Memory :=
  { s.rows k with controller := s.controller }

/-- The calls of one of the 64 workers in a phase. -/
def program (wl : Workload Key) (phase : Phase) (epoch w : Nat) : List (Call Key) :=
  if w < 64 then
    match phase with
    | .initialization => sequentialCalls w (wl.wSet epoch)
    | .execution => roundRobinCalls w (wl.rwSet epoch)
  else []

/-- `core_` is the worker in the initialization phase and `serial_id_ / 64` in the
execution phase. -/
def callStep (numRegions : Nat) (s : State Key) (w : Nat) (c : Call Key) (pc : Pc) (m : Memory) :
    Option (Pc × Memory) :=
  match s.phase with
  | .initialization => appendStep numRegions s.epoch w c.serial pc m
  | .execution =>
    executionStep s.epoch (getCoreSerial c.serial) c.serial c.operation.ope pc m

/-- The effect of one step inside a call on the row with key `k`. -/
def State.advance (s : State Key) (w : Nat) (k : Key) (pc : Pc) (m : Memory) : State Key :=
  { s with
    workers := Function.update s.workers w { s.workers w with pc }
    rows := Function.update s.rows k m.toRow
    controller := m.controller }

def State.enter (wl : Workload Key) (s : State Key) (phase : Phase) (epoch : Nat) : State Key :=
  { s with
    phase
    epoch
    workers := fun w => ⟨program wl phase epoch w, .start⟩ }

def step (wl : Workload Key) (numRegions : Nat) : Choice → State Key → Option (State Key)
  | .worker w, s =>
    match (s.workers w).todo with
    | [] => none
    | c :: rest =>
      if (s.workers w).pc = .done then
        some { s with workers := Function.update s.workers w ⟨rest, .start⟩ }
      else
        (callStep numRegions s w c (s.workers w).pc (s.memory c.index)).map
          (fun (pc, m) => s.advance w c.index pc m)
  | .barrier, s =>
    if ∀ w < 64, (s.workers w).todo = [] then
      some (match s.phase with
        | .initialization => s.enter wl .execution s.epoch
        | .execution => s.enter wl .initialization (s.epoch + 1))
    else none

/-- `insert_into_index`: pointer 0 is the version in the global array, pointer 1
the master version. -/
def loadedRow : Row where
  value := {
    rwl := {}
    epoch := 0
    master := some 1
    globalArray := GlobalVersionArray.append ⟨[]⟩ 0 (-1)
    rowRegion := none }
  heap := {
    version := fun p => ⟨some (.loaded p), .stable⟩
    next := 2
    reclaimed := [] }
  pending := fun _ _ => none

def initial (wl : Workload Key) : State Key where
  epoch := 1
  phase := .initialization
  workers := fun w => ⟨program wl .initialization 1 w, .start⟩
  rows := fun _ => loadedRow
  controller := ⟨fun _ => RowRegion.fresh, {}, 0⟩

def system (wl : Workload Key) (numRegions : Nat) : TransitionSystem (State Key) Choice :=
  ⟨step wl numRegions⟩

/-- States of whole runs, over any number of epochs. -/
def Reachable (wl : Workload Key) (numRegions : Nat) (s : State Key) : Prop :=
  (system wl numRegions).Reachable (· = initial wl) s

end System
end Mvdcc.Serval
