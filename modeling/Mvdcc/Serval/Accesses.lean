import Mvdcc.Serval.System

namespace Mvdcc.Serval.Accesses
open Library Bitmap

/-- `RowRegion::append`, between its atomic accesses and at both ends of each
mutation of the per-core array. -/
inductive ArrayPc where
  | loadBitmap
  | collect | collecting | clearing
  | setBit
  | insert | inserting
  deriving DecidableEq

/-- `none` when the append is over. -/
def arrayStep (region core : Nat) (version : Ptr) (tx : Nat) (pc : ArrayPc) (m : Memory) :
    Option ArrayPc × Memory :=
  let r := m.controller.regions region
  let setArray (array : PerCoreVersionArray) : RowRegionController :=
    m.controller.setRegion region { r with arrays := Function.update r.arrays core array }
  match pc with
  | .loadBitmap => (some (if r.isFirstWrite core then .collect else .insert), m)
  | .collect => (some .collecting, m)
  | .collecting =>
    -- minor_gc, and the atomic store to transaction_bitmap_
    let heap := (r.arrays core).minorGc m.heap
    (some .clearing, { m with heap, controller := setArray ⟨0, (r.arrays core).slots⟩ })
  | .clearing =>
    let controller := setArray ⟨(r.arrays core).transactionBitmap, []⟩
    (some .setBit, { m with controller })
  | .setBit =>
    let coreBitmap := r.coreBitmap ||| setBitAtTheGivenLocation core
    (some .insert, { m with controller := m.controller.setRegion region { r with coreBitmap } })
  | .insert => (some .inserting, m)
  | .inserting =>
    let controller := m.controller.setRegion region (r.appendSlot core version tx)
    (none, { m with controller })

/-- Where a worker is inside one call, with every atomic access and both ends of
every container mutation apart. A name in -ing is inside a mutation. -/
inductive Pc where
  | start
  | guardTryLock | guardReload
  | testGlobal | loadRegion
  | loadDirty (region : Nat)
  | popGlobal | poppingGlobal
  | collectGlobal (latest : Option Ptr) | collectingGlobal (latest : Option Ptr)
  | popLatest (region core : Nat) | poppingLatest (region core : Nat)
  | resetBitmap (region : Nat) (latest : Option Ptr)
  | storeMaster (latest : Option Ptr)
  | storeEpoch | guardUnlock
  | tryLock | locked
  | insertGlobal (version : Ptr) | insertingGlobal (version : Ptr)
  | lockedAppend (region : Nat) (version : Ptr) (pc : ArrayPc)
  | unlock
  | waitRegion | waitTryLock | waitLocked
  | fetchLock | fetchRead
  | fetchIncrement (region : Nat) | fetchUnlock (region : Nat)
  | migrate (region : Nat) (rest : List (Int × Ptr))
  | migrateAppend (region : Nat) (moved : Int × Ptr) (rest : List (Int × Ptr)) (pc : ArrayPc)
  | clearGlobal (region : Nat) | clearingGlobal (region : Nat)
  | publish (region : Nat)
  | waitUnlock (region : Nat)
  | append (region : Nat) (version : Ptr) (pc : ArrayPc)
  | execute (pc : Serval.Pc)
  | done
  deriving DecidableEq

def withLock (m : Memory) (rwl : RWLock) : Memory :=
  { m with value := { m.value with rwl } }

def withGlobal (m : Memory) (globalArray : GlobalVersionArray) : Memory :=
  { m with value := { m.value with globalArray } }

/-- `do_append_pending_version`, access by access. -/
def accessStep (numRegions epoch core serial : Nat) (pc : Pc) (m : Memory) :
    Option (Pc × Memory) :=
  match pc with
  | .start => some (if m.value.epoch < epoch then .guardTryLock else .tryLock, m)
  | .guardTryLock =>
    match m.value.rwl.tryLock with
    | some rwl => some (.guardReload, withLock m rwl)
    | none => some (.start, m)
  | .guardReload => some (if m.value.epoch < epoch then .testGlobal else .guardUnlock, m)
  | .testGlobal => some (if m.value.globalArray.isDirty then .popGlobal else .loadRegion, m)
  | .loadRegion =>
    match m.value.rowRegion with
    | some region => some (.loadDirty region, m)
    | none => some (.storeEpoch, m)
  | .loadDirty region =>
    let r := m.controller.regions region
    some (if r.isDirty then .popLatest region (findTheLargest r.coreBitmap).toNat
      else .storeEpoch, m)
  | .popGlobal => some (.poppingGlobal, m)
  | .poppingGlobal =>
    let (last, globalArray) := m.value.globalArray.popFinalState
    some (.collectGlobal (last.map Prod.snd), withGlobal m globalArray)
  | .collectGlobal latest => some (.collectingGlobal latest, m)
  | .collectingGlobal latest =>
    let (globalArray, heap) := m.value.globalArray.gc m.heap
    some (.storeMaster latest, { withGlobal m globalArray with heap })
  | .popLatest region core => some (.poppingLatest region core, m)
  | .poppingLatest region core =>
    let r := m.controller.regions region
    let (last, array) := (r.arrays core).popLatest
    let controller :=
      m.controller.setRegion region { r with arrays := Function.update r.arrays core array }
    some (.resetBitmap region last.2, { m with controller })
  | .resetBitmap region latest =>
    let controller :=
      m.controller.setRegion region (m.controller.regions region).initializeCoreBitmap
    some (.storeMaster latest, { m with controller })
  | .storeMaster latest => some (.storeEpoch, m.gcMasterVersion latest)
  | .storeEpoch => some (.guardUnlock, { m with value := { m.value with epoch } })
  | .guardUnlock => some (.tryLock, m.unlock)
  | .tryLock =>
    match m.value.rwl.tryLock with
    | some rwl => some (.locked, withLock m rwl)
    | none => some (.waitRegion, m)
  | .locked =>
    let (version, heap) := m.heap.createPendingVersion
    match m.value.rowRegion with
    | some region => some (.lockedAppend region version .loadBitmap, { m with heap })
    | none => some (.insertGlobal version, { m with heap })
  | .insertGlobal version => some (.insertingGlobal version, m)
  | .insertingGlobal version =>
    let m := withGlobal m (m.value.globalArray.append version serial)
    some (.unlock, m.setPending epoch serial version)
  | .lockedAppend region version pc =>
    match arrayStep region core version (getTxSerial serial) pc m with
    | (some pc, m) => some (.lockedAppend region version pc, m)
    | (none, m) => some (.unlock, m.setPending epoch serial version)
  | .unlock => some (.done, m.unlock)
  | .waitRegion =>
    match m.value.rowRegion with
    | some region =>
      let (version, heap) := m.heap.createPendingVersion
      some (.append region version .loadBitmap, { m with heap })
    | none => some (.waitTryLock, m)
  | .waitTryLock =>
    match m.value.rwl.tryLock with
    | some rwl => some (.waitLocked, withLock m rwl)
    | none => some (.waitRegion, m)
  | .waitLocked =>
    match m.value.rowRegion with
    | some region => some (.waitUnlock region, m)
    | none => some (.fetchLock, m)
  | .fetchLock =>
    match m.controller.lock.lock with
    | some lock => some (.fetchRead, { m with controller := { m.controller with lock } })
    | none => none
  | .fetchRead =>
    if numRegions ≤ m.controller.used then none else some (.fetchIncrement m.controller.used, m)
  | .fetchIncrement region =>
    let used := m.controller.used + 1
    some (.fetchUnlock region, { m with controller := { m.controller with used } })
  | .fetchUnlock region =>
    let lock := m.controller.lock.unlock
    some (.migrate region m.value.globalArray.idsSlots,
      { m with controller := { m.controller with lock } })
  | .migrate region [] => some (.clearGlobal region, m)
  | .migrate region (moved :: rest) => some (.migrateAppend region moved rest .loadBitmap, m)
  | .migrateAppend region moved rest pc =>
    let serialId := moved.1.toNat
    match arrayStep region (getCoreSerial serialId) moved.2 (getTxSerial serialId) pc m with
    | (some pc, m) => some (.migrateAppend region moved rest pc, m)
    | (none, m) => some (.migrate region rest, m)
  | .clearGlobal region => some (.clearingGlobal region, m)
  | .clearingGlobal region => some (.publish region, withGlobal m ⟨[]⟩)
  | .publish region =>
    some (.waitUnlock region, { m with value := { m.value with rowRegion := some region } })
  | .waitUnlock region =>
    let (version, heap) := m.heap.createPendingVersion
    some (.append region version .loadBitmap, { m.unlock with heap })
  | .append region version pc =>
    match arrayStep region core version (getTxSerial serial) pc m with
    | (some pc, m) => some (.append region version pc, m)
    | (none, m) => some (.done, m.setPending epoch serial version)
  | .execute _ => none
  | .done => none

/-- The execution phase mutates no container; its steps are taken as they are. -/
def Pc.ofExecution : Serval.Pc → Pc
  | .done => .done
  | pc => .execute pc

def Pc.toExecution : Pc → Serval.Pc
  | .execute pc => pc
  | _ => .start

structure State (Key : Type u) where
  epoch : Nat
  phase : Phase
  workers : Nat → Thread (Call Key) Pc
  rows : Key → Row
  controller : RowRegionController

section System
variable {Key : Type u}

def State.memory (s : State Key) (k : Key) : Memory :=
  { s.rows k with controller := s.controller }

def callStep (numRegions : Nat) (s : State Key) (w : Nat) (c : Call Key) (pc : Pc) (m : Memory) :
    Option (Pc × Memory) :=
  match s.phase with
  | .initialization => accessStep numRegions s.epoch w c.serial pc m
  | .execution =>
    (executionStep s.epoch (getCoreSerial c.serial) c.serial c.operation.ope pc.toExecution m).map
      (fun (pc, m) => (.ofExecution pc, m))

variable [DecidableEq Key]

def State.advance (s : State Key) (w : Nat) (k : Key) (pc : Pc) (m : Memory) : State Key :=
  { s with
    workers := Function.update s.workers w { s.workers w with pc }
    rows := Function.update s.rows k m.toRow
    controller := m.controller }

def State.enter (wl : Workload Key) (s : State Key) (phase : Phase) (epoch : Nat) : State Key :=
  { s with
    phase
    epoch
    workers := fun w => ⟨program wl phase epoch w, .start⟩ }

def step (wl : Workload Key) (numRegions : Nat) : Choice → State Key → Option (State Key)
  | .worker w, s =>
    match (s.workers w).todo with
    | [] => none
    | c :: rest =>
      if (s.workers w).pc = .done then
        some { s with workers := Function.update s.workers w ⟨rest, .start⟩ }
      else
        (callStep numRegions s w c (s.workers w).pc (s.memory c.index)).map
          (fun (pc, m) => s.advance w c.index pc m)
  | .barrier, s =>
    if ∀ w < 64, (s.workers w).todo = [] then
      some (match s.phase with
        | .initialization => s.enter wl .execution s.epoch
        | .execution => s.enter wl .initialization (s.epoch + 1))
    else none

def initial (wl : Workload Key) : State Key where
  epoch := 1
  phase := .initialization
  workers := fun w => ⟨program wl .initialization 1 w, .start⟩
  rows := fun _ => loadedRow
  controller := ⟨fun _ => RowRegion.fresh, {}, 0⟩

def system (wl : Workload Key) (numRegions : Nat) : TransitionSystem (State Key) Choice :=
  ⟨step wl numRegions⟩

/-- States of whole runs, over any number of epochs. -/
def Reachable (wl : Workload Key) (numRegions : Nat) (s : State Key) : Prop :=
  (system wl numRegions).Reachable (· = initial wl) s

end System
end Mvdcc.Serval.Accesses
