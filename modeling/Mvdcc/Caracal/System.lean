import Mvdcc.Caracal.GlobalVersionArray
import Mvdcc.Common.Workload
import Mvdcc.Library.Transition
import Mvdcc.Library.UnorderedMap

namespace Mvdcc.Caracal
open Library

/-- What an experiment fixes: `NUM_CORE`, `MAX_SLOTS_OF_PER_CORE_BUFFER`, `NUM_REGIONS`,
and which variant of `finalize_batch_append` runs. -/
structure Config where
  numCore : Nat
  maxSlots : Nat
  numRegions : Nat
  optimized : Bool

structure RowBuffer where
  buffers : Nat → PerCoreBuffer

/-- `RowBufferController`: the row buffers, and how many of them are in use. -/
structure RowBufferController where
  buffers : Nat → RowBuffer
  lock : RWLock
  used : Nat

namespace RowBufferController

/-- Under `lock_`. `none` is the exception: no buffer is left. -/
def fetchNewBuffer (numRegions : Nat) (c : RowBufferController) :
    Option (Nat × RowBufferController) :=
  if numRegions ≤ c.used then none else some (c.used, { c with used := c.used + 1 })

theorem fetchNewBuffer_eq_some {numRegions b : Nat} {c c' : RowBufferController} :
    c.fetchNewBuffer numRegions = some (b, c') ↔
      c.used < numRegions ∧ c.used = b ∧ { c with used := c.used + 1 } = c' := by
  unfold fetchNewBuffer
  rw [Option.ite_none_left_eq_some, Option.some.injEq, Prod.mk.injEq, Nat.not_le]

theorem fetchNewBuffer_eq_none {numRegions : Nat} {c : RowBufferController} :
    c.fetchNewBuffer numRegions = none ↔ numRegions ≤ c.used := by
  simp [fetchNewBuffer]

/-- `buffers_[core]` of one row buffer. -/
def slice (c : RowBufferController) (buffer core : Nat) : PerCoreBuffer :=
  (c.buffers buffer).buffers core

def setSlice (c : RowBufferController) (buffer core : Nat) (b : PerCoreBuffer) :
    RowBufferController :=
  let rowBuffer : RowBuffer := ⟨Function.update (c.buffers buffer).buffers core b⟩
  { c with buffers := Function.update c.buffers buffer rowBuffer }

def setLock (c : RowBufferController) (lock : RWLock) : RowBufferController :=
  { c with lock }

end RowBufferController

/-- One row: its `Value`, its versions, and `pending_` of the writes of it, by epoch
and serial id. -/
structure Row where
  globalArray : GlobalVersionArray
  rowBuffer : Option Nat
  heap : Heap
  pending : Nat → Nat → Option Ptr

namespace Row

def setPending (r : Row) (epoch serial : Nat) (version : Ptr) : Row :=
  let ofEpoch := Function.update (r.pending epoch) serial (some version)
  { r with pending := Function.update r.pending epoch ofEpoch }

def setLock (r : Row) (rwl : RWLock) : Row :=
  { r with globalArray := { r.globalArray with rwl } }

def lock (r : Row) : Option Row := r.globalArray.rwl.lock.map r.setLock
def tryLock (r : Row) : Option Row := r.globalArray.rwl.tryLock.map r.setLock
def unlock (r : Row) : Row := r.setLock r.globalArray.rwl.unlock

/-- `append_to_uncontended_row` up to the unlock. -/
def appendUncontended (r : Row) (epoch serial : Nat) : Ptr × Row :=
  let (version, heap) := r.heap.createPendingVersion
  let (globalArray, heap) := r.globalArray.appendWithGc epoch serial version heap
  (version, { r with globalArray, heap })

/-- `batch_append` of one slice. -/
def batchAppend (r : Row) (buffer : PerCoreBuffer) (epoch : Nat) : PerCoreBuffer × Row :=
  let (globalArray, buffer, heap) := r.globalArray.batchAppend buffer epoch r.heap
  (buffer, { r with globalArray, heap })

end Row

/-- What a worker's `Caracal` object keeps to itself. A `PerCoreBuffer *` in the map is
the worker's own slice of the row buffer with this index. -/
structure Own (Key : Type u) where
  spareBuffer : Option Nat
  appendedCoreBuffers : UnorderedMap Key Nat
  deriving DecidableEq

/-- What a call on one row can reach. -/
structure Memory (Key : Type u) extends Row where
  controller : RowBufferController
  own : Own Key

/-- Where a worker is inside one call. -/
inductive Pc where
  | start
  | tryLock
  | uncontended
  | fetch | fetchLocked | fetchUnlock (newBuffer : Nat) | thrown
  | install (newBuffer : Nat) | reload (newBuffer : Nat)
  | contended (buffer : Nat)
  | lockRow (pending : Ptr) (buffer : Nat) | flush (pending : Ptr) (buffer : Nat)
  | unlockRow (pending : Ptr)
  | waitStable (visible : Ptr)
  | fetchRec (visible : Ptr)
  | returning (record : Option Rec)
  | storeStable (pending : Ptr)
  | done
  deriving DecidableEq

section Calls
variable {Key : Type u} [DecidableEq Key]

/-- One step of `do_append_pending_version`: a lock operation, an atomic access, or
the body of a section that holds a lock. The slices, the spare buffer and the map
are the worker's own. `thrown` is where the exception of `fetch_new_buffer` ends the
worker. -/
def appendStep (cfg : Config) (position epoch core serial : Nat) (k : Key) (pc : Pc)
    (m : Memory Key) : Option (Pc × Memory Key) :=
  match pc with
  | .start =>
    match m.rowBuffer with
    | some buffer => some (.contended buffer, m)
    | none => some (.tryLock, m)
  | .tryLock =>
    match m.toRow.tryLock with
    | some row => some (.uncontended, { m with toRow := row })
    | none => some (.fetch, m)
  | .uncontended =>
    let (pending, row) := m.toRow.appendUncontended epoch serial
    some (.unlockRow pending, { m with toRow := row })
  | .fetch =>
    match m.own.spareBuffer with
    | some buffer => some (.install buffer, { m with own := { m.own with spareBuffer := none } })
    | none => m.controller.lock.lock.map (fun lock =>
        (.fetchLocked, { m with controller := m.controller.setLock lock }))
  | .fetchLocked =>
    match m.controller.fetchNewBuffer cfg.numRegions with
    | none => some (.thrown, m)
    | some (buffer, controller) => some (.fetchUnlock buffer, { m with controller })
  | .fetchUnlock buffer => some (.install buffer,
      { m with controller := m.controller.setLock m.controller.lock.unlock })
  | .install buffer =>
    match m.rowBuffer with
    | none => some (.contended buffer, { m with rowBuffer := some buffer })
    | some _ => some (.reload buffer, m)
  | .reload buffer =>
    match m.rowBuffer with
    | some other =>
      some (.contended other, { m with own := { m.own with spareBuffer := some buffer } })
    | none => none
  | .contended buffer =>
    let (pending, heap) := m.heap.createPendingVersion
    let (room, slice) :=
      (m.controller.slice buffer core).appendable cfg.maxSlots pending epoch serial
    let m := { m with heap, controller := m.controller.setSlice buffer core slice }
    if room then
      let appendedCoreBuffers := m.own.appendedCoreBuffers.emplace position k buffer
      some (.done, { m with
        toRow := m.toRow.setPending epoch serial pending
        own := { m.own with appendedCoreBuffers } })
    else some (.lockRow pending buffer, m)
  | .lockRow pending buffer =>
    m.toRow.lock.map (fun row => (.flush pending buffer, { m with toRow := row }))
  | .flush pending buffer =>
    let (slice, row) := m.toRow.batchAppend (m.controller.slice buffer core) epoch
    some (.unlockRow pending, { m with
      toRow := row
      controller := m.controller.setSlice buffer core slice })
  | .unlockRow pending =>
    some (.done, { m with toRow := m.toRow.unlock.setPending epoch serial pending })
  | _ => none

/-- One step of `read` or `write` in the execution phase. A version that is still
pending is tested again. -/
def executionStep (epoch serial : Nat) (ope : Ope) (pc : Pc) (r : Row) : Option (Pc × Row) :=
  match pc with
  | .start =>
    match ope with
    | .read => (r.globalArray.searchVisibleVersion epoch serial).map
        (fun (_, visible) => (.waitStable visible, r))
    | .update =>
      match r.pending epoch serial with
      | some p => some (.storeStable p, { r with heap := r.heap.storeRec p (.written epoch serial) })
      | none => some (.done, r)
  | .waitStable v =>
    some (if (r.heap.version v).status = .pending then .waitStable v else .fetchRec v, r)
  | .fetchRec v => some (.returning (r.heap.version v).record, r)
  | .returning _ => some (.done, r)
  | .storeStable p => some (.done, { r with heap := r.heap.storeStable p })
  | _ => none

end Calls

/-- Where a worker is inside `finalize_batch_append`. -/
inductive FinalizePc (Key : Type u) where
  | scan
  | flush (k : Key) (buffer : Nat)
  | unlock (k : Key)
  deriving DecidableEq

/-- The entries that the current pass has not reached, and the place in it. -/
structure Finalizer (Key : Type u) where
  pass : List (Key × Nat)
  pc : FinalizePc Key
  deriving DecidableEq

def Finalizer.idle : Finalizer Key := ⟨[], .scan⟩

inductive Phase where
  | initialization | execution
  deriving DecidableEq

structure State (Key : Type u) where
  epoch : Nat
  phase : Phase
  workers : Nat → Thread (Call Key) Pc
  own : Nat → Own Key
  finalizers : Nat → Finalizer Key
  controller : RowBufferController
  rows : Key → Row

/-- A scheduler moves one of the workers, or all of them through the barrier. A key
that is new to a hash map takes some place in its iteration order. -/
inductive Choice where
  | worker (w position : Nat)
  | barrier

abbrev Program (Key : Type u) := Phase → Nat → Nat → List (Call Key)

section System
variable {Key : Type u}

/-- The calls of one of the 64 workers: round-robin assignment in both phases. -/
def program (wl : Workload Key) : Program Key := fun phase epoch w =>
  if w < 64 then
    match phase with
    | .initialization => roundRobinCalls w (wl.wSet epoch)
    | .execution => roundRobinCalls w (wl.rwSet epoch)
  else []

def State.enter (prog : Program Key) (s : State Key) (phase : Phase) (epoch : Nat) : State Key :=
  { s with
    phase
    epoch
    workers := fun w => ⟨prog phase epoch w, .start⟩ }

/-- `insert_into_index`: one stable version under the id 0. -/
def loadedRow : Row where
  globalArray := GlobalVersionArray.appendWithNoGc ⟨{}, []⟩ 0 0
  rowBuffer := none
  heap := {
    version := fun _ => ⟨some (.loaded 0), .stable⟩
    next := 1
    reclaimed := [] }
  pending := fun _ _ => none

def initial (prog : Program Key) : State Key where
  epoch := 1
  phase := .initialization
  workers := fun w => ⟨prog .initialization 1 w, .start⟩
  own := fun _ => ⟨none, .empty⟩
  finalizers := fun _ => .idle
  controller := ⟨fun _ => ⟨fun _ => ⟨[]⟩⟩, {}, 0⟩
  rows := fun _ => loadedRow

variable [DecidableEq Key]

def State.memory (s : State Key) (w : Nat) (k : Key) : Memory Key :=
  { s.rows k with controller := s.controller, own := s.own w }

/-- The effect of one step inside a call on the row with key `k`. -/
def State.advance (s : State Key) (w : Nat) (k : Key) (pc : Pc) (m : Memory Key) : State Key :=
  { s with
    workers := Function.update s.workers w { s.workers w with pc }
    rows := Function.update s.rows k m.toRow
    controller := m.controller
    own := Function.update s.own w m.own }

def State.setFinalizer (s : State Key) (w : Nat) (f : Finalizer Key) : State Key :=
  { s with finalizers := Function.update s.finalizers w f }

def State.setRow (s : State Key) (k : Key) (row : Row) : State Key :=
  { s with rows := Function.update s.rows k row }

/-- The head of the loop. The optimized variant goes over the whole map and skips the
rows whose lock it does not get; the other one waits for the lock of the first entry. -/
def State.scan (cfg : Config) (s : State Key) (w : Nat) : Option (State Key) :=
  let f := s.finalizers w
  let entries := (s.own w).appendedCoreBuffers.entries
  if cfg.optimized then
    match f.pass with
    | [] => if entries.isEmpty then none else some (s.setFinalizer w { f with pass := entries })
    | (k, buffer) :: rest =>
      match (s.rows k).tryLock with
      | none => some (s.setFinalizer w { f with pass := rest })
      | some row => some ((s.setRow k row).setFinalizer w ⟨rest, .flush k buffer⟩)
  else
    match entries with
    | [] => none
    | (k, buffer) :: _ =>
      (s.rows k).lock.map (fun row => (s.setRow k row).setFinalizer w ⟨[], .flush k buffer⟩)

/-- One step of `finalize_batch_append`. -/
def State.finalize (cfg : Config) (s : State Key) (w : Nat) : Option (State Key) :=
  let f := s.finalizers w
  match f.pc with
  | .scan => s.scan cfg w
  | .flush k buffer =>
    let (slice, row) := (s.rows k).batchAppend (s.controller.slice buffer w) s.epoch
    some { (s.setRow k row).setFinalizer w { f with pc := .unlock k } with
      controller := s.controller.setSlice buffer w slice }
  | .unlock k =>
    let own := s.own w
    let appendedCoreBuffers := own.appendedCoreBuffers.erase k
    some { (s.setRow k (s.rows k).unlock).setFinalizer w { f with pc := .scan } with
      own := Function.update s.own w { own with appendedCoreBuffers } }

/-- Nothing is left for a worker to do in the phase. -/
def State.Idle (s : State Key) (w : Nat) : Prop :=
  (s.workers w).todo = [] ∧ (s.own w).appendedCoreBuffers = .empty ∧ s.finalizers w = .idle

instance (s : State Key) (w : Nat) : Decidable (s.Idle w) := by
  unfold State.Idle
  infer_instance

/-- `core_` is the worker. -/
def callStep (cfg : Config) (s : State Key) (w position : Nat) (c : Call Key) (pc : Pc)
    (m : Memory Key) : Option (Pc × Memory Key) :=
  match s.phase with
  | .initialization => appendStep cfg position s.epoch w c.serial c.index pc m
  | .execution => (executionStep s.epoch c.serial c.operation.ope pc m.toRow).map
      (fun (pc, row) => (pc, { m with toRow := row }))

def State.return (s : State Key) (w : Nat) (rest : List (Call Key)) : State Key :=
  { s with workers := Function.update s.workers w ⟨rest, .start⟩ }

def step (cfg : Config) (prog : Program Key) : Choice → State Key → Option (State Key)
  | .worker w position, s =>
    if w < cfg.numCore then
      match (s.workers w).todo with
      | [] => if s.phase = .initialization then s.finalize cfg w else none
      | c :: rest =>
        if (s.workers w).pc = .done then some (s.return w rest)
        else
          (callStep cfg s w position c (s.workers w).pc (s.memory w c.index)).map
            (fun (pc, m) => s.advance w c.index pc m)
    else none
  | .barrier, s =>
    if ∀ w < cfg.numCore, s.Idle w then
      some (match s.phase with
        | .initialization => s.enter prog .execution s.epoch
        | .execution => s.enter prog .initialization (s.epoch + 1))
    else none

def system (cfg : Config) (prog : Program Key) : TransitionSystem (State Key) Choice :=
  ⟨step cfg prog⟩

/-- States of whole runs, over any number of epochs. -/
def Reachable (cfg : Config) (prog : Program Key) (s : State Key) : Prop :=
  (system cfg prog).Reachable (· = initial prog) s

end System
end Mvdcc.Caracal
