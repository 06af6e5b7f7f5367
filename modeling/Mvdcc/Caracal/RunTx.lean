import Mvdcc.Caracal.SerialHistory
import Mvdcc.Common.RunTx

namespace Mvdcc.Caracal
open Library

section RunTx
variable {Key : Type u} [DecidableEq Key]

/-- What a worker of `run_tx` has of its own. -/
structure Local (Key : Type u) where
  worker : Thread (Call Key) Pc
  own : Own Key
  finalizer : Finalizer Key

structure Shared (Key : Type u) where
  rows : Key → Row
  controller : RowBufferController

def phaseOf (round : Nat) : Phase :=
  match RunTx.phaseAt 2 round with
  | 0 => .initialization
  | _ => .execution

def State.ofLocals (round : Nat) (shared : Shared Key) (locals : Nat → Local Key) : State Key where
  epoch := RunTx.epochOf 2 round
  phase := phaseOf round
  workers := fun w => (locals w).worker
  own := fun w => (locals w).own
  finalizers := fun w => (locals w).finalizer
  controller := shared.controller
  rows := shared.rows

/-- A worker that is alone in its round does what the protocol does. -/
def runTx (cfg : Config) (wl : Workload Key) : Phased (Shared Key) (Local Key) Nat where
  work round w position shared l :=
    (step cfg (program wl) (.worker w position) (.ofLocals round shared (fun _ => l))).map
      (fun s => (⟨s.rows, s.controller⟩, ⟨s.workers w, s.own w, s.finalizers w⟩))
  enter round w l :=
    { l with worker := ⟨program wl (phaseOf round) (RunTx.epochOf 2 round) w, .start⟩ }
  idle l := decide (l.worker.todo = [] ∧ l.own.appendedCoreBuffers = .empty ∧ l.finalizer = .idle)
  enter_enter _ _ _ _ := rfl

def barriers (numEpoch : Nat) : Barrier.Schedule :=
  RunTx.barriers [.execPhase, .newEpoc] numEpoch

theorem barriers_alternate (numEpoch : Nat) : (barriers numEpoch).Alternates :=
  RunTx.barriers_alternate (by decide) (by decide) (by decide)

theorem barriers_calls (numEpoch : Nat) : (barriers numEpoch).calls = some (2 * numEpoch + 1) := rfl

variable {cfg : Config} {wl : Workload Key} {s s' t : State Key} {w position : Nat}

structure SameTo (w : Nat) (s t : State Key) : Prop where
  epoch : t.epoch = s.epoch
  phase : t.phase = s.phase
  rows : t.rows = s.rows
  controller : t.controller = s.controller
  worker : t.workers w = s.workers w
  own : t.own w = s.own w
  finalizer : t.finalizers w = s.finalizers w

/-- What a worker's step from `s` to `s'` does in another state. -/
def State.moved (t s' : State Key) (w : Nat) : State Key :=
  { t with
    workers := Function.update t.workers w (s'.workers w)
    own := Function.update t.own w (s'.own w)
    finalizers := Function.update t.finalizers w (s'.finalizers w)
    controller := s'.controller
    rows := s'.rows }

section Same
variable (h : SameTo w s t)
include h

omit [DecidableEq Key] in
theorem SameTo.worker_self : Function.update t.workers w (s.workers w) = t.workers := by
  rw [← h.worker, Function.update_eq_self]

omit [DecidableEq Key] in
theorem SameTo.own_self : Function.update t.own w (s.own w) = t.own := by
  rw [← h.own, Function.update_eq_self]

omit [DecidableEq Key] in
theorem SameTo.finalizer_self : Function.update t.finalizers w (s.finalizers w) = t.finalizers := by
  rw [← h.finalizer, Function.update_eq_self]

theorem scan_local (hstep : s.scan cfg w = some s') : t.scan cfg w = some (t.moved s' w) := by
  unfold State.scan at hstep ⊢
  simp only [h.finalizer, h.own, h.rows] at hstep ⊢
  split at hstep
  · rename_i hopt
    rw [if_pos hopt]
    cases hpass : (s.finalizers w).pass with
    | nil =>
      simp only [hpass] at hstep ⊢
      split at hstep
      · cases hstep
      · rename_i hempty
        cases hstep
        rw [if_neg hempty]
        simp [State.moved, State.setFinalizer, h.worker_self, h.own_self, ← h.rows, ← h.controller]
    | cons entry rest =>
      obtain ⟨k, buffer⟩ := entry
      simp only [hpass] at hstep ⊢
      cases hlock : (s.rows k).tryLock with
      | none =>
        simp only [hlock] at hstep ⊢
        cases hstep
        simp [State.moved, State.setFinalizer, h.worker_self, h.own_self, ← h.rows, ← h.controller]
      | some row =>
        simp only [hlock] at hstep ⊢
        cases hstep
        simp [State.moved, State.setFinalizer, State.setRow, h.worker_self, h.own_self, h.rows,
          h.controller]
  · rename_i hopt
    rw [if_neg hopt]
    cases hentries : (s.own w).appendedCoreBuffers.entries with
    | nil =>
      rw [hentries] at hstep
      cases hstep
    | cons entry rest =>
      obtain ⟨k, buffer⟩ := entry
      simp only [hentries] at hstep ⊢
      obtain ⟨row, hlock, rfl⟩ := Option.map_eq_some_iff.mp hstep
      rw [hlock]
      simp [State.moved, State.setFinalizer, State.setRow, h.worker_self, h.own_self, h.rows,
        h.controller]

/-- A pass over the map of a worker depends on no other worker. -/
theorem finalize_local (hstep : s.finalize cfg w = some s') :
    t.finalize cfg w = some (t.moved s' w) := by
  unfold State.finalize at hstep ⊢
  simp only [h.finalizer, h.own, h.rows, h.controller, h.epoch] at hstep ⊢
  cases hpc : (s.finalizers w).pc with
  | scan =>
    simp only [hpc] at hstep ⊢
    exact scan_local h hstep
  | flush k buffer =>
    simp only [hpc] at hstep ⊢
    cases hstep
    simp [State.moved, State.setFinalizer, State.setRow, h.worker_self, h.own_self, h.rows]
  | unlock k =>
    simp only [hpc] at hstep ⊢
    cases hstep
    simp [State.moved, State.setFinalizer, State.setRow, h.worker_self, h.rows, h.controller]

/-- What a worker does depends on no other worker. -/
theorem worker_step_local (hstep : step cfg (program wl) (.worker w position) s = some s') :
    step cfg (program wl) (.worker w position) t = some (t.moved s' w) := by
  simp only [step, h.worker, h.phase, Option.ite_none_right_eq_some] at hstep ⊢
  obtain ⟨hw, hstep⟩ := hstep
  refine ⟨hw, ?_⟩
  cases htodo : (s.workers w).todo with
  | nil =>
    simp only [htodo, Option.ite_none_right_eq_some] at hstep ⊢
    exact ⟨hstep.1, finalize_local h hstep.2⟩
  | cons c rest =>
    simp only [htodo] at hstep ⊢
    split at hstep
    · rename_i hpc
      cases hstep
      simp [hpc, State.return, State.moved, h.own_self, h.finalizer_self, h.rows, h.controller]
    · rename_i hpc
      rw [if_neg hpc]
      obtain ⟨⟨pc, m⟩, hcall, rfl⟩ := Option.map_eq_some_iff.mp hstep
      have hmemory : t.memory w c.index = s.memory w c.index := by
        simp only [State.memory, h.rows, h.controller, h.own]
      have hcall' : callStep cfg t w position c (s.workers w).pc (t.memory w c.index) =
          some (pc, m) := by
        rw [hmemory, ← hcall]
        simp only [callStep, h.phase, h.epoch]
      rw [hcall']
      simp [State.advance, State.moved, h.worker, h.rows, h.finalizer_self]

end Same

/-- The threads in lockstep, as the protocol has them. -/
def State.ofLockstep (x : Lockstep (Shared Key) (Local Key)) : State Key :=
  .ofLocals x.round x.memory x.locals

def Choice.ofTurn : Turn Nat → Choice
  | .thread w position => .worker w position
  | .barrier => .barrier

theorem next_round {k : Nat} (hk : 1 ≤ k) : (phaseOf (k + 1), RunTx.epochOf 2 (k + 1)) =
    match phaseOf k with
    | .initialization => (.execution, RunTx.epochOf 2 k)
    | .execution => (.initialization, RunTx.epochOf 2 k + 1) := by
  have hlt := RunTx.phaseAt_lt (k := k) (show 0 < 2 by decide)
  unfold phaseOf
  rcases (by omega : RunTx.phaseAt 2 k = 0 ∨ RunTx.phaseAt 2 k = 1) with h | h
  · obtain ⟨hp, he⟩ := RunTx.next_phase hk (by omega : RunTx.phaseAt 2 k + 1 < 2)
    simp only [hp, he, h]
  · obtain ⟨hp, he⟩ := RunTx.next_epoch hk (by omega : RunTx.phaseAt 2 k + 1 = 2)
    simp only [hp, he, h]

/-- The threads in lockstep take the steps of the protocol. -/
theorem lockstep_step (hcore : cfg.numCore = 64) {x y : Lockstep (Shared Key) (Local Key)}
    {i : Turn Nat} (hpos : 1 ≤ x.round) (h : Lockstep.step (runTx cfg wl) 64 i x = some y) :
    step cfg (program wl) (.ofTurn i) (.ofLockstep x) = some (.ofLockstep y) := by
  cases i with
  | thread w position =>
    simp only [Lockstep.step, Option.ite_none_right_eq_some, Option.map_eq_some_iff] at h
    obtain ⟨_, ⟨shared, l⟩, hwork, rfl⟩ := h
    obtain ⟨s, hs, he⟩ := Option.map_eq_some_iff.mp hwork
    obtain ⟨rfl, rfl⟩ := Prod.mk.inj he
    have hsame : SameTo w (.ofLocals x.round x.memory (fun _ => x.locals w)) (.ofLockstep x) :=
      ⟨rfl, rfl, rfl, rfl, rfl, rfl, rfl⟩
    refine (worker_step_local hsame hs).trans (congrArg some ?_)
    have hupdate : ∀ {α : Type u} (f : Local Key → α) (l : Local Key),
        (fun w' => f (Function.update x.locals w l w')) =
          Function.update (fun w' => f (x.locals w')) w (f l) :=
      fun f l => Function.comp_update f x.locals w l
    simp only [State.moved, State.ofLockstep, State.ofLocals, Lockstep.advance,
      hupdate Local.worker, hupdate Local.own, hupdate Local.finalizer]
  | barrier =>
    simp only [Lockstep.step, Option.ite_none_right_eq_some, Option.some.injEq] at h
    obtain ⟨hidle, rfl⟩ := h
    have hall : ∀ w < cfg.numCore, (State.ofLockstep x).Idle w := by
      rw [hcore]
      exact fun w hw => of_decide_eq_true (hidle w hw)
    have henter : ∀ phase epoch, (phaseOf (x.round + 1), RunTx.epochOf 2 (x.round + 1)) =
        (phase, epoch) → (State.ofLockstep x).enter (program wl) phase epoch =
          .ofLockstep (x.enter (runTx cfg wl) (x.round + 1)) := by
      rintro _ _ ⟨⟩
      rfl
    have hnext := next_round hpos
    simp only [Choice.ofTurn, step, if_pos hall, Option.some.injEq]
    split
    · rename_i hphase
      exact henter _ _ (hnext.trans (by rw [show phaseOf x.round = _ from hphase]; rfl))
    · rename_i hphase
      exact henter _ _ (hnext.trans (by rw [show phaseOf x.round = _ from hphase]; rfl))

def readingsIn (round : Nat) (l : Local Key) : List (Reading Key) :=
  if phaseOf round = .execution then readingOf Pc.returned (RunTx.epochOf 2 round) l.worker
  else []

theorem lockstep_simulates (hcore : cfg.numCore = 64) : Simulates
    (Lockstep.system (runTx cfg wl) 64) (system cfg (program wl)) (Lockstep.events readingsIn)
    (fun i s => s.readings i) (1 ≤ ·.round) .ofLockstep := by
  intro i x y hpos hstep
  refine Or.inr ⟨.ofTurn i, lockstep_step hcore hpos hstep, ?_⟩
  cases i with
  | thread w position => rfl
  | barrier => rfl

def loadedShared : Shared Key := ⟨fun _ => loadedRow, ⟨fun _ => ⟨fun _ => ⟨[]⟩⟩, {}, 0⟩⟩
def newLocal : Local Key := ⟨⟨[], .start⟩, ⟨none, .empty⟩, .idle⟩

/-- The executable: 64 threads, of which the last is the parent of the barrier. -/
def Run (cfg : Config) (wl : Workload Key) (numEpoch : Nat)
    (s : RunTx.State (Shared Key) (Local Key)) (log : List (Reading Key)) : Prop :=
  ((RunTx.system (runTx cfg wl) (barriers numEpoch) 63).logged
    (RunTx.events 63 readingsIn)).Reachable
      (· = (RunTx.initial 63 loadedShared (fun _ => newLocal), [])) (s, log)

variable {numEpoch : Nat} {log : List (Reading Key)} {s : RunTx.State (Shared Key) (Local Key)}

/-- The protocol's state in a run of the executable. -/
def viewOf (cfg : Config) (wl : Workload Key) (s : RunTx.State (Shared Key) (Local Key)) :
    State Key := .ofLockstep (s.lockstep (runTx cfg wl) 63)

theorem ofLockstep_initial : State.ofLockstep ⟨1, loadedShared,
    fun w => (runTx cfg wl).enter 1 w newLocal⟩ = initial (program wl) := by
  have he : RunTx.epochOf 2 1 = 1 := rfl
  have hp : phaseOf 1 = .initialization := rfl
  simp only [State.ofLockstep, State.ofLocals, initial, runTx, loadedShared, newLocal, he, hp]

/-- A run of the executable is a run of the protocol with the same reads. -/
theorem Run.refines (hcore : cfg.numCore = 64) (h : Run cfg wl numEpoch s log) :
    RunTx.Inv (runTx cfg wl) (barriers numEpoch) 63 s ∧ ReadRun cfg wl (viewOf cfg wl s) log := by
  obtain ⟨hinv, hlog⟩ := RunTx.refines (barriers_alternate numEpoch) h
  refine ⟨hinv, ?_⟩
  have hread := (lockstep_simulates hcore).logged (fun _ hx => Lockstep.round_le hx) hlog
  rwa [ofLockstep_initial] at hread

/-- When the last call of the barrier returns, the last epoch is over. -/
theorem Run.last (hcore : cfg.numCore = 64) (h : Run cfg wl numEpoch s log) (hpos : 0 < numEpoch)
    (hlast : s.barrier.parent.returned = 2 * numEpoch + 1) :
    ∃ t, ReadRun cfg wl t log ∧ t.epoch = numEpoch ∧ t.phase = .execution ∧
      (∀ w < 64, (t.workers w).todo = []) ∧ t.rows = s.memory.rows := by
  obtain ⟨y, hy, hround, hmemory, hidle⟩ := RunTx.last_round_over (barriers_alternate numEpoch)
    (barriers_calls numEpoch) (by omega) h hlast
  have hread := (lockstep_simulates hcore).logged (fun _ hx => Lockstep.round_le hx) hy
  rw [ofLockstep_initial] at hread
  obtain ⟨hepoch, hphase⟩ := @RunTx.last_round 2 numEpoch (by decide) hpos
  refine ⟨.ofLockstep y, hread, ?_, ?_, ?_, congrArg Shared.rows hmemory⟩
  · exact (congrArg (RunTx.epochOf 2) hround).trans hepoch
  · have hp : RunTx.phaseAt 2 (2 * numEpoch) = 1 := by omega
    change phaseOf y.round = .execution
    simp only [phaseOf, hround, hp]
  · exact fun w hw => (of_decide_eq_true (hidle w hw)).1

/-- The reads of the executable, whatever its threads' interleaving, are those of the
serial execution of its epochs. -/
theorem runTx_answers_serially (hcore : cfg.numCore = 64) (hpos : 0 < numEpoch)
    (hlt : numEpoch < 2 ^ 32) (h : Run cfg wl numEpoch s log) :
    ReadRun cfg wl (viewOf cfg wl s) log ∧
    (log.map Reading.content).Subperm (wl.serialReadings (numEpoch * numTxsInOneEpoch)) ∧
    (s.Finished (barriers numEpoch) 63 →
      (log.map Reading.content).Perm (wl.serialReadings (numEpoch * numTxsInOneEpoch)) ∧
      ∀ k, ∃ last x, (s.memory.rows k).globalArray.idsSlots.getLast? = some last ∧
        (s.memory.rows k).heap.version last.2 = ⟨some x, .stable⟩ ∧
        x.content = wl.store (numEpoch * numTxsInOneEpoch) k) := by
  obtain ⟨hinv, hrun⟩ := h.refines hcore
  have hcalls := barriers_calls numEpoch
  have hlast : s.round = 2 * numEpoch + 1 → s.barrier.parent.returned = 2 * numEpoch + 1 := by
    unfold RunTx.State.round
    omega
  refine ⟨hrun, ?_, fun hfin => ?_⟩
  · rcases Nat.lt_or_eq_of_le (hinv.round_le hcalls (Nat.succ_pos _)) with hbefore | heq
    · have hle := RunTx.epochOf_le (by decide) hpos (Nat.le_of_lt_succ hbefore)
      obtain ⟨_, hlog, hanswers⟩ := hrun.inv hcore (Nat.lt_of_le_of_lt hle hlt)
      have hsub := hlog.subperm hanswers
      rw [wl.serialReadings_answer] at hsub
      exact hsub.trans (wl.serialReadings_sublist (Nat.mul_le_mul_right _ hle)).subperm
    · obtain ⟨t, ht, he, hphase, htodo, _⟩ := h.last hcore hpos (hlast heq)
      rw [← he]
      exact (ht.finished hcore (he ▸ hlt) hphase htodo).1.subperm
  · obtain ⟨t, ht, he, hphase, htodo, hrows⟩ :=
      h.last hcore hpos (hlast (hinv.round_finished hcalls (Nat.succ_pos _) hfin))
    rw [← he, ← hrows]
    exact ht.finished hcore (he ▸ hlt) hphase htodo

end RunTx

section Run

/-- One epoch of a write and a read of it, by 64 threads from start to end. -/
def oneEpoch : List (RunTx.Choice Nat) :=
  RunTx.passBarrier Nat 63 ++ List.replicate 5 (.work 0 0) ++
    RunTx.passBarrier Nat 63 ++ List.replicate 3 (.work 0 0) ++ List.replicate 5 (.work 1 0) ++
    RunTx.passBarrier Nat 63

theorem oneEpoch_runs : ∃ (s : RunTx.State (Shared Unit) (Local Unit)) (log : List (Reading Unit)),
    Run ⟨64, 4, 1, true⟩ writeOnce 1 s log ∧ s.Finished (barriers 1) 63 ∧
      log = [⟨1, ⟨1, ⟨.read, ()⟩⟩, some (.written 1 0)⟩] := by
  have hstart : Run ⟨64, 4, 1, true⟩ writeOnce 1
      (RunTx.initial 63 loadedShared (fun _ => newLocal)) [] := .start rfl
  have hrun : (((RunTx.system (runTx ⟨64, 4, 1, true⟩ writeOnce) (barriers 1) 63).logged
      (RunTx.events 63 readingsIn)).run oneEpoch
        (RunTx.initial 63 loadedShared (fun _ => newLocal), [])).map
          (fun x => (decide (x.1.Finished (barriers 1) 63), x.2)) =
        some (true, [⟨1, ⟨1, ⟨.read, ()⟩⟩, some (.written 1 0)⟩]) := by
    decide +kernel
  obtain ⟨⟨s, log⟩, hs, hshow⟩ := TransitionSystem.Reachable.of_run_map hstart hrun
  obtain ⟨hfin, hlog⟩ := Prod.mk.inj hshow
  exact ⟨s, log, hs, of_decide_eq_true hfin, hlog⟩

theorem runTx_answers_serially_oneEpoch : ∃ (s : RunTx.State (Shared Unit) (Local Unit))
    (log : List (Reading Unit)), Run ⟨64, 4, 1, true⟩ writeOnce 1 s log ∧
      log = [⟨1, ⟨1, ⟨.read, ()⟩⟩, some (.written 1 0)⟩] ∧
      (log.map Reading.content).Perm (writeOnce.serialReadings (1 * numTxsInOneEpoch)) := by
  obtain ⟨s, log, hs, hfin, hlog⟩ := oneEpoch_runs
  exact ⟨s, log, hs, hlog, ((runTx_answers_serially rfl (by decide) (by decide) hs).2.2 hfin).1⟩

end Run
end Mvdcc.Caracal
