import Mvdcc.Cheetah.SerialHistory
import Mvdcc.Common.RunTx

namespace Mvdcc.Cheetah
open Library

section RunTx
variable {Key : Type u} [DecidableEq Key]

/-- What a worker of `run_tx` has of its own. -/
structure Local (Key : Type u) where
  worker : Thread (Call Key) Pc
  marker : Marker Key

def phaseOf (round : Nat) : Phase :=
  match RunTx.phaseAt 3 round with
  | 0 => .write
  | 1 => .read
  | _ => .execution

def State.ofLocals (round : Nat) (rows : Key → Row) (locals : Nat → Local Key) : State Key where
  epoch := RunTx.epochOf 3 round
  phase := phaseOf round
  workers := fun w => (locals w).worker
  markers := fun w => (locals w).marker
  rows

/-- A worker that is alone in its round does what the protocol does. -/
def runTx (wl : Workload Key) : Phased (Key → Row) (Local Key) Nat where
  work round w position rows l :=
    (step wl (.worker w position) (.ofLocals round rows (fun _ => l))).map
      (fun s => (s.rows, ⟨s.workers w, s.markers w⟩))
  enter round w l := { l with worker := ⟨program wl (phaseOf round) (RunTx.epochOf 3 round) w, .start⟩ }
  idle l := decide (l.worker.todo = [] ∧ l.marker = .idle)
  enter_enter _ _ _ _ := rfl

def barriers (numEpoch : Nat) : Barrier.Schedule :=
  RunTx.barriers [.initPhase, .execPhase, .newEpoc] numEpoch

theorem barriers_alternate (numEpoch : Nat) : (barriers numEpoch).Alternates :=
  RunTx.barriers_alternate (by decide) (by decide) (by decide)

theorem barriers_calls (numEpoch : Nat) : (barriers numEpoch).calls = some (3 * numEpoch + 1) := rfl

variable {wl : Workload Key} {s s' t : State Key} {w position : Nat}

structure SameTo (w : Nat) (s t : State Key) : Prop where
  epoch : t.epoch = s.epoch
  phase : t.phase = s.phase
  rows : t.rows = s.rows
  worker : t.workers w = s.workers w
  marker : t.markers w = s.markers w

/-- What a worker's step from `s` to `s'` does in another state. -/
def State.moved (t s' : State Key) (w : Nat) : State Key :=
  { t with
    workers := Function.update t.workers w (s'.workers w)
    markers := Function.update t.markers w (s'.markers w)
    rows := s'.rows }

section Same
variable (h : SameTo w s t)
include h

omit [DecidableEq Key] in
theorem SameTo.worker_self : Function.update t.workers w (s.workers w) = t.workers := by
  rw [← h.worker, Function.update_eq_self]

omit [DecidableEq Key] in
theorem SameTo.marker_self : Function.update t.markers w (s.markers w) = t.markers := by
  rw [← h.marker, Function.update_eq_self]

/-- A pass over the map of a worker depends on no other worker. -/
theorem finalize_local (hstep : s.finalize w = some s') : t.finalize w = some (t.moved s' w) := by
  unfold State.finalize at hstep ⊢
  simp only [h.marker, h.rows] at hstep ⊢
  cases hpc : (s.markers w).pc with
  | scan =>
    simp only [hpc] at hstep ⊢
    cases hpass : (s.markers w).pass with
    | nil =>
      simp only [hpass] at hstep ⊢
      split at hstep
      · cases hstep
      · rename_i hempty
        cases hstep
        rw [if_neg hempty]
        simp [State.moved, h.worker_self, ← h.rows]
    | cons entry rest =>
      obtain ⟨k, b⟩ := entry
      simp only [hpass] at hstep ⊢
      cases hlock : (s.rows k).tryLock with
      | none =>
        simp only [hlock] at hstep ⊢
        cases hstep
        simp [State.moved, h.worker_self, ← h.rows]
      | some row =>
        simp only [hlock] at hstep ⊢
        cases hstep
        simp [State.moved, h.worker_self]
  | update k b =>
    simp only [hpc] at hstep ⊢
    cases hstep
    simp [State.moved, h.worker_self]
  | unlock k =>
    simp only [hpc] at hstep ⊢
    cases hstep
    simp [State.moved, h.worker_self]

/-- What a worker does depends on no other worker. -/
theorem worker_step_local (hstep : step wl (.worker w position) s = some s') :
    step wl (.worker w position) t = some (t.moved s' w) := by
  simp only [step, h.worker, h.phase, h.rows] at hstep ⊢
  cases htodo : (s.workers w).todo with
  | nil =>
    simp only [htodo, Option.ite_none_right_eq_some] at hstep ⊢
    exact ⟨hstep.1, finalize_local h hstep.2⟩
  | cons c rest =>
    simp only [htodo] at hstep ⊢
    split at hstep
    · rename_i hpc
      cases hstep
      simp [hpc, State.return, State.moved, h.marker_self, h.rows]
    · rename_i hpc
      rw [if_neg hpc]
      split at hstep
      · rename_i hphase
        cases hstep
        simp [hphase, State.updateWriteBitmaps, State.moved, h.worker, h.marker, h.rows]
      · rename_i hphase
        obtain ⟨⟨pc, r⟩, hcall, rfl⟩ := Option.map_eq_some_iff.mp hstep
        have hcall' : callStep t w position c (s.workers w).pc (s.rows c.index) = some (pc, r) := by
          rw [← hcall]
          simp only [callStep, h.phase, h.epoch]
        simp [hphase, hcall', State.advance, State.moved, h.worker, h.rows, h.marker_self]

end Same

/-- The threads in lockstep, as the protocol has them. -/
def State.ofLockstep (x : Lockstep (Key → Row) (Local Key)) : State Key :=
  .ofLocals x.round x.memory x.locals

def Choice.ofTurn : Turn Nat → Choice
  | .thread w position => .worker w position
  | .barrier => .barrier

theorem next_round {k : Nat} (hk : 1 ≤ k) : (phaseOf (k + 1), RunTx.epochOf 3 (k + 1)) =
    match phaseOf k with
    | .write => (.read, RunTx.epochOf 3 k)
    | .read => (.execution, RunTx.epochOf 3 k)
    | .execution => (.write, RunTx.epochOf 3 k + 1) := by
  have hlt := RunTx.phaseAt_lt (k := k) (show 0 < 3 by decide)
  unfold phaseOf
  rcases (by omega : RunTx.phaseAt 3 k = 0 ∨ RunTx.phaseAt 3 k = 1 ∨ RunTx.phaseAt 3 k = 2) with
    h | h | h
  · obtain ⟨hp, he⟩ := RunTx.next_phase hk (by omega : RunTx.phaseAt 3 k + 1 < 3)
    simp only [hp, he, h]
  · obtain ⟨hp, he⟩ := RunTx.next_phase hk (by omega : RunTx.phaseAt 3 k + 1 < 3)
    simp only [hp, he, h]
  · obtain ⟨hp, he⟩ := RunTx.next_epoch hk (by omega : RunTx.phaseAt 3 k + 1 = 3)
    simp only [hp, he, h]

/-- The threads in lockstep take the steps of the protocol. -/
theorem lockstep_step {x y : Lockstep (Key → Row) (Local Key)} {i : Turn Nat} (hpos : 1 ≤ x.round)
    (h : Lockstep.step (runTx wl) 64 i x = some y) :
    step wl (.ofTurn i) (.ofLockstep x) = some (.ofLockstep y) := by
  cases i with
  | thread w position =>
    simp only [Lockstep.step, Option.ite_none_right_eq_some, Option.map_eq_some_iff] at h
    obtain ⟨_, ⟨rows, l⟩, hwork, rfl⟩ := h
    obtain ⟨s, hs, he⟩ := Option.map_eq_some_iff.mp hwork
    obtain ⟨rfl, rfl⟩ := Prod.mk.inj he
    have hsame : SameTo w (.ofLocals x.round x.memory (fun _ => x.locals w)) (.ofLockstep x) :=
      ⟨rfl, rfl, rfl, rfl, rfl⟩
    refine (worker_step_local hsame hs).trans (congrArg some ?_)
    have hupdate : ∀ {α : Type u} (f : Local Key → α) (l : Local Key),
        (fun w' => f (Function.update x.locals w l w')) =
          Function.update (fun w' => f (x.locals w')) w (f l) :=
      fun f l => Function.comp_update f x.locals w l
    simp only [State.moved, State.ofLockstep, State.ofLocals, Lockstep.advance,
      hupdate Local.worker, hupdate Local.marker]
  | barrier =>
    simp only [Lockstep.step, Option.ite_none_right_eq_some, Option.some.injEq] at h
    obtain ⟨hidle, rfl⟩ := h
    have hall : ∀ w < 64, ((State.ofLockstep x).workers w).todo = [] ∧
        (State.ofLockstep x).markers w = .idle := fun w hw => of_decide_eq_true (hidle w hw)
    have henter : ∀ phase epoch, (phaseOf (x.round + 1), RunTx.epochOf 3 (x.round + 1)) =
        (phase, epoch) → (State.ofLockstep x).enter wl phase epoch =
          .ofLockstep (x.enter (runTx wl) (x.round + 1)) := by
      rintro _ _ ⟨⟩
      rfl
    have hnext := next_round hpos
    simp only [Choice.ofTurn, step, if_pos hall, Option.some.injEq]
    split
    · rename_i hphase
      exact henter _ _ (hnext.trans (by rw [show phaseOf x.round = _ from hphase]; rfl))
    · rename_i hphase
      exact henter _ _ (hnext.trans (by rw [show phaseOf x.round = _ from hphase]; rfl))
    · rename_i hphase
      exact henter _ _ (hnext.trans (by rw [show phaseOf x.round = _ from hphase]; rfl))

def readingsIn (round : Nat) (l : Local Key) : List (Reading Key) :=
  if phaseOf round = .execution then readingOf Pc.returned (RunTx.epochOf 3 round) l.worker else []

theorem lockstep_simulates : Simulates (Lockstep.system (runTx wl) 64) (system wl)
    (Lockstep.events readingsIn) (fun i s => s.readings i) (1 ≤ ·.round) .ofLockstep := by
  intro i x y hpos hstep
  refine Or.inr ⟨.ofTurn i, lockstep_step hpos hstep, ?_⟩
  cases i with
  | thread w position => rfl
  | barrier => rfl

/-- The executable: 64 threads, of which the last is the parent of the barrier. -/
def Run (wl : Workload Key) (numEpoch : Nat) (s : RunTx.State (Key → Row) (Local Key))
    (log : List (Reading Key)) : Prop :=
  ((RunTx.system (runTx wl) (barriers numEpoch) 63).logged (RunTx.events 63 readingsIn)).Reachable
    (· = (RunTx.initial 63 (fun _ => loadedRow) (fun _ => ⟨⟨[], .start⟩, .idle⟩), [])) (s, log)

variable {numEpoch : Nat} {log : List (Reading Key)}
variable {s : RunTx.State (Key → Row) (Local Key)}

/-- The protocol's state in a run of the executable. -/
def viewOf (wl : Workload Key) (s : RunTx.State (Key → Row) (Local Key)) : State Key :=
  .ofLockstep (s.lockstep (runTx wl) 63)

theorem ofLockstep_initial : State.ofLockstep ⟨1, fun _ => loadedRow,
    fun w => (runTx wl).enter 1 w ⟨⟨[], .start⟩, .idle⟩⟩ = initial wl := by
  have he : RunTx.epochOf 3 1 = 1 := rfl
  have hp : phaseOf 1 = .write := rfl
  simp only [State.ofLockstep, State.ofLocals, initial, runTx, he, hp]

/-- A run of the executable is a run of the protocol with the same reads. -/
theorem Run.refines (h : Run wl numEpoch s log) :
    RunTx.Inv (runTx wl) (barriers numEpoch) 63 s ∧ ReadRun wl (viewOf wl s) log := by
  obtain ⟨hinv, hlog⟩ := RunTx.refines (barriers_alternate numEpoch) h
  refine ⟨hinv, ?_⟩
  have hread := lockstep_simulates.logged (fun _ hx => Lockstep.round_le hx) hlog
  rwa [ofLockstep_initial] at hread

/-- When the last call of the barrier returns, the last epoch is over. -/
theorem Run.last (h : Run wl numEpoch s log) (hpos : 0 < numEpoch)
    (hlast : s.barrier.parent.returned = 3 * numEpoch + 1) :
    ∃ t, ReadRun wl t log ∧ t.epoch = numEpoch ∧ t.phase = .execution ∧ t.finished = true ∧
      t.rows = s.memory := by
  obtain ⟨y, hy, hround, hmemory, hidle⟩ :=
    RunTx.last_round_over (barriers_alternate numEpoch) (barriers_calls numEpoch) (by omega) h
      hlast
  have hread := lockstep_simulates.logged (fun _ hx => Lockstep.round_le hx) hy
  rw [ofLockstep_initial] at hread
  obtain ⟨hepoch, hphase⟩ := @RunTx.last_round 3 numEpoch (by decide) hpos
  refine ⟨.ofLockstep y, hread, ?_, ?_, ?_, hmemory⟩
  · exact (congrArg (RunTx.epochOf 3) hround).trans hepoch
  · have hp : RunTx.phaseAt 3 (3 * numEpoch) = 2 := by omega
    change phaseOf y.round = .execution
    simp only [phaseOf, hround, hp]
  · exact State.finished_iff.mpr (fun w hw => (of_decide_eq_true (hidle w hw)).1)

/-- The reads of the executable, whatever its threads' interleaving, are those of the
serial execution of its epochs. -/
theorem runTx_serially (hpos : 0 < numEpoch) (h : Run wl numEpoch s log) :
    ReadRun wl (viewOf wl s) log ∧
    (log.map Reading.content).Subperm (wl.serialReadings (numEpoch * numTxsInOneEpoch)) ∧
    (s.Finished (barriers numEpoch) 63 →
      (log.map Reading.content).Perm (wl.serialReadings (numEpoch * numTxsInOneEpoch)) ∧
      ∀ k, ∃ m x, (s.memory k).wBitmap.master = some m ∧
        (s.memory k).heap.version m = ⟨some x, .stable⟩ ∧
        x.content = wl.store (numEpoch * numTxsInOneEpoch) k) := by
  obtain ⟨hinv, hrun⟩ := h.refines
  have hcalls := barriers_calls numEpoch
  have hlast : s.round = 3 * numEpoch + 1 → s.barrier.parent.returned = 3 * numEpoch + 1 := by
    unfold RunTx.State.round
    omega
  refine ⟨hrun, ?_, fun hfin => ?_⟩
  · rcases Nat.lt_or_eq_of_le (hinv.round_le hcalls (Nat.succ_pos _)) with hlt | heq
    · obtain ⟨_, hlog, hanswers⟩ := hrun.inv
      have hsub := hlog.subperm hanswers
      rw [wl.serialReadings_answer] at hsub
      have hle := RunTx.epochOf_le (by decide) hpos (Nat.le_of_lt_succ hlt)
      exact hsub.trans (wl.serialReadings_sublist (Nat.mul_le_mul_right _ hle)).subperm
    · obtain ⟨t, ht, he, hphase, hfinished, _⟩ := h.last hpos (hlast heq)
      rw [← he]
      exact (ht.finished hphase hfinished).1.subperm
  · obtain ⟨t, ht, he, hphase, hfinished, hrows⟩ :=
      h.last hpos (hlast (hinv.round_finished hcalls (Nat.succ_pos _) hfin))
    rw [← he, ← hrows]
    exact ht.finished hphase hfinished

end RunTx

section Run

/-- One epoch of a write and a read of it, by 64 threads from start to end. -/
def oneEpoch : List (RunTx.Choice Nat) :=
  RunTx.passBarrier Nat 63 ++ List.replicate 6 (.work 0 0) ++
    RunTx.passBarrier Nat 63 ++ List.replicate 7 (.work 0 0) ++
    RunTx.passBarrier Nat 63 ++ List.replicate 6 (.work 0 0) ++ List.replicate 8 (.work 1 0) ++
    RunTx.passBarrier Nat 63

theorem oneEpoch_runs : ∃ (s : RunTx.State (Unit → Row) (Local Unit)) (log : List (Reading Unit)),
    Run writeOnce 1 s log ∧ s.Finished (barriers 1) 63 ∧
      log = [⟨1, ⟨1, ⟨.read, ()⟩⟩, some (.written 1 0)⟩] := by
  have hstart : Run writeOnce 1
      (RunTx.initial 63 (fun _ => loadedRow) (fun _ => ⟨⟨[], .start⟩, .idle⟩)) [] := .start rfl
  have hrun : (((RunTx.system (runTx writeOnce) (barriers 1) 63).logged
      (RunTx.events 63 readingsIn)).run oneEpoch (RunTx.initial 63 (fun _ => loadedRow)
        (fun _ => ⟨⟨[], .start⟩, .idle⟩), [])).map
          (fun x => (decide (x.1.Finished (barriers 1) 63), x.2)) =
        some (true, [⟨1, ⟨1, ⟨.read, ()⟩⟩, some (.written 1 0)⟩]) := by
    decide +kernel
  obtain ⟨⟨s, log⟩, hs, hshow⟩ := TransitionSystem.Reachable.of_run_map hstart hrun
  obtain ⟨hfin, hlog⟩ := Prod.mk.inj hshow
  exact ⟨s, log, hs, of_decide_eq_true hfin, hlog⟩

theorem runTx_serially_oneEpoch : ∃ (s : RunTx.State (Unit → Row) (Local Unit))
    (log : List (Reading Unit)), Run writeOnce 1 s log ∧
      log = [⟨1, ⟨1, ⟨.read, ()⟩⟩, some (.written 1 0)⟩] ∧
      (log.map Reading.content).Perm (writeOnce.serialReadings (1 * numTxsInOneEpoch)) := by
  obtain ⟨s, log, hs, hfin, hlog⟩ := oneEpoch_runs
  exact ⟨s, log, hs, hlog, ((runTx_serially (by decide) hs).2.2 hfin).1⟩

end Run
end Mvdcc.Cheetah
