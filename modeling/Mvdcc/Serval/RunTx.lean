import Mvdcc.Common.RunTx
import Mvdcc.Serval.SerialHistory

namespace Mvdcc.Serval
open Library

section RunTx
variable {Key : Type u} [DecidableEq Key]

/-- What the workers share; of its own a worker has its calls only. -/
structure Shared (Key : Type u) where
  rows : Key → Row
  controller : RowRegionController

def Shared.memory (x : Shared Key) (k : Key) : Memory :=
  { x.rows k with controller := x.controller }

def phaseOf (round : Nat) : Phase :=
  match RunTx.phaseAt 2 round with
  | 0 => .initialization
  | _ => .execution

def State.ofLocals (round : Nat) (shared : Shared Key)
    (workers : Nat → Thread (Call Key) Pc) : State Key where
  epoch := RunTx.epochOf 2 round
  phase := phaseOf round
  workers
  rows := shared.rows
  controller := shared.controller

/-- A worker that is alone in its round does what the protocol does. -/
def runTx (wl : Workload Key) (numRegions : Nat) :
    Phased (Shared Key) (Thread (Call Key) Pc) Unit where
  work round w _ shared l :=
    (step wl numRegions (.worker w) (.ofLocals round shared (fun _ => l))).map
      (fun s => (⟨s.rows, s.controller⟩, s.workers w))
  enter round w _ := ⟨program wl (phaseOf round) (RunTx.epochOf 2 round) w, .start⟩
  idle l := l.todo.isEmpty
  enter_enter _ _ _ _ := rfl

def barriers (numEpoch : Nat) : Barrier.Schedule :=
  RunTx.barriers [.execPhase, .newEpoc] numEpoch

theorem barriers_alternate (numEpoch : Nat) : (barriers numEpoch).Alternates :=
  RunTx.barriers_alternate (by decide) (by decide) (by decide)

theorem barriers_calls (numEpoch : Nat) : (barriers numEpoch).calls = some (2 * numEpoch + 1) := rfl

variable {wl : Workload Key} {numRegions : Nat} {s s' t : State Key} {w : Nat}

structure SameTo (w : Nat) (s t : State Key) : Prop where
  epoch : t.epoch = s.epoch
  phase : t.phase = s.phase
  rows : t.rows = s.rows
  controller : t.controller = s.controller
  worker : t.workers w = s.workers w

/-- What a worker's step from `s` to `s'` does in another state. -/
def State.moved (t s' : State Key) (w : Nat) : State Key :=
  { t with
    workers := Function.update t.workers w (s'.workers w)
    rows := s'.rows
    controller := s'.controller }

/-- What a worker does depends on no other worker. -/
theorem worker_step_local (h : SameTo w s t) (hstep : step wl numRegions (.worker w) s = some s') :
    step wl numRegions (.worker w) t = some (t.moved s' w) := by
  simp only [step, h.worker] at hstep ⊢
  cases htodo : (s.workers w).todo with
  | nil =>
    rw [htodo] at hstep
    cases hstep
  | cons c rest =>
    simp only [htodo] at hstep ⊢
    split at hstep
    · rename_i hpc
      cases hstep
      simp [hpc, State.moved, ← h.rows, ← h.controller]
    · rename_i hpc
      rw [if_neg hpc]
      obtain ⟨⟨pc, m⟩, hcall, rfl⟩ := Option.map_eq_some_iff.mp hstep
      have hmemory : t.memory c.index = s.memory c.index := by
        simp only [State.memory, h.rows, h.controller]
      have hcall' : callStep numRegions t w c (s.workers w).pc (t.memory c.index) =
          some (pc, m) := by
        rw [hmemory, ← hcall]
        simp only [callStep, h.phase, h.epoch]
      rw [hcall']
      simp [State.advance, State.moved, h.worker, h.rows]

/-- The threads in lockstep, as the protocol has them. -/
def State.ofLockstep (x : Lockstep (Shared Key) (Thread (Call Key) Pc)) : State Key :=
  .ofLocals x.round x.memory x.locals

def Choice.ofTurn : Library.Turn Unit → Choice
  | .thread w _ => .worker w
  | .barrier => .barrier

theorem next_round {k : Nat} (hk : 1 ≤ k) : (phaseOf (k + 1), RunTx.epochOf 2 (k + 1)) =
    match phaseOf k with
    | .initialization => (.execution, RunTx.epochOf 2 k)
    | .execution => (.initialization, RunTx.epochOf 2 k + 1) := by
  have hlt := RunTx.phaseAt_lt (k := k) (show 0 < 2 by decide)
  unfold phaseOf
  rcases (by omega : RunTx.phaseAt 2 k = 0 ∨ RunTx.phaseAt 2 k = 1) with h | h
  · obtain ⟨hp, he⟩ := RunTx.next_phase hk (by omega : RunTx.phaseAt 2 k + 1 < 2)
    simp only [hp, he, h]
  · obtain ⟨hp, he⟩ := RunTx.next_epoch hk (by omega : RunTx.phaseAt 2 k + 1 = 2)
    simp only [hp, he, h]

/-- The threads in lockstep take the steps of the protocol. -/
theorem lockstep_step {x y : Lockstep (Shared Key) (Thread (Call Key) Pc)} {i : Library.Turn Unit}
    (hpos : 1 ≤ x.round) (h : Lockstep.step (runTx wl numRegions) 64 i x = some y) :
    step wl numRegions (.ofTurn i) (.ofLockstep x) = some (.ofLockstep y) := by
  cases i with
  | thread w i =>
    simp only [Lockstep.step, Option.ite_none_right_eq_some, Option.map_eq_some_iff] at h
    obtain ⟨_, ⟨shared, l⟩, hwork, rfl⟩ := h
    obtain ⟨s, hs, he⟩ := Option.map_eq_some_iff.mp hwork
    obtain ⟨rfl, rfl⟩ := Prod.mk.inj he
    have hsame : SameTo w (.ofLocals x.round x.memory (fun _ => x.locals w)) (.ofLockstep x) :=
      ⟨rfl, rfl, rfl, rfl, rfl⟩
    exact worker_step_local hsame hs
  | barrier =>
    simp only [Lockstep.step, Option.ite_none_right_eq_some, Option.some.injEq] at h
    obtain ⟨hidle, rfl⟩ := h
    have hall : ∀ w < 64, ((State.ofLockstep x).workers w).todo = [] :=
      fun w hw => List.isEmpty_iff.mp (hidle w hw)
    have henter : ∀ phase epoch, (phaseOf (x.round + 1), RunTx.epochOf 2 (x.round + 1)) =
        (phase, epoch) → (State.ofLockstep x).enter wl phase epoch =
          .ofLockstep (x.enter (runTx wl numRegions) (x.round + 1)) := by
      rintro _ _ ⟨⟩
      rfl
    have hnext := next_round hpos
    simp only [Choice.ofTurn, step, if_pos hall, Option.some.injEq]
    split
    · rename_i hphase
      exact henter _ _ (hnext.trans (by rw [show phaseOf x.round = _ from hphase]; rfl))
    · rename_i hphase
      exact henter _ _ (hnext.trans (by rw [show phaseOf x.round = _ from hphase]; rfl))

def readingsIn (round : Nat) (l : Thread (Call Key) Pc) : List (Reading Key) :=
  if phaseOf round = .execution then readingOf Pc.returned (RunTx.epochOf 2 round) l else []

theorem lockstep_simulates : Simulates (Lockstep.system (runTx wl numRegions) 64)
    (system wl numRegions) (Lockstep.events readingsIn) (fun i s => s.readings i) (1 ≤ ·.round)
    .ofLockstep := by
  intro i x y hpos hstep
  refine Or.inr ⟨.ofTurn i, lockstep_step hpos hstep, ?_⟩
  cases i with
  | thread w i => rfl
  | barrier => rfl

def loadedShared : Shared Key := ⟨fun _ => loadedRow, ⟨fun _ => RowRegion.fresh, {}, 0⟩⟩

/-- The executable: 64 threads, of which the last is the parent of the barrier. -/
def Run (wl : Workload Key) (numRegions numEpoch : Nat)
    (s : RunTx.State (Shared Key) (Thread (Call Key) Pc)) (log : List (Reading Key)) : Prop :=
  ((RunTx.system (runTx wl numRegions) (barriers numEpoch) 63).logged
    (RunTx.events 63 readingsIn)).Reachable
      (· = (RunTx.initial 63 loadedShared (fun _ => ⟨[], .start⟩), [])) (s, log)

variable {numEpoch : Nat} {log : List (Reading Key)}
variable {s : RunTx.State (Shared Key) (Thread (Call Key) Pc)}

/-- The protocol's state in a run of the executable. -/
def viewOf (wl : Workload Key) (numRegions : Nat)
    (s : RunTx.State (Shared Key) (Thread (Call Key) Pc)) : State Key :=
  .ofLockstep (s.lockstep (runTx wl numRegions) 63)

theorem ofLockstep_initial : State.ofLockstep ⟨1, loadedShared,
    fun w => (runTx wl numRegions).enter 1 w ⟨[], .start⟩⟩ = initial wl := by
  have he : RunTx.epochOf 2 1 = 1 := rfl
  have hp : phaseOf 1 = .initialization := rfl
  simp only [State.ofLockstep, State.ofLocals, initial, runTx, loadedShared, he, hp]

/-- A run of the executable is a run of the protocol with the same reads. -/
theorem Run.refines (h : Run wl numRegions numEpoch s log) :
    RunTx.Inv (runTx wl numRegions) (barriers numEpoch) 63 s ∧
      ReadRun wl numRegions (viewOf wl numRegions s) log := by
  obtain ⟨hinv, hlog⟩ := RunTx.refines (barriers_alternate numEpoch) h
  refine ⟨hinv, ?_⟩
  have hread := lockstep_simulates.logged (fun _ hx => Lockstep.round_le hx) hlog
  rwa [ofLockstep_initial] at hread

/-- When the last call of the barrier returns, the last epoch is over. -/
theorem Run.last (h : Run wl numRegions numEpoch s log) (hpos : 0 < numEpoch)
    (hlast : s.barrier.parent.returned = 2 * numEpoch + 1) :
    ∃ t, ReadRun wl numRegions t log ∧ t.epoch = numEpoch ∧ t.phase = .execution ∧
      t.finished = true ∧ t.rows = s.memory.rows ∧ ∀ k, t.own k = (s.memory.memory k).own := by
  obtain ⟨y, hy, hround, hmemory, hidle⟩ := RunTx.last_round_over (barriers_alternate numEpoch)
    (barriers_calls numEpoch) (by omega) h hlast
  have hread := lockstep_simulates.logged (fun _ hx => Lockstep.round_le hx) hy
  rw [ofLockstep_initial] at hread
  obtain ⟨hepoch, hphase⟩ := @RunTx.last_round 2 numEpoch (by decide) hpos
  refine ⟨.ofLockstep y, hread, ?_, ?_, ?_, congrArg Shared.rows hmemory, ?_⟩
  · exact (congrArg (RunTx.epochOf 2) hround).trans hepoch
  · have hp : RunTx.phaseAt 2 (2 * numEpoch) = 1 := by omega
    change phaseOf y.round = .execution
    simp only [phaseOf, hround, hp]
  · exact State.finished_iff.mpr (fun w hw => List.isEmpty_iff.mp (hidle w hw))
  · intro k
    rw [← hmemory]
    rfl

/-- The reads of the executable, whatever its threads' interleaving, are the answers that
lag behind, and the last version of every row is that of the serial execution. -/
theorem runTx_lagging_behind (hpos : 0 < numEpoch) (h : Run wl numRegions numEpoch s log) :
    ReadRun wl numRegions (viewOf wl numRegions s) log ∧
    (log.map Reading.content).Subperm ((wl.serialReadings (numEpoch * numTxsInOneEpoch)).map
      (Reading.answer wl.laggingBehind)) ∧
    (s.Finished (barriers numEpoch) 63 →
      (log.map Reading.content).Perm ((wl.serialReadings (numEpoch * numTxsInOneEpoch)).map
        (Reading.answer wl.laggingBehind)) ∧
      ∀ k, ∃ last x, (contents (s.memory.rows k) (s.memory.memory k).own).getLast? = some last ∧
        (s.memory.rows k).heap.version last.2 = ⟨some x, .stable⟩ ∧
        x.content = wl.store (numEpoch * numTxsInOneEpoch) k) := by
  obtain ⟨hinv, hrun⟩ := h.refines
  have hcalls := barriers_calls numEpoch
  have hlast : s.round = 2 * numEpoch + 1 → s.barrier.parent.returned = 2 * numEpoch + 1 := by
    unfold RunTx.State.round
    omega
  refine ⟨hrun, ?_, fun hfin => ?_⟩
  · rcases Nat.lt_or_eq_of_le (hinv.round_le hcalls (Nat.succ_pos _)) with hbefore | heq
    · have hle := RunTx.epochOf_le (by decide) hpos (Nat.le_of_lt_succ hbefore)
      obtain ⟨_, hlog, hanswers⟩ := hrun.inv
      have hlater := wl.serialReadings_sublist (Nat.mul_le_mul_right numTxsInOneEpoch hle)
      exact (hlog.subperm hanswers).trans (hlater.map _).subperm
    · obtain ⟨t, ht, he, hphase, hfinished, _⟩ := h.last hpos (hlast heq)
      rw [← he]
      exact (ht.finished hphase hfinished).1.subperm
  · obtain ⟨t, ht, he, hphase, hfinished, hrows, hown⟩ :=
      h.last hpos (hlast (hinv.round_finished hcalls (Nat.succ_pos _) hfin))
    obtain ⟨hperm, hlasts⟩ := ht.finished hphase hfinished
    refine ⟨he ▸ hperm, fun k => ?_⟩
    have hk := hlasts k
    rwa [hrows, hown, he] at hk

end RunTx

section Run

/-- Two epochs of a write and of two reads of it, by 64 threads from start to end. -/
def twoEpochs : List (RunTx.Choice Unit) :=
  RunTx.passBarrier Unit 63 ++ List.replicate 8 (.work 0 ()) ++
    RunTx.passBarrier Unit 63 ++ List.replicate 3 (.work 0 ()) ++
    List.replicate 5 (.work 1 ()) ++ RunTx.passBarrier Unit 63 ++
    RunTx.passBarrier Unit 63 ++ List.replicate 4 (.work 0 ()) ++ RunTx.passBarrier Unit 63

theorem twoEpochs_run : ∃ (s : RunTx.State (Shared Unit) (Thread (Call Unit) Pc))
    (log : List (Reading Unit)), Run writeOnce 1 2 s log ∧ s.Finished (barriers 2) 63 ∧
      log = [⟨1, ⟨1, ⟨.read, ()⟩⟩, some (.written 1 0)⟩,
        ⟨2, ⟨0, ⟨.read, ()⟩⟩, some (.loaded 0)⟩] := by
  have hstart : Run writeOnce 1 2
      (RunTx.initial 63 loadedShared (fun _ => ⟨[], .start⟩)) [] := .start rfl
  have hrun : (((RunTx.system (runTx writeOnce 1) (barriers 2) 63).logged
      (RunTx.events 63 readingsIn)).run twoEpochs
        (RunTx.initial 63 loadedShared (fun _ => ⟨[], .start⟩), [])).map
          (fun x => (decide (x.1.Finished (barriers 2) 63), x.2)) =
        some (true, [⟨1, ⟨1, ⟨.read, ()⟩⟩, some (.written 1 0)⟩,
          ⟨2, ⟨0, ⟨.read, ()⟩⟩, some (.loaded 0)⟩]) := by
    decide +kernel
  obtain ⟨⟨s, log⟩, hs, hshow⟩ := TransitionSystem.Reachable.of_run_map hstart hrun
  obtain ⟨hfin, hlog⟩ := Prod.mk.inj hshow
  exact ⟨s, log, hs, of_decide_eq_true hfin, hlog⟩

theorem runTx_lagging_behind_twoEpochs : ∃ (s : RunTx.State (Shared Unit) (Thread (Call Unit) Pc))
    (log : List (Reading Unit)), Run writeOnce 1 2 s log ∧
      log = [⟨1, ⟨1, ⟨.read, ()⟩⟩, some (.written 1 0)⟩,
        ⟨2, ⟨0, ⟨.read, ()⟩⟩, some (.loaded 0)⟩] ∧
      (log.map Reading.content).Perm ((writeOnce.serialReadings (2 * numTxsInOneEpoch)).map
        (Reading.answer writeOnce.laggingBehind)) := by
  obtain ⟨s, log, hs, hfin, hlog⟩ := twoEpochs_run
  exact ⟨s, log, hs, hlog, ((runTx_lagging_behind (by decide) hs).2.2 hfin).1⟩

end Run
end Mvdcc.Serval
