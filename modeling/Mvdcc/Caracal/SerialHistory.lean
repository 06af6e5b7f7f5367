import Mvdcc.Caracal.SerialReads
import Mvdcc.Common.ReadLog

namespace Mvdcc.Caracal
open Library

/-- What a call of `read` hands out when it returns. -/
def Pc.returned : Pc → Option (Option Rec)
  | .returning record => some record
  | _ => none

section SerialHistory
variable {Key : Type u} [DecidableEq Key] {wl : Workload Key} {cfg : Config} {s s' : State Key}
variable {w position : Nat} {c : Call Key} {rest : List (Call Key)} {log : List (Reading Key)}
variable {x : Key → Version} {e serial : Nat} {pc pc' : Pc} {r r' : Row} {i : Choice}

def State.readings (s : State Key) : Choice → List (Reading Key)
  | .worker w _ => if s.phase = .execution then readingOf Pc.returned s.epoch (s.workers w) else []
  | .barrier => []

/-- Whole runs with the log of what their reads have returned. -/
def ReadRun (cfg : Config) (wl : Workload Key) (s : State Key) (log : List (Reading Key)) : Prop :=
  ((system cfg (program wl)).logged (fun i s => s.readings i)).Reachable
    (· = (initial (program wl), [])) (s, log)

def State.ended (s : State Key) (c : Call Key) : Prop :=
  s.phase = .execution ∧ view .start .done owner s.workers c = .done

/-- A call of `read` ends with the step in which it returns. -/
theorem executionStep_returned (hok : ReaderOk r e serial pc)
    (h : executionStep e serial .read pc r = some (pc', r')) :
    pc' = .done ↔ pc.returned.isSome = true := by
  cases pc <;> simp only [ReaderOk] at hok <;> simp only [executionStep, reduceCtorEq] at h
  case start =>
    obtain ⟨_, _, he⟩ := Option.map_eq_some_iff.mp h
    cases he
    simp [Pc.returned]
  case waitStable v =>
    cases h
    split <;> simp [Pc.returned]
  all_goals
    cases h
    simp [Pc.returned]

theorem returned_eq_some {record : Option Rec} :
    pc.returned = some record ↔ pc = .returning record := by
  cases pc <;> simp [Pc.returned]

omit [DecidableEq Key] in
theorem readings_worker (hphase : s.phase = .execution) : s.readings (.worker w position) =
    readingOf Pc.returned s.epoch (s.workers w) := if_pos hphase

omit [DecidableEq Key] in
theorem readings_other (hphase : s.phase ≠ .execution) : s.readings i = [] := by
  cases i with
  | worker w position => exact if_neg hphase
  | barrier => rfl

theorem Reachable.running (hcore : cfg.numCore = 64) (h : Reachable cfg (program wl) s)
    (he : s.epoch < 2 ^ 32) (hphase : s.phase = .execution) :
    Running wl (fun k => baseOf wl k s.epoch) s := by
  have hrun := (h.inv hcore he).phase
  unfold PhaseInv at hrun
  rwa [hphase] at hrun

/-- The call that a worker of the execution phase is in. -/
theorem Running.head (h : Running wl x s) (htodo : (s.workers w).todo = c :: rest) :
    c.serial < numTxsInOneEpoch ∧ c.operation ∈ wl.rwSet s.epoch c.serial ∧
      ((s.workers w).pc.returned.isSome = true → c.operation.ope = .read) ∧
      (c.operation.ope = .read → ReaderOk (s.rows c.index) s.epoch c.serial (s.workers w).pc) := by
  have hplace := place_head h.remaining htodo
  have hmem := h.remaining.mem htodo
  rw [← (program_assigned wl .execution s.epoch).owned w c hmem] at hmem
  obtain ⟨hlt, hop, _⟩ := mem_program.mp hmem
  refine ⟨hlt, hop, fun hret => ?_, fun hope => ?_⟩
  · cases hope : c.operation.ope with
    | read => rfl
    | update =>
      rw [c.eta, hope] at hmem
      obtain ⟨p, _, hok⟩ := (h.rows c.index).writers c.serial (writer_mem_program.mp hmem)
      obtain ⟨record, hret⟩ := Option.isSome_iff_exists.mp hret
      rw [hope, returned_eq_some.mp hret] at hplace
      rw [hplace] at hok
      exact hok.elim
  · have hok := h.readers c.index c.serial
    rw [hope] at hplace
    rwa [hplace] at hok

/-- A returning read hands out the record of the serial execution. -/
theorem readings_serially (hcore : cfg.numCore = 64) (h : Reachable cfg (program wl) s)
    (he : s.epoch < 2 ^ 32) : Answers wl.serially (s.readings i) := by
  intro y hy
  cases i with
  | barrier => cases hy
  | worker w position =>
    by_cases hphase : s.phase = .execution
    · rw [readings_worker hphase] at hy
      obtain ⟨c, rest, record, htodo, hret, rfl⟩ := mem_readingOf.mp hy
      have hrun := h.running hcore he hphase
      obtain ⟨hlt, _, hope, hok⟩ := hrun.head htodo
      have hread := hok (hope (by rw [hret]; rfl))
      rw [returned_eq_some.mp hret] at hread
      obtain ⟨v, hv, hst, rfl⟩ := hread
      have hepoch := (h.inv hcore he).epoch
      obtain ⟨_, x, hx, hlast⟩ := (hrun.rows c.index).reads_last hepoch hlt hv hst
      rw [hx, Option.map_some, wl.store_of_readsLast hepoch hlt hlast]
      rfl
    · rw [readings_other hphase] at hy
      cases hy

theorem ended_other (hphase : s.phase ≠ .execution) (c : Call Key) : s.ended c ↔ False :=
  iff_false_intro (fun h => hphase h.1)

/-- Outside of the execution phase nothing is logged. -/
theorem LogsReads.quiet (h : LogsReads wl s.epoch s.ended log) (hepoch : s'.epoch = s.epoch)
    (hp : s.phase ≠ .execution) (hp' : s'.phase ≠ .execution) :
    LogsReads wl s'.epoch s'.ended (log ++ s.readings i) := by
  rw [readings_other hp, List.append_nil, hepoch]
  exact h.congr (fun c _ _ => (ended_other hp' c).trans (ended_other hp c).symm)

/-- A worker's step in the execution phase logs the read that returns in it. -/
theorem LogsReads.execute (h : LogsReads wl s.epoch s.ended log) (hrun : Running wl x s)
    (hphase : s.phase = .execution) (he : 1 ≤ s.epoch)
    (hstep : step cfg (program wl) (.worker w position) s = some s') :
    LogsReads wl s'.epoch s'.ended (log ++ s.readings (.worker w position)) := by
  have hasg := program_assigned wl .execution s.epoch
  rw [readings_worker hphase]
  obtain ⟨_, ⟨c, rest, htodo, hpc, rfl⟩ | ⟨_, hp, _⟩ | ⟨c, rest, pc, m, htodo, hcall, rfl⟩⟩ :=
    worker_cases hstep
  · have hview : view Pc.start .done owner (s.return w rest).workers =
        view .start .done owner s.workers := view_return hasg hrun.remaining htodo hpc
    have hnil : readingOf Pc.returned s.epoch (s.workers w) = [] := by
      rw [readingOf_head htodo, hpc]
      rfl
    rw [hnil, List.append_nil]
    refine h.congr (fun c' _ _ => ?_)
    unfold State.ended
    rw [hview]
    rfl
  · rw [hphase] at hp
    cases hp
  · obtain ⟨hlt, hop, hupdate, hread⟩ := hrun.head htodo
    have hview : LogsReads wl s.epoch (fun c => view .start .done owner s.workers c = .done) log :=
      h.congr (fun c _ _ => (and_iff_right hphase).symm)
    simp only [callStep, hphase] at hcall
    obtain ⟨⟨pc', row⟩, hexec, hpair⟩ := Option.map_eq_some_iff.mp hcall
    cases hpair
    have hd : (s.workers w).pc ≠ .done := by
      intro hpc
      simp only [hpc, executionStep, reduceCtorEq] at hexec
    refine (hview.advance hasg hrun.remaining htodo hd he hlt hop hupdate
      (fun hope => ?_)).congr (fun c' _ _ => and_iff_right hphase)
    rw [hope] at hexec
    exact executionStep_returned (hread hope) hexec

/-- A worker's step in the initialization phase. -/
theorem worker_keeps (h : step cfg (program wl) (.worker w position) s = some s') :
    s'.epoch = s.epoch ∧ s'.phase = s.phase := by
  obtain ⟨_, ⟨c, rest, _, _, rfl⟩ | ⟨_, _, hfin⟩ | ⟨c, rest, pc, m, _, _, rfl⟩⟩ := worker_cases h
  · exact ⟨rfl, rfl⟩
  · rcases finalize_cases hfin with ⟨f, _, _, _, rfl⟩ | ⟨k, b, rest, rwl, _, _, _, _, rfl⟩ |
      ⟨k, b, _, rfl⟩ | ⟨k, _, rfl⟩ <;> exact ⟨rfl, rfl⟩
  · exact ⟨rfl, rfl⟩

/-- The barrier opens an epoch's execution phase, or ends it with every read logged. -/
theorem LogsReads.barrier (h : LogsReads wl s.epoch s.ended log)
    (hall : ∀ w < 64, (s.workers w).todo = []) (hs' : s' = match s.phase with
      | .initialization => s.enter (program wl) .execution s.epoch
      | .execution => s.enter (program wl) .initialization (s.epoch + 1)) :
    LogsReads wl s'.epoch s'.ended (log ++ s.readings .barrier) := by
  rw [show s.readings .barrier = [] from rfl, List.append_nil]
  subst hs'
  cases hphase : s.phase with
  | initialization =>
    refine h.congr (fun c hlt hop => iff_of_false ?_ ?_)
    · rintro ⟨_, hdone⟩
      have hmem : c ∈ program wl .execution s.epoch (owner c.serial) :=
        mem_program.mpr ⟨hlt, (wl.mem_rSet.mp hop).1, by simp⟩
      have hstart : view Pc.start .done owner (s.enter (program wl) .execution s.epoch).workers c =
          .start := view_enter hmem
      rw [hstart] at hdone
      cases hdone
    · rintro ⟨hp, _⟩
      rw [hphase] at hp
      cases hp
  | execution =>
    have hover : ∀ c : Call Key, s.ended c := fun c =>
      ⟨hphase, view_finished (hall _ (Nat.mod_lt _ (by omega)))⟩
    refine (h.close (fun c _ _ => hover c)).congr (fun c _ _ => ?_)
    exact ended_other (fun hp => by cases hp) c

/-- The log keeps up with every step. -/
theorem LogsReads.step (hcore : cfg.numCore = 64) (h : LogsReads wl s.epoch s.ended log)
    (hr : Reachable cfg (program wl) s) (he : s.epoch < 2 ^ 32)
    (hstep : step cfg (program wl) i s = some s') :
    LogsReads wl s'.epoch s'.ended (log ++ s.readings i) := by
  cases i with
  | worker w position =>
    by_cases hphase : s.phase = .execution
    · exact LogsReads.execute h (hr.running hcore he hphase) hphase (hr.inv hcore he).epoch hstep
    · obtain ⟨hepoch, hp⟩ := worker_keeps hstep
      exact LogsReads.quiet h hepoch hphase (hp ▸ hphase)
  | barrier =>
    simp only [Caracal.step] at hstep
    split at hstep
    · rename_i hall
      exact LogsReads.barrier h (fun w hw => (hall w (hcore ▸ hw)).1) (Option.some.inj hstep).symm
    · cases hstep

/-- Epochs only grow. -/
theorem step_epoch_le (hstep : step cfg (program wl) i s = some s') : s.epoch ≤ s'.epoch := by
  rcases step_phase hstep with ⟨_, he⟩ | ⟨_, ⟨_, rfl⟩ | ⟨_, rfl⟩⟩
  · exact Nat.le_of_eq he.symm
  · exact Nat.le_refl _
  · exact Nat.le_succ _

/-- What a run's log is, and that its answers are the serial ones. -/
theorem ReadRun.inv (hcore : cfg.numCore = 64) (h : ReadRun cfg wl s log) (he : s.epoch < 2 ^ 32) :
    Reachable cfg (program wl) s ∧ LogsReads wl s.epoch s.ended log ∧ Answers wl.serially log := by
  suffices hx : ∀ x : State Key × List (Reading Key), ((system cfg (program wl)).logged
      (fun i s => s.readings i)).Reachable (· = (initial (program wl), [])) x →
        Reachable cfg (program wl) x.1 ∧ (x.1.epoch < 2 ^ 32 →
          LogsReads wl x.1.epoch x.1.ended x.2 ∧ Answers wl.serially x.2) from
    ⟨(hx (s, log) h).1, (hx (s, log) h).2 he⟩
  intro x hx
  induction hx with
  | start hx =>
    subst hx
    refine ⟨.start rfl, fun _ => ⟨?_, fun y hy => by cases hy⟩⟩
    exact LogsReads.start.congr (fun c _ _ => ended_other (by simp [initial]) c)
  | @next x y i _ hstep ih =>
    obtain ⟨hr, hkept⟩ := ih
    obtain ⟨hs, hlog⟩ := TransitionSystem.logged_step hstep
    refine ⟨.next i hr hs, fun hlt => ?_⟩
    have hlt' : x.1.epoch < 2 ^ 32 := Nat.lt_of_le_of_lt (step_epoch_le hs) hlt
    obtain ⟨hread, hanswers⟩ := hkept hlt'
    rw [hlog]
    exact ⟨LogsReads.step hcore hread hr hlt' hs, hanswers.append (readings_serially hcore hr hlt')⟩

/-- What a finished epoch has logged, and what it leaves. -/
theorem ReadRun.finished (hcore : cfg.numCore = 64) (h : ReadRun cfg wl s log)
    (he : s.epoch < 2 ^ 32) (hphase : s.phase = .execution)
    (hall : ∀ w < 64, (s.workers w).todo = []) :
    (log.map Reading.content).Perm (wl.serialReadings (s.epoch * numTxsInOneEpoch)) ∧
      ∀ k, ∃ last x, (s.rows k).globalArray.idsSlots.getLast? = some last ∧
        (s.rows k).heap.version last.2 = ⟨some x, .stable⟩ ∧
        x.content = wl.store (s.epoch * numTxsInOneEpoch) k := by
  obtain ⟨hr, hlog, hanswers⟩ := h.inv hcore he
  have hperm := hlog.perm hanswers (fun c _ _ =>
    ⟨hphase, view_finished (hall _ (Nat.mod_lt _ (by omega)))⟩)
  rw [wl.serialReadings_answer] at hperm
  refine ⟨hperm, fun k => ?_⟩
  have hrow := (hr.running hcore he hphase).rows k
  obtain ⟨first, hfirst, _⟩ := hrow.base
  have hne : (s.rows k).globalArray.idsSlots ≠ [] := List.ne_nil_of_mem hfirst
  have hlast := List.getLast?_eq_some_getLast hne
  exact ⟨_, _, hlast, hrow.last_version (hr.inv hcore he).epoch
    (place_finished hall k .update) hlast, wl.store_after k s.epoch⟩

/-- Whatever the interleaving and the size of the buffers, the reads of a run return what
the transactions read when they run one after the other, and the last version of a row
after an epoch has the record of that execution. -/
theorem answers_serially (hcore : cfg.numCore = 64) (h : ReadRun cfg wl s log)
    (he : s.epoch < 2 ^ 32) :
    (log.map Reading.content).Subperm (wl.serialReadings (s.epoch * numTxsInOneEpoch)) ∧
    (s.phase = .execution → (∀ w < 64, (s.workers w).todo = []) →
      (log.map Reading.content).Perm (wl.serialReadings (s.epoch * numTxsInOneEpoch)) ∧
      ∀ k, ∃ last x, (s.rows k).globalArray.idsSlots.getLast? = some last ∧
        (s.rows k).heap.version last.2 = ⟨some x, .stable⟩ ∧
        x.content = wl.store (s.epoch * numTxsInOneEpoch) k) := by
  obtain ⟨_, hlog, hanswers⟩ := h.inv hcore he
  have hsub := hlog.subperm hanswers
  rw [wl.serialReadings_answer] at hsub
  exact ⟨hsub, h.finished hcore he⟩

end SerialHistory

section Run

/-- The first of the two epochs to its end. -/
def firstEpoch : List Choice := readNextEpoch.take 14

/-- The run of two epochs to its end. -/
def bothEpochs : List Choice := readNextEpoch ++ List.replicate 2 (.worker 0 0)

theorem runs_showing {schedule : List Choice} {x : Nat × Phase × Bool × List (Reading Unit)}
    (hrun : (((system ⟨64, 4, 1, true⟩ (program writeOnce)).logged
      (fun i s => s.readings i)).run schedule (initial (program writeOnce), [])).map
        (fun x => (x.1.epoch, x.1.phase,
          (List.range 64).all (fun w => (x.1.workers w).todo.isEmpty), x.2)) = some x) :
    ∃ (s : State Unit) (log : List (Reading Unit)), ReadRun ⟨64, 4, 1, true⟩ writeOnce s log ∧
      s.epoch = x.1 ∧ s.phase = x.2.1 ∧
        (x.2.2.1 = true → ∀ w < 64, (s.workers w).todo = []) ∧ log = x.2.2.2 := by
  have hstart : ReadRun ⟨64, 4, 1, true⟩ writeOnce (initial (program writeOnce)) [] := .start rfl
  obtain ⟨⟨s, log⟩, hs, rfl⟩ := TransitionSystem.Reachable.of_run_map hstart hrun
  exact ⟨s, log, hs, rfl, rfl, by simp, rfl⟩

theorem firstEpoch_runs : ∃ (s : State Unit) (log : List (Reading Unit)),
    ReadRun ⟨64, 4, 1, true⟩ writeOnce s log ∧ s.epoch = 1 ∧ s.phase = .execution ∧
      ∀ w < 64, (s.workers w).todo = [] := by
  have hrun : (((system ⟨64, 4, 1, true⟩ (program writeOnce)).logged
      (fun i s => s.readings i)).run firstEpoch (initial (program writeOnce), [])).map
        (fun x => (x.1.epoch, x.1.phase,
          (List.range 64).all (fun w => (x.1.workers w).todo.isEmpty), x.2)) =
      some (1, .execution, true, [⟨1, ⟨1, ⟨.read, ()⟩⟩, some (.written 1 0)⟩]) := by
    decide +kernel
  obtain ⟨s, log, hs, he, hphase, hfin, _⟩ := runs_showing hrun
  exact ⟨s, log, hs, he, hphase, hfin rfl⟩

theorem answers_serially_bothEpochs : ∃ (s : State Unit) (log : List (Reading Unit)),
    ReadRun ⟨64, 4, 1, true⟩ writeOnce s log ∧
      log = [⟨1, ⟨1, ⟨.read, ()⟩⟩, some (.written 1 0)⟩, ⟨2, ⟨0, ⟨.read, ()⟩⟩, some (.written 1 0)⟩] ∧
      (log.map Reading.content).Perm (writeOnce.serialReadings (2 * numTxsInOneEpoch)) := by
  have hrun : (((system ⟨64, 4, 1, true⟩ (program writeOnce)).logged
      (fun i s => s.readings i)).run bothEpochs (initial (program writeOnce), [])).map
        (fun x => (x.1.epoch, x.1.phase,
          (List.range 64).all (fun w => (x.1.workers w).todo.isEmpty), x.2)) =
      some (2, .execution, true, [⟨1, ⟨1, ⟨.read, ()⟩⟩, some (.written 1 0)⟩,
        ⟨2, ⟨0, ⟨.read, ()⟩⟩, some (.written 1 0)⟩]) := by
    decide +kernel
  obtain ⟨s, log, hs, he, hphase, hfin, hlog⟩ := runs_showing hrun
  obtain ⟨hperm, _⟩ := (answers_serially rfl hs (by rw [he]; decide)).2 hphase (hfin rfl)
  rw [he] at hperm
  exact ⟨s, log, hs, hlog, hperm⟩

end Run
end Mvdcc.Caracal
