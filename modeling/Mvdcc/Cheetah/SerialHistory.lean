import Mvdcc.Cheetah.SerialReads
import Mvdcc.Common.ReadLog

namespace Mvdcc.Cheetah
open Library

/-- What a call of `read` hands out when it returns. -/
def Pc.returned : Pc → Option (Option Rec)
  | .returning record => some record
  | _ => none

section SerialHistory
variable {Key : Type u} [DecidableEq Key] {wl : Workload Key} {s s' : State Key}
variable {w position : Nat} {c : Call Key} {rest : List (Call Key)} {log : List (Reading Key)}
variable {e core serial : Nat} {pc pc' : Pc} {r r' : Row} {i : Choice}

def State.readings (s : State Key) : Choice → List (Reading Key)
  | .worker w _ => if s.phase = .execution then readingOf Pc.returned s.epoch (s.workers w) else []
  | .barrier => []

/-- Whole runs with the log of what their reads have returned. -/
def ReadRun (wl : Workload Key) (s : State Key) (log : List (Reading Key)) : Prop :=
  ((system wl).logged (fun i s => s.readings i)).Reachable (· = (initial wl, [])) (s, log)

def State.ended (s : State Key) (c : Call Key) : Prop := s.phase = .execution ∧ s.at c = .done

/-- A call of `read` ends with the step in which it returns. -/
theorem executionStep_returned (hok : ReaderOk e r serial pc)
    (h : executionStep e core serial .read pc r = some (pc', r')) :
    pc' = .done ↔ pc.returned.isSome = true := by
  cases pc <;> simp only [ReaderOk] at hok <;> simp only [executionStep, reduceCtorEq] at h
  case start =>
    split at h
    · cases h
      split <;> simp [Pc.returned]
    · cases h
  case decrement record =>
    cases h
    split <;> simp [Pc.returned]
  case lastLock record =>
    obtain ⟨_, _, rfl, _⟩ := Row.lock_step h
    simp [Pc.returned]
  all_goals
    cases h
    simp [Pc.returned]

theorem returned_eq_some {record : Option Rec} :
    pc.returned = some record ↔ pc = .returning record := by
  cases pc <;> simp [Pc.returned]

omit [DecidableEq Key] in
theorem readings_worker (hphase : s.phase = .execution) : s.readings (.worker w position) =
    readingOf Pc.returned s.epoch (s.workers w) := if_pos hphase

omit [DecidableEq Key] in
theorem readings_other (hphase : s.phase ≠ .execution) : s.readings i = [] := by
  cases i with
  | worker w position => exact if_neg hphase
  | barrier => rfl

/-- The call that a worker of the execution phase is in. -/
theorem call_of_head (h : Reachable wl s) (hphase : s.phase = .execution)
    (htodo : (s.workers w).todo = c :: rest) :
    ((s.workers w).pc.returned.isSome = true → c.operation.ope = .read) ∧
      (c.operation.ope = .read → ReaderOk s.epoch (s.rows c.index) c.serial (s.workers w).pc) := by
  obtain ⟨hlt, hop, m, hrow⟩ := executing_of_head h hphase htodo
  constructor
  · intro hret
    obtain ⟨record, hret⟩ := Option.isSome_iff_exists.mp hret
    obtain ⟨hR, _⟩ := returning_ok h hphase htodo (returned_eq_some.mp hret)
    exact congrArg Operation.ope (wl.operation_unique hop (wl.mem_readers.mp hR).2 rfl)
  · intro hope
    have hplace : s.place c.index .read c.serial = (s.workers w).pc := by
      rw [← hope, ← at_head h.inv htodo]
      rfl
    have hR : c.serial ∈ wl.readers c.index s.epoch := by
      rw [wl.mem_readers, ← hope]
      exact ⟨hlt, hop⟩
    exact hplace ▸ hrow.readers c.serial hR

/-- A returning read hands out the record of the serial execution. -/
theorem readings_serially (h : Reachable wl s) : Answers wl.serially (s.readings i) := by
  intro y hy
  cases i with
  | barrier => cases hy
  | worker w position =>
    by_cases hphase : s.phase = .execution
    · rw [readings_worker hphase] at hy
      obtain ⟨c, rest, record, htodo, hret, rfl⟩ := mem_readingOf.mp hy
      obtain ⟨hR, v, hv, hst, rfl⟩ := returning_ok h hphase htodo (returned_eq_some.mp hret)
      obtain ⟨hlt, _, m, hrow⟩ := executing_of_head h hphase htodo
      obtain ⟨x, hx, hlast⟩ := hrow.reads_last h.inv.epoch hR hv hst
      rw [hx, Option.map_some, wl.store_of_readsLast h.inv.epoch hlt hlast]
      rfl
    · rw [readings_other hphase] at hy
      cases hy

theorem ended_other (hphase : s.phase ≠ .execution) (c : Call Key) : s.ended c ↔ False :=
  iff_false_intro (fun h => hphase h.1)

theorem finalize_keeps (h : s.finalize w = some s') : s'.epoch = s.epoch ∧ s'.phase = s.phase := by
  unfold State.finalize at h
  simp only at h
  repeat' split at h
  all_goals
    cases h
    try exact ⟨rfl, rfl⟩

/-- Outside of the execution phase nothing is logged. -/
theorem LogsReads.quiet (h : LogsReads wl s.epoch s.ended log) (hepoch : s'.epoch = s.epoch)
    (hp : s.phase ≠ .execution) (hp' : s'.phase ≠ .execution) :
    LogsReads wl s'.epoch s'.ended (log ++ s.readings i) := by
  rw [readings_other hp, List.append_nil, hepoch]
  exact h.congr (fun c _ _ => (ended_other hp' c).trans (ended_other hp c).symm)

theorem LogsReads.return (h : LogsReads wl s.epoch s.ended log) (hi : Inv wl s)
    (htodo : (s.workers w).todo = c :: rest) (hpc : (s.workers w).pc = .done) :
    LogsReads wl s.epoch (s.return w rest).ended (log ++ s.readings (.worker w position)) := by
  have hat : (s.return w rest).at = s.at :=
    view_return (program_assigned wl s.phase s.epoch) hi.remaining htodo hpc
  have hnil : s.readings (.worker w position) = [] := by
    simp only [State.readings, readingOf_head htodo, hpc, Pc.returned, Option.toList_none,
      List.map_nil, ite_self]
  rw [hnil, List.append_nil]
  refine h.congr (fun c' _ _ => ?_)
  unfold State.ended
  rw [hat]
  rfl

/-- A step of the execution phase logs the read that returns in it. -/
theorem LogsReads.execute (h : LogsReads wl s.epoch s.ended log) (hr : Reachable wl s)
    (hphase : s.phase = .execution) (htodo : (s.workers w).todo = c :: rest)
    (hd : (s.workers w).pc ≠ .done)
    (hcall : callStep s w position c (s.workers w).pc (s.rows c.index) = some (pc, r)) :
    LogsReads wl s.epoch (s.advance w c.index pc r).ended
      (log ++ s.readings (.worker w position)) := by
  obtain ⟨hlt, hop, _⟩ := executing_of_head hr hphase htodo
  obtain ⟨hupdate, hread⟩ := call_of_head hr hphase htodo
  rw [readings_worker hphase]
  have hview : LogsReads wl s.epoch (fun c => s.at c = .done) log :=
    h.congr (fun c _ _ => (and_iff_right hphase).symm)
  refine (hview.advance (program_assigned wl s.phase s.epoch) hr.inv.remaining htodo hd
    hr.inv.epoch hlt hop hupdate (fun hope => ?_)).congr (fun c' _ _ => and_iff_right hphase)
  simp only [callStep, hphase, hope] at hcall
  exact executionStep_returned (hread hope) hcall

/-- The barrier opens an epoch's execution phase, or ends it with every read logged. -/
theorem LogsReads.barrier (h : LogsReads wl s.epoch s.ended log) (hi : Inv wl s)
    (hall : ∀ w < 64, (s.workers w).todo = [])
    (hs' : s' = match s.phase with
      | .write => s.enter wl .read s.epoch
      | .read => s.enter wl .execution s.epoch
      | .execution => s.enter wl .write (s.epoch + 1)) :
    LogsReads wl s'.epoch s'.ended (log ++ s.readings .barrier) := by
  rw [show s.readings .barrier = [] from rfl, List.append_nil]
  subst hs'
  cases hphase : s.phase with
  | write =>
    refine h.congr (fun c _ _ => (ended_other ?_ c).trans (ended_other ?_ c).symm)
    · exact fun hp => by cases hp
    · exact fun hp => by rw [hphase] at hp; cases hp
  | read =>
    refine h.congr (fun c hlt hop => iff_of_false ?_ ?_)
    · rintro ⟨_, hdone⟩
      have hmem : c ∈ program wl .execution s.epoch (owner .execution c.serial) :=
        mem_program.mpr ⟨hlt, (wl.mem_rSet.mp hop).1, by simp, by simp⟩
      rw [at_enter wl s hmem] at hdone
      cases hdone
    · rintro ⟨hp, _⟩
      rw [hphase] at hp
      cases hp
  | execution =>
    refine (h.close (fun c _ _ => ⟨hphase, at_finished hi hall c⟩)).congr (fun c _ _ => ?_)
    exact ended_other (fun hp => by cases hp) c

/-- The log keeps up with every step. -/
theorem LogsReads.step (h : LogsReads wl s.epoch s.ended log) (hr : Reachable wl s)
    (hstep : step wl i s = some s') : LogsReads wl s'.epoch s'.ended (log ++ s.readings i) := by
  rcases step_cases hstep with ⟨w, position, c, rest, rfl, htodo, hpc, rfl⟩ |
    ⟨w, position, rfl, htodo, hp, hfin⟩ | ⟨w, position, c, rest, rfl, htodo, hp, rfl⟩ |
    ⟨w, position, c, rest, pc, r, rfl, htodo, hp, hcall, rfl⟩ | ⟨rfl, hall, hs'⟩
  · exact LogsReads.return h hr.inv htodo hpc
  · obtain ⟨hepoch, hphase⟩ := finalize_keeps hfin
    have hne : s.phase ≠ .execution := by
      rw [hp]
      simp
    exact LogsReads.quiet h hepoch hne (hphase ▸ hne)
  · have hne : s.phase ≠ .execution := by
      rw [hp]
      simp
    exact LogsReads.quiet h rfl hne hne
  · by_cases hphase : s.phase = .execution
    · refine LogsReads.execute h hr hphase htodo ?_ hcall
      intro hpc
      simp only [callStep, hphase, hpc, executionStep, reduceCtorEq] at hcall
    · exact LogsReads.quiet h rfl hphase hphase
  · exact LogsReads.barrier h hr.inv (fun w hw => (hall w hw).1) hs'

/-- What a run's log is, and that its answers are the serial ones. -/
theorem ReadRun.inv (h : ReadRun wl s log) :
    Reachable wl s ∧ LogsReads wl s.epoch s.ended log ∧ Answers wl.serially log := by
  suffices hx : ∀ x : State Key × List (Reading Key), ((system wl).logged
      (fun i s => s.readings i)).Reachable (· = (initial wl, [])) x →
        Reachable wl x.1 ∧ LogsReads wl x.1.epoch x.1.ended x.2 ∧ Answers wl.serially x.2 from hx (s, log) h
  intro x hx
  induction hx with
  | start hx =>
    subst hx
    refine ⟨.start rfl, ?_, fun y hy => by cases hy⟩
    exact LogsReads.start.congr (fun c _ _ => ended_other (by simp [initial]) c)
  | @next x y i _ hstep ih =>
    obtain ⟨hr, hlog, hanswers⟩ := ih
    obtain ⟨hs, he⟩ := TransitionSystem.logged_step hstep
    rw [he]
    exact ⟨.next i hr hs, LogsReads.step hlog hr hs, hanswers.append (readings_serially hr)⟩

/-- What a finished epoch has logged, and what it leaves. -/
theorem ReadRun.finished (h : ReadRun wl s log) (hphase : s.phase = .execution)
    (hfin : s.finished = true) :
    (log.map Reading.content).Perm (wl.serialReadings (s.epoch * numTxsInOneEpoch)) ∧
      ∀ k, ∃ m x, (s.rows k).wBitmap.master = some m ∧
        (s.rows k).heap.version m = ⟨some x, .stable⟩ ∧
        x.content = wl.store (s.epoch * numTxsInOneEpoch) k := by
  obtain ⟨hr, hlog, hanswers⟩ := h.inv
  have hi := hr.inv
  have hall := State.finished_iff.mp hfin
  have hperm := hlog.perm hanswers (fun c _ _ => ⟨hphase, at_finished hi hall c⟩)
  rw [wl.serialReadings_answer] at hperm
  refine ⟨hperm, fun k => ?_⟩
  obtain ⟨m, hrow⟩ := (rowInv_execution k hphase).mp (hi.rows k)
  obtain ⟨m', hm, hver⟩ := (hrow.quiet hi.epoch (fun serial => at_finished hi hall _)
    (fun serial => at_finished hi hall _)).master
  exact ⟨m', _, hm, hver, wl.store_after k s.epoch⟩

/-- Whatever the interleaving, the reads of a run return what the transactions read when
they run one after the other, and a finished epoch leaves the records of that execution. -/
theorem reads_serially (h : ReadRun wl s log) :
    (log.map Reading.content).Subperm (wl.serialReadings (s.epoch * numTxsInOneEpoch)) ∧
    (s.phase = .execution → s.finished = true →
      (log.map Reading.content).Perm (wl.serialReadings (s.epoch * numTxsInOneEpoch)) ∧
      ∀ k, ∃ m x, (s.rows k).wBitmap.master = some m ∧
        (s.rows k).heap.version m = ⟨some x, .stable⟩ ∧
        x.content = wl.store (s.epoch * numTxsInOneEpoch) k) := by
  obtain ⟨_, hlog, hanswers⟩ := h.inv
  have hsub := hlog.subperm hanswers
  rw [wl.serialReadings_answer] at hsub
  exact ⟨hsub, h.finished⟩

end SerialHistory

section Run

/-- The one read of the first epoch returns what the transaction before it has written. -/
theorem firstEpoch_runs : ∃ (s : State Unit) (log : List (Reading Unit)),
    ReadRun writeOnce s log ∧ s.epoch = 1 ∧ s.phase = .execution ∧ s.finished = true ∧
      log = [⟨1, ⟨1, ⟨.read, ()⟩⟩, some (.written 1 0)⟩] := by
  have hstart : ReadRun writeOnce (initial writeOnce) [] := .start rfl
  have hrun : (((system writeOnce).logged (fun i s => s.readings i)).run firstEpoch
      (initial writeOnce, [])).map (fun x => (x.1.epoch, x.1.phase, x.1.finished, x.2)) =
        some (1, .execution, true, [⟨1, ⟨1, ⟨.read, ()⟩⟩, some (.written 1 0)⟩]) := by
    decide +kernel
  obtain ⟨⟨s, log⟩, hs, hshow⟩ := TransitionSystem.Reachable.of_run_map hstart hrun
  simp only [Prod.mk.injEq] at hshow
  exact ⟨s, log, hs, hshow⟩

theorem reads_serially_firstEpoch : ∃ (s : State Unit) (log : List (Reading Unit)),
    ReadRun writeOnce s log ∧ log = [⟨1, ⟨1, ⟨.read, ()⟩⟩, some (.written 1 0)⟩] ∧
      (log.map Reading.content).Perm (writeOnce.serialReadings (1 * numTxsInOneEpoch)) := by
  obtain ⟨s, log, hs, he, hphase, hfin, hlog⟩ := firstEpoch_runs
  obtain ⟨hperm, _⟩ := (reads_serially hs).2 hphase hfin
  rw [he] at hperm
  exact ⟨s, log, hs, hlog, hperm⟩

end Run
end Mvdcc.Cheetah
