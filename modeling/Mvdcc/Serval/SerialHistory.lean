import Mvdcc.Common.ReadLog
import Mvdcc.Serval.SerialReads

namespace Mvdcc

/-- What `Serval::read` answers: the serial answer if the epoch writes the row, and else
what the row was before the last epoch that has written it. -/
def Workload.laggingBehind {Key : Type u} [DecidableEq Key] (wl : Workload Key) (epoch : Nat)
    (c : Call Key) : Rec :=
  if wl.writers c.index epoch = [] then
    wl.store (Workload.position (wl.trailOf c.index epoch).epoch 0) c.index
  else wl.serially epoch c

end Mvdcc

namespace Mvdcc.Serval
open Library

/-- What a call of `read` hands out when it returns. -/
def Pc.returned : Pc → Option (Option Rec)
  | .returning record => some record
  | _ => none

section SerialHistory
variable {Key : Type u} [DecidableEq Key] {wl : Workload Key} {numRegions : Nat} {s s' : State Key}
variable {w : Nat} {c : Call Key} {rest : List (Call Key)} {log : List (Reading Key)} {i : Choice}
variable {k : Key} {e core serial : Nat} {pc pc' : Pc} {row : Row} {own : RowRegion} {m m' : Memory}

def State.readings (s : State Key) : Choice → List (Reading Key)
  | .worker w => if s.phase = .execution then readingOf Pc.returned s.epoch (s.workers w) else []
  | .barrier => []

/-- Whole runs with the log of what their reads have returned. -/
def ReadRun (wl : Workload Key) (numRegions : Nat) (s : State Key) (log : List (Reading Key)) :
    Prop :=
  ((system wl numRegions).logged (fun i s => s.readings i)).Reachable
    (· = (initial wl, [])) (s, log)

def State.ended (s : State Key) (c : Call Key) : Prop :=
  s.phase = .execution ∧ view .start .done (owner s.phase) s.workers c = .done

omit [DecidableEq Key] in
theorem IsVersionOf.version {st : Option Stamp} {p : Ptr} (h : IsVersionOf row st p) :
    row.heap.version p = ⟨some (recOf st), .stable⟩ := by
  cases st with
  | none => exact h.2
  | some st => exact h.2

/-- A row the epoch does not write answers with its master version, which is of before
the last epoch that has written it. -/
theorem Settled.reads_lagging (he : 1 ≤ e) (h : Settled row own (wl.trailOf k e)) {v : Ptr}
    {b : Bool} (hv : visibleOf row own e serial = (some v, b)) :
    ∃ x, (row.heap.version v).record = some x ∧
      x.content = wl.store (Workload.position (wl.trailOf k e).epoch 0) k := by
  have hlt : (wl.trailOf k e).epoch < e := trail_epoch_lt he
  have hepoch := h.epoch
  obtain ⟨q, hq, hver⟩ := h.master
  unfold visibleOf at hv
  rw [if_pos (by omega), hq] at hv
  simp only [Prod.mk.injEq, Option.some.injEq] at hv
  obtain ⟨rfl, -⟩ := hv
  unfold IsMaster at hver
  cases hl : (wl.trailOf k e).latest with
  | none =>
    have hzero : (wl.trailOf k e).epoch = 0 := trail_unwritten e hl
    rw [hl] at hver
    refine ⟨.loaded 1, by rw [hver], ?_⟩
    rw [hzero]
    rfl
  | some st =>
    have hprevious : (wl.trailOf k e).previous = (wl.trailOf k (wl.trailOf k e).epoch).latest :=
      trail_previous e (by change (wl.trailOf k e).latest ≠ none; rw [hl]; simp)
    rw [hl] at hver
    refine ⟨recOf (wl.trailOf k e).previous, ?_, ?_⟩
    · rw [IsVersionOf.version hver]
    · rw [hprevious, wl.store_of_trail]

/-- A call of `read` ends with the step in which it returns. -/
theorem executionStep_returned (hok : ReaderOk row own e serial pc)
    (h : executionStep e core serial .read pc m = some (pc', m')) :
    pc' = .done ↔ pc.returned.isSome = true := by
  cases pc <;> simp only [ReaderOk] at hok <;> simp only [executionStep, reduceCtorEq] at h
  case start =>
    split at h
    · cases h
      simp [Pc.returned]
    · cases h
      simp [Pc.returned]
    · cases h
  case waitStable v =>
    cases h
    split <;> simp [Pc.returned]
  all_goals
    cases h
    simp [Pc.returned]

theorem returned_eq_some {record : Option Rec} :
    pc.returned = some record ↔ pc = .returning record := by
  cases pc <;> simp [Pc.returned]

omit [DecidableEq Key] in
theorem readings_worker (hphase : s.phase = .execution) : s.readings (.worker w) =
    readingOf Pc.returned s.epoch (s.workers w) := if_pos hphase

omit [DecidableEq Key] in
theorem readings_other (hphase : s.phase ≠ .execution) : s.readings i = [] := by
  cases i with
  | worker w => exact if_neg hphase
  | barrier => rfl

/-- The call that a worker of the execution phase is in. -/
theorem call_of_head (h : Inv wl s) (hphase : s.phase = .execution)
    (htodo : (s.workers w).todo = c :: rest) :
    c.serial < numTxsInOneEpoch ∧ c.operation ∈ wl.rwSet s.epoch c.serial ∧
      ((s.workers w).pc.returned.isSome = true → c.operation.ope = .read) ∧
      (c.operation.ope = .read →
        ReaderOk (s.rows c.index) (s.own c.index) s.epoch c.serial (s.workers w).pc) := by
  have hasg := program_assigned wl s.phase s.epoch
  have hplace : s.place c.index c.operation.ope c.serial = (s.workers w).pc :=
    view_head hasg h.remaining htodo
  have hmem := h.remaining.mem htodo
  rw [← hasg.owned w c hmem] at hmem
  obtain ⟨hlt, hop, _⟩ := mem_program.mp hmem
  have hrow := h.rows c.index
  unfold RowInv at hrow
  rw [hphase] at hrow
  refine ⟨hlt, hop, fun hret => ?_, fun hope => ?_⟩
  · cases hope : c.operation.ope with
    | read => rfl
    | update =>
      obtain ⟨record, hret⟩ := Option.isSome_iff_exists.mp hret
      rw [c.eta, hope] at hmem
      have hW := writer_mem_program.mp hmem
      rw [hope, returned_eq_some.mp hret] at hplace
      rcases hrow.1 with ⟨hnil, _⟩ | ⟨_, hwritten⟩
      · rw [hnil] at hW
        cases hW
      · obtain ⟨_, _, hok⟩ := hwritten.writers c.serial hW
        rw [hplace] at hok
        exact hok.elim
  · rw [hope] at hplace
    exact hplace ▸ hrow.2 c.serial

/-- A returning read hands out its answer. -/
theorem readings_lagging (h : Inv wl s) : Answers wl.laggingBehind (s.readings i) := by
  intro y hy
  cases i with
  | barrier => cases hy
  | worker w =>
    by_cases hphase : s.phase = .execution
    · rw [readings_worker hphase] at hy
      obtain ⟨c, rest, record, htodo, hret, rfl⟩ := mem_readingOf.mp hy
      obtain ⟨hlt, _, hope, hok⟩ := call_of_head h hphase htodo
      have hread := hok (hope (by rw [hret]; rfl))
      rw [returned_eq_some.mp hret] at hread
      obtain ⟨v, b, hv, hst, rfl⟩ := hread
      have hrow := h.rows c.index
      unfold RowInv at hrow
      rw [hphase] at hrow
      unfold Workload.laggingBehind
      rcases hrow.1 with ⟨hnil, hset, _⟩ | ⟨hne, hwritten⟩
      · obtain ⟨x, hx, hstore⟩ := hset.reads_lagging h.epoch hv
        rw [if_pos hnil, hx, Option.map_some, hstore]
      · obtain ⟨x, hx, hlast⟩ := hwritten.reads_last h.epoch hv hst
        rw [if_neg hne, hx, Option.map_some, wl.store_of_readsLast h.epoch hlt hlast]
        rfl
    · rw [readings_other hphase] at hy
      cases hy

theorem ended_other (hphase : s.phase ≠ .execution) (c : Call Key) : s.ended c ↔ False :=
  iff_false_intro (fun h => hphase h.1)

/-- Outside of the execution phase nothing is logged. -/
theorem LogsReads.quiet (h : LogsReads wl s.epoch s.ended log) (hepoch : s'.epoch = s.epoch)
    (hp : s.phase ≠ .execution) (hp' : s'.phase ≠ .execution) :
    LogsReads wl s'.epoch s'.ended (log ++ s.readings i) := by
  rw [readings_other hp, List.append_nil, hepoch]
  exact h.congr (fun c _ _ => (ended_other hp' c).trans (ended_other hp c).symm)

/-- A worker's step in the execution phase logs the read that returns in it. -/
theorem LogsReads.execute (h : LogsReads wl s.epoch s.ended log) (hi : Inv wl s)
    (hphase : s.phase = .execution) (hstep : step wl numRegions (.worker w) s = some s') :
    LogsReads wl s'.epoch s'.ended (log ++ s.readings (.worker w)) := by
  have hasg := program_assigned wl s.phase s.epoch
  rw [readings_worker hphase]
  simp only [step] at hstep
  split at hstep
  · cases hstep
  · rename_i c rest htodo
    split at hstep
    · rename_i hpc
      cases hstep
      have hview : view Pc.start .done (owner s.phase)
          (Function.update s.workers w ⟨rest, .start⟩) = view .start .done (owner s.phase) s.workers :=
        view_return hasg hi.remaining htodo hpc
      have hnil : readingOf Pc.returned s.epoch (s.workers w) = [] := by
        rw [readingOf_head htodo, hpc]
        rfl
      rw [hnil, List.append_nil]
      refine h.congr (fun c' _ _ => ?_)
      unfold State.ended
      rw [hview]
    · rename_i hpc
      obtain ⟨⟨pc, m⟩, hcall, rfl⟩ := Option.map_eq_some_iff.mp hstep
      obtain ⟨hlt, hop, hupdate, hread⟩ := call_of_head hi hphase htodo
      have hview : LogsReads wl s.epoch
          (fun c => view .start .done (owner s.phase) s.workers c = .done) log :=
        h.congr (fun c _ _ => (and_iff_right hphase).symm)
      refine (hview.advance hasg hi.remaining htodo hpc hi.epoch hlt hop hupdate
        (fun hope => ?_)).congr (fun c' _ _ => and_iff_right hphase)
      simp only [callStep, hphase, hope] at hcall
      exact executionStep_returned (hread hope) hcall

theorem worker_keeps (h : step wl numRegions (.worker w) s = some s') :
    s'.epoch = s.epoch ∧ s'.phase = s.phase := by
  simp only [step] at h
  split at h
  · cases h
  · split at h
    · cases h
      exact ⟨rfl, rfl⟩
    · obtain ⟨_, _, rfl⟩ := Option.map_eq_some_iff.mp h
      exact ⟨rfl, rfl⟩

/-- The barrier opens an epoch's execution phase, or ends it with every read logged. -/
theorem LogsReads.barrier (h : LogsReads wl s.epoch s.ended log) (hi : Inv wl s)
    (hall : ∀ w < 64, (s.workers w).todo = []) (hs' : s' = match s.phase with
      | .initialization => s.enter wl .execution s.epoch
      | .execution => s.enter wl .initialization (s.epoch + 1)) :
    LogsReads wl s'.epoch s'.ended (log ++ s.readings .barrier) := by
  rw [show s.readings .barrier = [] from rfl, List.append_nil]
  subst hs'
  cases hphase : s.phase with
  | initialization =>
    refine h.congr (fun c hlt hop => iff_of_false ?_ ?_)
    · rintro ⟨_, hdone⟩
      have hmem : c ∈ program wl .execution s.epoch (owner .execution c.serial) :=
        mem_program.mpr ⟨hlt, (wl.mem_rSet.mp hop).1, by simp⟩
      have hstart : view Pc.start .done (owner .execution)
          (s.enter wl .execution s.epoch).workers c = .start := view_enter hmem
      exact Pc.noConfusion (hstart.symm.trans hdone)
    · rintro ⟨hp, _⟩
      rw [hphase] at hp
      cases hp
  | execution =>
    have hover : ∀ c : Call Key, s.ended c := fun c =>
      ⟨hphase, place_finished hi.remaining hall c.index c.operation.ope c.serial⟩
    refine (h.close (fun c _ _ => hover c)).congr (fun c _ _ => ?_)
    exact ended_other (fun hp => by cases hp) c

/-- The log keeps up with every step. -/
theorem LogsReads.step (h : LogsReads wl s.epoch s.ended log) (hi : Inv wl s)
    (hstep : step wl numRegions i s = some s') :
    LogsReads wl s'.epoch s'.ended (log ++ s.readings i) := by
  cases i with
  | worker w =>
    by_cases hphase : s.phase = .execution
    · exact LogsReads.execute h hi hphase hstep
    · obtain ⟨hepoch, hp⟩ := worker_keeps hstep
      exact LogsReads.quiet h hepoch hphase (hp ▸ hphase)
  | barrier =>
    simp only [Serval.step] at hstep
    split at hstep
    · rename_i hall
      exact LogsReads.barrier h hi hall (Option.some.inj hstep).symm
    · cases hstep

/-- What a run's log is, and what its answers are. -/
theorem ReadRun.inv (h : ReadRun wl numRegions s log) :
    Inv wl s ∧ LogsReads wl s.epoch s.ended log ∧ Answers wl.laggingBehind log := by
  suffices hx : ∀ x : State Key × List (Reading Key), ((system wl numRegions).logged
      (fun i s => s.readings i)).Reachable (· = (initial wl, [])) x →
        Inv wl x.1 ∧ LogsReads wl x.1.epoch x.1.ended x.2 ∧ Answers wl.laggingBehind x.2 from
    hx (s, log) h
  intro x hx
  induction hx with
  | start hx =>
    subst hx
    refine ⟨inv_initial, ?_, fun y hy => by cases hy⟩
    exact LogsReads.start.congr (fun c _ _ => ended_other (by simp [initial]) c)
  | @next x y i _ hstep ih =>
    obtain ⟨hi, hlog, hanswers⟩ := ih
    obtain ⟨hs, he⟩ := TransitionSystem.logged_step hstep
    rw [he]
    exact ⟨hi.step hs, LogsReads.step hlog hi hs, hanswers.append (readings_lagging hi)⟩

/-- What a finished epoch has logged, and what it leaves. -/
theorem ReadRun.finished (h : ReadRun wl numRegions s log) (hphase : s.phase = .execution)
    (hfin : s.finished = true) :
    (log.map Reading.content).Perm ((wl.serialReadings (s.epoch * numTxsInOneEpoch)).map
        (Reading.answer wl.laggingBehind)) ∧
      ∀ k, ∃ last x, (contents (s.rows k) (s.own k)).getLast? = some last ∧
        (s.rows k).heap.version last.2 = ⟨some x, .stable⟩ ∧
        x.content = wl.store (s.epoch * numTxsInOneEpoch) k := by
  obtain ⟨hi, hlog, hanswers⟩ := h.inv
  have hdone := place_finished hi.remaining (State.finished_iff.mp hfin)
  refine ⟨hlog.perm hanswers (fun c _ _ => ⟨hphase, hdone c.index c.operation.ope c.serial⟩),
    fun k => ?_⟩
  have hrow := hi.rows k
  unfold RowInv at hrow
  rw [hphase] at hrow
  obtain ⟨_, q, hlast, hq⟩ := (hrow.1.settled hi.epoch (hdone k .update)).1.last
  exact ⟨_, _, hlast, IsVersionOf.version hq, wl.store_after k s.epoch⟩

/-- Whatever the interleaving and the size of the pool, the reads of a run return the
answers that lag behind, each call once, and a finished epoch leaves as the last version
of every row the record of the serial execution. -/
theorem reads_lagging_behind (h : ReadRun wl numRegions s log) :
    (log.map Reading.content).Subperm ((wl.serialReadings (s.epoch * numTxsInOneEpoch)).map
      (Reading.answer wl.laggingBehind)) ∧
    (s.phase = .execution → s.finished = true →
      (log.map Reading.content).Perm ((wl.serialReadings (s.epoch * numTxsInOneEpoch)).map
        (Reading.answer wl.laggingBehind)) ∧
      ∀ k, ∃ last x, (contents (s.rows k) (s.own k)).getLast? = some last ∧
        (s.rows k).heap.version last.2 = ⟨some x, .stable⟩ ∧
        x.content = wl.store (s.epoch * numTxsInOneEpoch) k) := by
  obtain ⟨_, hlog, hanswers⟩ := h.inv
  exact ⟨hlog.subperm hanswers, h.finished⟩

end SerialHistory

section Run

/-- The first epoch to its end. -/
def firstEpoch : List Choice := firstRead ++ List.replicate 2 (.worker 1)

/-- The second epoch to its end. -/
def bothEpochs : List Choice := secondRead ++ List.replicate 2 (.worker 0)

theorem runs_showing {schedule : List Choice} {x : Nat × Phase × Bool × List (Reading Unit)}
    (hrun : (((system writeOnce 1).logged (fun i s => s.readings i)).run schedule
      (initial writeOnce, [])).map (fun x => (x.1.epoch, x.1.phase, x.1.finished, x.2)) = some x) :
    ∃ (s : State Unit) (log : List (Reading Unit)), ReadRun writeOnce 1 s log ∧
      s.epoch = x.1 ∧ s.phase = x.2.1 ∧ s.finished = x.2.2.1 ∧ log = x.2.2.2 := by
  have hstart : ReadRun writeOnce 1 (initial writeOnce) [] := .start rfl
  obtain ⟨⟨s, log⟩, hs, rfl⟩ := TransitionSystem.Reachable.of_run_map hstart hrun
  exact ⟨s, log, hs, rfl, rfl, rfl, rfl⟩

theorem firstEpoch_runs : ∃ (s : State Unit) (log : List (Reading Unit)),
    ReadRun writeOnce 1 s log ∧ s.epoch = 1 ∧ s.phase = .execution ∧ s.finished = true := by
  have hrun : (((system writeOnce 1).logged (fun i s => s.readings i)).run firstEpoch
      (initial writeOnce, [])).map (fun x => (x.1.epoch, x.1.phase, x.1.finished, x.2)) =
        some (1, .execution, true, [⟨1, ⟨1, ⟨.read, ()⟩⟩, some (.written 1 0)⟩]) := by
    decide +kernel
  obtain ⟨s, log, hs, he, hphase, hfin, _⟩ := runs_showing hrun
  exact ⟨s, log, hs, he, hphase, hfin⟩

/-- Nobody writes the row in the second epoch, and the read lags behind. -/
theorem reads_lagging_behind_bothEpochs : ∃ (s : State Unit) (log : List (Reading Unit)),
    ReadRun writeOnce 1 s log ∧
      log = [⟨1, ⟨1, ⟨.read, ()⟩⟩, some (.written 1 0)⟩, ⟨2, ⟨0, ⟨.read, ()⟩⟩, some (.loaded 0)⟩] ∧
      (log.map Reading.content).Perm ((writeOnce.serialReadings (2 * numTxsInOneEpoch)).map
        (Reading.answer writeOnce.laggingBehind)) := by
  have hrun : (((system writeOnce 1).logged (fun i s => s.readings i)).run bothEpochs
      (initial writeOnce, [])).map (fun x => (x.1.epoch, x.1.phase, x.1.finished, x.2)) =
        some (2, .execution, true, [⟨1, ⟨1, ⟨.read, ()⟩⟩, some (.written 1 0)⟩,
          ⟨2, ⟨0, ⟨.read, ()⟩⟩, some (.loaded 0)⟩]) := by
    decide +kernel
  obtain ⟨s, log, hs, he, hphase, hfin, hlog⟩ := runs_showing hrun
  obtain ⟨hperm, _⟩ := (reads_lagging_behind hs).2 hphase hfin
  rw [he] at hperm
  exact ⟨s, log, hs, hlog, hperm⟩

end Run
end Mvdcc.Serval
