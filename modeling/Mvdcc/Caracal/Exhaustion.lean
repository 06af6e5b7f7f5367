import Mvdcc.Caracal.Exclusion

namespace Mvdcc.Caracal
open Library TransitionSystem

section Exhaustion
variable {Key : Type u}

/-- No call is under way and no lock is taken, whatever the rows and the pool hold. -/
structure Quiet (cfg : Config) (s : State Key) : Prop where
  rows : ∀ k, (s.rows k).globalArray.rwl = {}
  pool : s.controller.lock = {}
  used : s.controller.used ≤ cfg.numRegions
  workers : ∀ w, (s.workers w).pc = .start
  finalizers : ∀ w, s.finalizers w = .idle

/-- The exception has ended the worker's call. -/
def State.Thrown (s : State Key) (w : Nat) : Prop :=
  (s.workers w).pc = .thrown

/-- The places of the contended path up to the pool's answer. -/
def Pc.fetching : Pc → Bool
  | .fetch | .fetchLocked => true
  | _ => false

variable [DecidableEq Key]

/-- What a call that has thrown should leave behind, at the end of a run. -/
structure CleanThrow (cfg : Config) (prog : Program Key) (is : List Choice) (start s : State Key)
    (w : Nat) : Prop where
  pool : s.controller.lock.FreeOf (fun w => (s.workers w).pc.holdsPool = true) w
  row : ∀ k, (s.rows k).globalArray.rwl.FreeOf (fun w => s.held w = some k) w
  unchanged : ∀ u position u', (system cfg prog).Takes is start u (.worker w position) u' →
    (u.workers w).pc.fetching = true → ∀ k,
      (u'.rows k).globalArray.idsSlots = (u.rows k).globalArray.idsSlots ∧
        (u'.rows k).rowBuffer = (u.rows k).rowBuffer
  others : ∀ w' c rest, w' < cfg.numCore → w' ≠ w → ¬ s.Thrown w' →
    (s.workers w').todo = c :: rest →
      ∃ t, (system cfg prog).Reachable (· = s) t ∧ (t.workers w').todo = rest

/-- Every `fetch_new_buffer` of the run finds a buffer left. -/
def RoomAtFetches (cfg : Config) (prog : Program Key) (is : List Choice) (start : State Key) :
    Prop :=
  ∀ u w position u', (system cfg prog).Takes is start u (.worker w position) u' →
    (u.workers w).pc = .fetchLocked → u.controller.used < cfg.numRegions

/-- Up to the pool's answer no contended call of the run changes a row. -/
def KeepsRows (cfg : Config) (prog : Program Key) (is : List Choice) (start : State Key) : Prop :=
  ∀ u w position u', (system cfg prog).Takes is start u (.worker w position) u' →
    (u.workers w).pc.fetching = true → u'.rows = u.rows

/-- Behind a call that threw, no call that has to fetch ever gets any further. -/
def Starves (cfg : Config) (prog : Program Key) (s : State Key) : Prop :=
  ∀ w w' c rest t, s.Thrown w → (s.workers w').todo = c :: rest → (s.workers w').pc = .fetch →
    (s.own w').spareBuffer = none → (system cfg prog).Reachable (· = s) t →
      (t.workers w').todo = c :: rest ∧ (t.workers w').pc = .fetch

variable {cfg : Config} {prog : Program Key} {s s' start t : State Key} {w : Nat}
variable {i : Choice} {is : List Choice}

/-- The only way to the exception is a pool without a buffer left, and it unlocks nothing. -/
theorem appendStep_thrown {position epoch core serial : Nat} {k : Key} {pc : Pc}
    {m m' : Memory Key}
    (h : appendStep cfg position epoch core serial k pc m = some (.thrown, m')) :
    pc = .fetchLocked ∧ cfg.numRegions ≤ m.controller.used ∧ m' = m := by
  cases pc <;> simp only [appendStep, reduceCtorEq] at h
  case fetch =>
    split at h
    · cases h
    · obtain ⟨_, _, he⟩ := Option.map_eq_some_iff.mp h
      cases he
  case fetchLocked =>
    split at h
    · rename_i hf
      cases h
      exact ⟨rfl, RowBufferController.fetchNewBuffer_eq_none.mp hf, rfl⟩
    · cases h
  case lockRow =>
    obtain ⟨_, _, he⟩ := Option.map_eq_some_iff.mp h
    cases he
  all_goals first | cases h | split at h <;> cases h

theorem callStep_thrown {position : Nat} {c : Call Key} {pc : Pc} {m m' : Memory Key}
    (h : callStep cfg s w position c pc m = some (.thrown, m')) :
    pc = .fetchLocked ∧ cfg.numRegions ≤ m.controller.used ∧ m' = m := by
  unfold callStep at h
  split at h
  · exact appendStep_thrown h
  · obtain ⟨⟨pc', row⟩, hstep, he⟩ := Option.map_eq_some_iff.mp h
    cases he
    obtain ⟨_, _, _, _, hpool⟩ := executionStep_locks hstep
    cases hpool

theorem Resting.step (h : Resting cfg.numCore s) (hstep : step cfg prog i s = some s') :
    Resting cfg.numCore s' := by
  rcases step_cases hstep with ⟨w, c, rest, hw, _, _, rfl⟩ | ⟨w, _, _, _, hfin⟩ |
    ⟨w, position, c, rest, pc, m, hw, htodo, _, rfl⟩ | ⟨_, rfl⟩
  · refine ⟨fun w' hnil => ?_, fun w' hle => ?_⟩
    · simp only [State.return] at hnil ⊢
      by_cases hww : w' = w
      · rw [hww, Function.update_self]
      · rw [Function.update_of_ne hww] at hnil ⊢
        exact h.resting w' hnil
    · have hww : w' ≠ w := by omega
      simp only [State.return, Function.update_of_ne hww]
      exact h.limit w' hle
  · obtain ⟨hworkers, _⟩ := finalize_keeps hfin
    exact ⟨hworkers ▸ h.resting, hworkers ▸ h.limit⟩
  · refine ⟨fun w' hnil => ?_, fun w' hle => ?_⟩
    · simp only [State.advance] at hnil ⊢
      by_cases hww : w' = w
      · subst hww
        rw [Function.update_self] at hnil
        simp [htodo] at hnil
      · rw [Function.update_of_ne hww] at hnil ⊢
        exact h.resting w' hnil
    · have hww : w' ≠ w := by omega
      simp only [State.advance, Function.update_of_ne hww]
      exact h.limit w' hle
  · cases s.phase <;> exact ⟨fun _ _ => rfl, fun _ _ => rfl⟩

theorem Quiet.run (h : Quiet cfg start) (ht : (system cfg prog).Reachable (· = start) t) :
    Resting cfg.numCore t ∧ Locked cfg.numCore t := by
  induction ht with
  | start he =>
    subst he
    refine ⟨⟨fun w _ => h.workers w, fun w _ => h.workers w⟩, ?_, ?_, fun w _ => h.finalizers w,
      fun w _ => h.finalizers w⟩
    · intro k
      refine Or.inl ⟨by rw [h.rows k], fun w => ?_⟩
      simp [held_start (h.workers w) (h.finalizers w)]
    · refine Or.inl ⟨by rw [h.pool], fun w => ?_⟩
      simp [h.workers w, Pc.holdsPool]
  | next i _ hstep ih => exact ⟨ih.1.step hstep, ih.2.step ih.1 hstep⟩

/-- A worker's step moves no other worker. -/
theorem workers_other {w' position : Nat} (hstep : step cfg prog (.worker w' position) s = some s')
    (hw : w ≠ w') : s'.workers w = s.workers w := by
  obtain ⟨_, ⟨c, rest, _, _, rfl⟩ | ⟨_, _, hfin⟩ | ⟨c, rest, pc, m, _, _, rfl⟩⟩ := worker_cases hstep
  · exact Function.update_of_ne hw _ _
  · rw [(finalize_keeps hfin).1]
  · exact Function.update_of_ne hw _ _

/-- No step moves a worker that has thrown. -/
theorem thrown_step (hr : Resting cfg.numCore s) (h : s.Thrown w)
    (hstep : step cfg prog i s = some s') : s'.workers w = s.workers w := by
  have hne : (s.workers w).todo ≠ [] := by
    intro hnil
    have hpc := hr.resting w hnil
    rw [h] at hpc
    cases hpc
  cases i with
  | worker w' position =>
    by_cases hw : w = w'
    · subst hw
      obtain ⟨_, ⟨_, _, _, hpc, _⟩ | ⟨hnil, _⟩ | ⟨c, rest, pc, m, _, hcall, _⟩⟩ :=
        worker_cases hstep
      · rw [h] at hpc
        cases hpc
      · exact absurd hnil hne
      · rw [h] at hcall
        unfold callStep at hcall
        split at hcall <;> cases hcall
    · exact workers_other hstep hw
  | barrier =>
    simp only [step] at hstep
    split at hstep
    · rename_i hall
      by_cases hw : w < cfg.numCore
      · exact absurd (hall w hw).1 hne
      · have hpc := hr.limit w (Nat.not_lt.mp hw)
        rw [h] at hpc
        cases hpc
    · cases hstep

/-- The step that throws is a `fetch_new_buffer` that finds no buffer. -/
theorem throws_of_step (hn : ¬ s.Thrown w) (ht : s'.Thrown w)
    (hstep : step cfg prog i s = some s') : ∃ position, i = .worker w position ∧
      (s.workers w).pc = .fetchLocked ∧ cfg.numRegions ≤ s.controller.used := by
  cases i with
  | worker w' position =>
    by_cases hw : w = w'
    · subst hw
      refine ⟨position, rfl, ?_⟩
      obtain ⟨_, ⟨_, _, _, _, rfl⟩ | ⟨_, _, hfin⟩ | ⟨c, rest, pc, m, _, hcall, rfl⟩⟩ :=
        worker_cases hstep
      · simp [State.Thrown, State.return] at ht
      · unfold State.Thrown at ht
        rw [(finalize_keeps hfin).1] at ht
        exact absurd ht hn
      · simp only [State.Thrown, State.advance, Function.update_self] at ht
        subst ht
        obtain ⟨hpc, hfull, _⟩ := callStep_thrown hcall
        exact ⟨hpc, hfull⟩
    · unfold State.Thrown at ht
      rw [workers_other hstep hw] at ht
      exact absurd ht hn
  | barrier =>
    simp only [step] at hstep
    split at hstep
    · cases hstep
      cases hp : s.phase <;> simp [hp, State.Thrown, State.enter] at ht
    · cases hstep

/-- A `fetch_new_buffer` without a buffer left throws. -/
theorem throws {u u' : State Key} {position : Nat} (hr : Resting cfg.numCore u)
    (hstep : step cfg prog (.worker w position) u = some u')
    (hpc : (u.workers w).pc = .fetchLocked) (hfull : cfg.numRegions ≤ u.controller.used) :
    u'.Thrown w := by
  obtain ⟨_, ⟨_, _, _, hdone, _⟩ | ⟨hnil, _⟩ | ⟨c, rest, pc, m, _, hcall, rfl⟩⟩ :=
    worker_cases hstep
  · rw [hpc] at hdone
    cases hdone
  · have hstart := hr.resting w hnil
    rw [hpc] at hstart
    cases hstart
  · have hnone : u.controller.fetchNewBuffer cfg.numRegions = none :=
      RowBufferController.fetchNewBuffer_eq_none.mpr hfull
    have hmem : (u.memory w c.index).controller = u.controller := rfl
    simp only [hpc, callStep, appendStep, hmem, hnone] at hcall
    split at hcall <;> cases hcall
    simp [State.Thrown, State.advance]

/-- A worker that has thrown stays where it is, and keeps the pool locked. -/
theorem Quiet.forever (h : Quiet cfg start) (hs : (system cfg prog).Reachable (· = start) s)
    (hthrown : s.Thrown w) (ht : (system cfg prog).Reachable (· = s) t) :
    t.Thrown w ∧ t.controller.lock.tryLock = none := by
  have hstays : t.Thrown w := by
    induction ht with
    | start he => exact he ▸ hthrown
    | next i hr hstep ih =>
      unfold State.Thrown
      rw [thrown_step (h.run (hs.trans hr)).1 ih hstep]
      exact ih
  refine ⟨hstays, (h.run (hs.trans ht)).2.pool.tryLock_none (i := w) ?_⟩
  rw [hstays]
  rfl

theorem spare_other {w' position : Nat} (hstep : step cfg prog (.worker w' position) s = some s')
    (hw : w ≠ w') : (s'.own w).spareBuffer = (s.own w).spareBuffer := by
  obtain ⟨_, ⟨c, rest, _, _, rfl⟩ | ⟨_, _, hfin⟩ | ⟨c, rest, pc, m, _, _, rfl⟩⟩ := worker_cases hstep
  · rfl
  · obtain ⟨_, _, hspare, _⟩ := finalize_keeps hfin
    exact hspare w
  · exact congrArg Own.spareBuffer (Function.update_of_ne hw _ _)

/-- Without a spare buffer, `fetch` waits for the pool's lock. -/
theorem fetch_refused {position : Nat} {c : Call Key} {k : Key} {x : Pc × Memory Key}
    (hspare : (s.own w).spareBuffer = none) (hlock : s.controller.lock.tryLock = none) :
    callStep cfg s w position c .fetch (s.memory w k) ≠ some x := by
  have hown : (s.memory w k).own.spareBuffer = none := hspare
  have hpool : (s.memory w k).controller.lock.lock = none := hlock
  unfold callStep
  split
  · simp [appendStep, hown, hpool]
  · simp [executionStep]

theorem appendStep_fetching {position epoch core serial : Nat} {k : Key} {pc pc' : Pc}
    {m m' : Memory Key} (hpc : pc.fetching = true)
    (h : appendStep cfg position epoch core serial k pc m = some (pc', m')) :
    m'.toRow = m.toRow := by
  cases pc <;> simp only [Pc.fetching, Bool.false_eq_true] at hpc
  case fetch =>
    simp only [appendStep] at h
    split at h
    · cases h
      rfl
    · obtain ⟨_, _, he⟩ := Option.map_eq_some_iff.mp h
      cases he
      rfl
  case fetchLocked =>
    simp only [appendStep] at h
    split at h <;> cases h <;> rfl

theorem callStep_fetching {position : Nat} {c : Call Key} {pc pc' : Pc} {m m' : Memory Key}
    (hpc : pc.fetching = true) (h : callStep cfg s w position c pc m = some (pc', m')) :
    m'.toRow = m.toRow := by
  unfold callStep at h
  split at h
  · exact appendStep_fetching hpc h
  · cases pc <;> simp only [Pc.fetching, Bool.false_eq_true] at hpc <;> cases h

/-- The throwing worker has the pool locked for ever. -/
theorem Quiet.starves (h : Quiet cfg start) (hs : (system cfg prog).Reachable (· = start) s) :
    Starves cfg prog s := by
  intro w w' c rest t hthrown htodo hpc hspare ht
  suffices hall : ((t.workers w').todo = c :: rest ∧ (t.workers w').pc = .fetch) ∧
      (t.own w').spareBuffer = none from hall.1
  induction ht with
  | start he => exact he ▸ ⟨⟨htodo, hpc⟩, hspare⟩
  | @next t t' i hr hstep ih =>
    obtain ⟨⟨htodo, hpc⟩, hspare⟩ := ih
    have hlock := (h.forever hs hthrown hr).2
    cases i with
    | worker w'' position =>
      have hstep : step cfg prog (.worker w'' position) t = some t' := hstep
      by_cases hww : w' = w''
      · subst hww
        obtain ⟨_, ⟨_, _, _, hdone, _⟩ | ⟨hnil, _⟩ | ⟨_, _, _, _, _, hcall, _⟩⟩ :=
          worker_cases hstep
        · rw [hpc] at hdone
          cases hdone
        · rw [htodo] at hnil
          cases hnil
        · rw [hpc] at hcall
          exact absurd hcall (fetch_refused hspare hlock)
      · rw [workers_other hstep hww, spare_other hstep hww]
        exact ⟨⟨htodo, hpc⟩, hspare⟩
    | barrier =>
      have hrest := (h.run (hs.trans hr)).1
      simp only [system, step] at hstep
      split at hstep
      · rename_i hall
        by_cases hlt : w' < cfg.numCore
        · rw [(hall w' hlt).1] at htodo
          cases htodo
        · rw [hrest.limit w' (Nat.not_lt.mp hlt)] at hpc
          cases hpc
      · cases hstep

/-- Up to the pool's answer the contended path writes nothing of a row. -/
theorem fetching_keeps {position : Nat} (hr : Resting cfg.numCore s)
    (hstep : step cfg prog (.worker w position) s = some s')
    (hpc : (s.workers w).pc.fetching = true) : s'.rows = s.rows := by
  obtain ⟨_, ⟨_, _, _, _, rfl⟩ | ⟨hnil, _⟩ | ⟨c, rest, pc, m, _, hcall, rfl⟩⟩ :=
    worker_cases hstep
  · rfl
  · rw [hr.resting w hnil] at hpc
    cases hpc
  · have hrow : m.toRow = s.rows c.index := callStep_fetching hpc hcall
    simp only [State.advance, hrow, Function.update_eq_self]

/-- So it is never the row that an exception leaves half changed. -/
theorem Quiet.keepsRows (h : Quiet cfg start) (hr : (system cfg prog).run is start = some s) :
    KeepsRows cfg prog is start := by
  intro u w position u' htakes hpc
  have hstep : step cfg prog (.worker w position) u = some u' := htakes.step
  exact fetching_keeps (h.run (htakes.split hr).1).1 hstep hpc

theorem Locked.unclean {n : Nat} (h : Locked n s) (hthrown : s.Thrown w) :
    ¬ CleanThrow cfg prog is start s w := by
  intro hclean
  refine h.pool.not_freeOf ?_ hclean.pool
  rw [hthrown]
  rfl

/-- A run leaves every call that threw with nothing locked exactly when none threw: every
`fetch_new_buffer` found a buffer. -/
theorem clean_iff (h : Quiet cfg start) (hr : (system cfg prog).run is start = some s) :
    (∀ w, s.Thrown w → CleanThrow cfg prog is start s w) ↔ RoomAtFetches cfg prog is start := by
  have hstart : (system cfg prog).Reachable (· = start) start := .start rfl
  constructor
  · intro hclean u w position u' htakes hpc
    by_contra hfull
    obtain ⟨hu, hrest⟩ := htakes.split hr
    have hstep : step cfg prog (.worker w position) u = some u' := htakes.step
    have hthrown := throws (h.run hu).1 hstep hpc (Nat.not_lt.mp hfull)
    have hend := (h.forever (.next _ hu htakes.step) hthrown hrest).1
    exact (h.run (hstart.run hr)).2.unclean hend (hclean w hend)
  · intro hroom w hthrown
    have hnot : ¬ start.Thrown w := by
      unfold State.Thrown
      rw [h.workers w]
      exact nofun
    obtain ⟨u, i, u', htakes, hn, ht⟩ := exists_takes (fun t => t.Thrown w) hr hnot hthrown
    have hstep : step cfg prog i u = some u' := htakes.step
    obtain ⟨position, rfl, hpc, hfull⟩ := throws_of_step hn ht hstep
    exact absurd (hroom u w position u' htakes hpc) (Nat.not_lt.mpr hfull)

end Exhaustion

section Run

def twoWrites : Program Nat := fun phase _ w =>
  match phase with
  | .initialization => if w < 2 then [⟨w, ⟨.update, 0⟩⟩] else []
  | .execution => []

/-- So many buffers serve rows, and no worker has one to spare. -/
def poolInUse (used : Nat) : State Nat :=
  { initial twoWrites with
    rows := fun k => { loadedRow with
      rowBuffer := if 1 ≤ k ∧ k ≤ used then some (k - 1) else none }
    controller := ⟨fun _ => ⟨fun _ => ⟨[]⟩⟩, {}, used⟩ }

def fullPool : State Nat := poolInUse 10000

/-- Worker 1 finds the row locked by worker 0, and fetches a buffer for it. -/
def crowding : List Choice :=
  List.replicate 2 (.worker 0 0) ++ List.replicate 4 (.worker 1 0)

theorem poolInUse_quiet {used : Nat} (h : used ≤ 10000) :
    Quiet ⟨2, 4, 10000, true⟩ (poolInUse used) :=
  ⟨fun _ => rfl, rfl, h, fun _ => rfl, fun _ => rfl⟩

theorem fullPool_quiet : Quiet ⟨2, 4, 10000, true⟩ fullPool := poolInUse_quiet (Nat.le_refl 10000)

theorem crowding_throws : ∃ s,
    (system ⟨2, 4, 10000, true⟩ twoWrites).run crowding fullPool = some s ∧ s.Thrown 1 ∧
      s.controller.lock.cnt = -1 ∧
        ¬ CleanThrow ⟨2, 4, 10000, true⟩ twoWrites crowding fullPool s 1 := by
  have hstart : (system ⟨2, 4, 10000, true⟩ twoWrites).Reachable (· = fullPool) fullPool :=
    .start rfl
  have hrun : ((system ⟨2, 4, 10000, true⟩ twoWrites).run crowding fullPool).map
      (fun s => ((s.workers 1).pc, s.controller.lock.cnt)) = some (.thrown, -1) := by
    decide +kernel
  obtain ⟨s, hs, hx⟩ := Option.map_eq_some_iff.mp hrun
  simp only [Prod.mk.injEq] at hx
  have hinv := fullPool_quiet.run (hstart.run hs)
  exact ⟨s, hs, hx.1, hx.2, hinv.2.unclean hx.1⟩

/-- With one buffer left, worker 1 gets it and both writes return. -/
theorem crowding_returns : ∃ s,
    (system ⟨2, 4, 10000, true⟩ twoWrites).run
      (crowding ++ List.replicate 3 (.worker 0 0) ++ List.replicate 4 (.worker 1 0))
        (poolInUse 9999) = some s ∧
      (s.rows 0).rowBuffer = some 9999 ∧ ∀ w, ¬ s.Thrown w := by
  have hstart : (system ⟨2, 4, 10000, true⟩ twoWrites).Reachable (· = poolInUse 9999)
      (poolInUse 9999) := .start rfl
  have hrun : ((system ⟨2, 4, 10000, true⟩ twoWrites).run
      (crowding ++ List.replicate 3 (.worker 0 0) ++ List.replicate 4 (.worker 1 0))
        (poolInUse 9999)).map
      (fun s => ((s.rows 0).rowBuffer, decide (∀ w < (2 : Nat), (s.workers w).todo = []))) =
        some (some 9999, true) := by decide +kernel
  obtain ⟨s, hs, hx⟩ := Option.map_eq_some_iff.mp hrun
  simp only [Prod.mk.injEq, decide_eq_true_eq] at hx
  refine ⟨s, hs, hx.1, fun w hthrown => ?_⟩
  have hrest := ((poolInUse_quiet (by decide)).run (hstart.run hs)).1
  have hpc : (s.workers w).pc = .start := by
    by_cases hw : w < 2
    · exact hrest.resting w (hx.2 w hw)
    · exact hrest.limit w (Nat.not_lt.mp hw)
  rw [hthrown] at hpc
  cases hpc

end Run
end Mvdcc.Caracal
