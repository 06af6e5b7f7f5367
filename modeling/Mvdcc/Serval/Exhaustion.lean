import Mvdcc.Serval.Exclusion

namespace Mvdcc.Serval.Accesses
open Library TransitionSystem

/-- The accesses of a run, and the workers that an exception has ended. -/
structure Throwing (Key : Type u) extends State Key where
  thrown : Nat → Bool

/-- The places of the contended path up to the pool's answer. -/
def Pc.waiting : Pc → Bool
  | .waitRegion | .waitTryLock | .waitLocked | .fetchLock | .fetchRead => true
  | _ => false

section Exhaustion
variable {Key : Type u}

/-- `fetch_new_region` reads that no region is left for the worker's call. -/
def State.Exhausted (numRegions : Nat) (s : State Key) (w : Nat) : Prop :=
  (s.workers w).todo ≠ [] ∧ (s.workers w).pc = .fetchRead ∧ numRegions ≤ s.controller.used

/-- No call is under way and no lock is taken, whatever the rows and the pool hold. -/
structure Quiet (numRegions : Nat) (s : Throwing Key) : Prop where
  epochs : ∀ k, (s.rows k).value.epoch ≤ s.epoch
  rows : ∀ k, (s.rows k).value.rwl = {}
  pool : s.controller.lock = {}
  used : s.controller.used ≤ numRegions
  installed : ∀ k r, (s.rows k).value.rowRegion = some r → r < s.controller.used
  distinct : ∀ k k' r, (s.rows k).value.rowRegion = some r →
    (s.rows k').value.rowRegion = some r → k = k'
  workers : ∀ w, (s.workers w).pc = .start
  limit : ∀ w, 64 ≤ w → (s.workers w).todo = []
  thrown : ∀ w, s.thrown w = false

theorem Quiet.inv {numRegions : Nat} {s : Throwing Key} (h : Quiet numRegions s) :
    Inv s.toState := by
  refine inv_start h.workers ?_ h.epochs ?_ ?_ h.installed h.distinct
  · intro w hw
    unfold State.zone
    rw [h.limit w hw]
  · intro k
    change (s.rows k).value.rwl.cnt = 0
    rw [h.rows k]
  · rw [h.pool]

/-- Every worker that has thrown is still where `fetch_new_region` found no region. -/
structure ThrowInv (numRegions : Nat) (s : Throwing Key) : Prop where
  inv : Inv s.toState
  exhausted : ∀ w, s.thrown w = true → s.Exhausted numRegions w

/-- A worker that has thrown keeps the pool locked, and the row of its call. -/
theorem ThrowInv.holds {numRegions w : Nat} {s : Throwing Key} (h : ThrowInv numRegions s)
    (hthrown : s.thrown w = true) :
    ∃ c rest, (s.workers w).todo = c :: rest ∧ HoldsPool s.toState w ∧
      HoldsRow s.toState c.index w := by
  obtain ⟨hne, hpc, _⟩ := h.exhausted w hthrown
  obtain ⟨c, rest, htodo⟩ := List.exists_cons_of_ne_nil hne
  have hzone := zone_of_todo htodo
  rw [hpc] at hzone
  exact ⟨c, rest, htodo, ⟨_, _, hzone, rfl⟩, _, hzone, rfl⟩

theorem Pc.waiting_opened {pc : Pc} (h : pc.waiting = true) : pc.zone.opened = some true := by
  cases pc <;> first | rfl | cases h

theorem accessStep_waiting {numRegions e core serial : Nat} {pc pc' : Pc} {m m' : Memory}
    (hpc : pc.waiting = true) (h : accessStep numRegions e core serial pc m = some (pc', m')) :
    m'.value.globalArray = m.value.globalArray ∧ m'.value.rowRegion = m.value.rowRegion ∧
      m'.value.master = m.value.master := by
  cases pc <;> simp only [Pc.waiting, Bool.false_eq_true] at hpc
  all_goals
    simp only [accessStep] at h
    split at h <;> cases h <;> exact ⟨rfl, rfl, rfl⟩

theorem callStep_waiting {numRegions w : Nat} {s : State Key} (h : Inv s) {c : Call Key}
    {rest : List (Call Key)}
    (htodo : (s.workers w).todo = c :: rest) (hpc : (s.workers w).pc.waiting = true) {pc : Pc}
    {m : Memory}
    (hcall : callStep numRegions s w c (s.workers w).pc (s.memory c.index) = some (pc, m)) :
    m.value.globalArray = (s.rows c.index).value.globalArray ∧
      m.value.rowRegion = (s.rows c.index).value.rowRegion ∧
        m.value.master = (s.rows c.index).value.master := by
  cases hp : s.phase with
  | initialization =>
    simp only [callStep, hp] at hcall
    exact accessStep_waiting hpc hcall
  | execution =>
    have hopened := Pc.waiting_opened hpc
    rw [h.idle hp w _ _ (zone_of_todo htodo)] at hopened
    cases hopened

variable [DecidableEq Key]

instance (numRegions : Nat) (s : State Key) (w : Nat) : Decidable (s.Exhausted numRegions w) := by
  unfold State.Exhausted
  infer_instance

/-- The exception makes no access on its way out of the call. -/
def throwingStep (wl : Workload Key) (numRegions : Nat) :
    Choice → Throwing Key → Option (Throwing Key)
  | .worker w, s =>
    if s.thrown w then none
    else if s.Exhausted numRegions w then some { s with thrown := Function.update s.thrown w true }
    else (step wl numRegions (.worker w) s.toState).map (fun t => ⟨t, s.thrown⟩)
  | .barrier, s => (step wl numRegions .barrier s.toState).map (fun t => ⟨t, s.thrown⟩)

def throwingSystem (wl : Workload Key) (numRegions : Nat) :
    TransitionSystem (Throwing Key) Choice :=
  ⟨throwingStep wl numRegions⟩

/-- What a call that has thrown should leave behind, at the end of a run. -/
structure CleanThrow (wl : Workload Key) (numRegions : Nat) (is : List Choice)
    (start s : Throwing Key) (w : Nat) : Prop where
  pool : s.controller.lock.FreeOf (HoldsPool s.toState) w
  row : ∀ k, (s.rows k).value.rwl.FreeOf (HoldsRow s.toState k) w
  unchanged : ∀ u u', (throwingSystem wl numRegions).Takes is start u (.worker w) u' →
    (u.workers w).pc.waiting = true → ∀ k,
      (u'.rows k).value.globalArray = (u.rows k).value.globalArray ∧
        (u'.rows k).value.rowRegion = (u.rows k).value.rowRegion ∧
          (u'.rows k).value.master = (u.rows k).value.master
  others : ∀ w' c rest, w' ≠ w → s.thrown w' = false → (s.workers w').todo = c :: rest →
    ∃ t, (throwingSystem wl numRegions).Reachable (· = s) t ∧ (t.workers w').todo = rest

/-- Every `fetch_new_region` of the run finds a region left. -/
def RoomAtFetches (wl : Workload Key) (numRegions : Nat) (is : List Choice)
    (start : Throwing Key) : Prop :=
  ∀ u w u', (throwingSystem wl numRegions).Takes is start u (.worker w) u' →
    (u.workers w).pc = .fetchRead → u.controller.used < numRegions

/-- Up to the pool's answer no contended call of the run changes what a row holds. -/
def KeepsRows (wl : Workload Key) (numRegions : Nat) (is : List Choice) (start : Throwing Key) :
    Prop :=
  ∀ u w u', (throwingSystem wl numRegions).Takes is start u (.worker w) u' →
    (u.workers w).pc.waiting = true → ∀ k,
      (u'.rows k).value.globalArray = (u.rows k).value.globalArray ∧
        (u'.rows k).value.rowRegion = (u.rows k).value.rowRegion ∧
          (u'.rows k).value.master = (u.rows k).value.master

/-- Behind a call that threw, no call that has to fetch ever gets any further. -/
def Starves (wl : Workload Key) (numRegions : Nat) (s : Throwing Key) : Prop :=
  ∀ w w' c rest t, s.thrown w = true → (s.workers w').todo = c :: rest →
    (s.workers w').pc = .fetchLock → (throwingSystem wl numRegions).Reachable (· = s) t →
      (t.workers w').todo = c :: rest ∧ (t.workers w').pc = .fetchLock

variable {wl : Workload Key} {numRegions : Nat} {s s' start t : Throwing Key} {w : Nat}
variable {i : Choice} {is : List Choice}

/-- A worker's step moves no other worker. -/
theorem workers_other {s s' : State Key} {w' : Nat}
    (hstep : step wl numRegions (.worker w') s = some s') (hw : w ≠ w') :
    s'.workers w = s.workers w := by
  simp only [step] at hstep
  split at hstep
  · cases hstep
  · split at hstep
    · cases hstep
      exact Function.update_of_ne hw _ _
    · obtain ⟨⟨pc, m⟩, _, he⟩ := Option.map_eq_some_iff.mp hstep
      cases he
      exact Function.update_of_ne hw _ _

/-- The barrier waits for every call. -/
theorem todo_of_barrier {s s' : State Key} (h : Inv s)
    (hstep : step wl numRegions .barrier s = some s') (w : Nat) : (s.workers w).todo = [] := by
  simp only [step] at hstep
  split at hstep
  · rename_i hall
    by_cases hw : w < 64
    · exact hall w hw
    · cases htodo : (s.workers w).todo with
      | nil => rfl
      | cons c rest =>
        have hzone := h.absent w (Nat.not_lt.mp hw)
        rw [zone_of_todo htodo] at hzone
        cases hzone
  · cases hstep

/-- Regions only go out of the pool. -/
theorem used_le_step {s s' : State Key} (h : Inv s) (hstep : step wl numRegions i s = some s') :
    s.controller.used ≤ s'.controller.used := by
  cases i with
  | worker w =>
    simp only [step] at hstep
    split at hstep
    · cases hstep
    · rename_i c rest htodo
      split at hstep
      · cases hstep
        exact Nat.le_refl _
      · obtain ⟨⟨pc, m⟩, hcall, he⟩ := Option.map_eq_some_iff.mp hstep
        cases he
        cases hp : s.phase with
        | initialization => exact (h.moves hp htodo hcall).used_le
        | execution =>
          simp only [callStep, hp] at hcall
          obtain ⟨⟨pc', m'⟩, hexec, he⟩ := Option.map_eq_some_iff.mp hcall
          cases he
          obtain ⟨_, hctrl, _, _⟩ := executionStep_keeps hexec
          exact Nat.le_of_eq (congrArg RowRegionController.used hctrl).symm
  | barrier =>
    simp only [step] at hstep
    split at hstep
    · cases hstep
      cases s.phase <;> exact Nat.le_refl _
    · cases hstep

/-- The shapes of a step: an access, or the exception. -/
theorem throwing_cases (h : throwingStep wl numRegions i s = some s') :
    (step wl numRegions i s.toState = some s'.toState ∧ s'.thrown = s.thrown ∧
      ∀ w, i = .worker w → s.thrown w = false ∧ ¬ s.Exhausted numRegions w) ∨
    (∃ w, i = .worker w ∧ s.thrown w = false ∧ s.Exhausted numRegions w ∧
      s' = { s with thrown := Function.update s.thrown w true }) := by
  cases i with
  | worker w =>
    simp only [throwingStep] at h
    split at h
    · cases h
    · rename_i hthrown
      rw [Bool.not_eq_true] at hthrown
      split at h
      · rename_i hex
        cases h
        exact Or.inr ⟨w, rfl, hthrown, hex, rfl⟩
      · rename_i hex
        obtain ⟨t, ht, rfl⟩ := Option.map_eq_some_iff.mp h
        refine Or.inl ⟨ht, rfl, ?_⟩
        rintro w' ⟨⟩
        exact ⟨hthrown, hex⟩
  | barrier =>
    obtain ⟨t, ht, rfl⟩ := Option.map_eq_some_iff.mp h
    exact Or.inl ⟨ht, rfl, nofun⟩

theorem ThrowInv.step (h : ThrowInv numRegions s) (hstep : throwingStep wl numRegions i s = some s') :
    ThrowInv numRegions s' ∧ ∀ w, s.thrown w = true →
      s'.thrown w = true ∧ s'.workers w = s.workers w := by
  rcases throwing_cases hstep with ⟨hbase, hsame, hmover⟩ | ⟨w, rfl, hthrown, hex, rfl⟩
  · have hstays : ∀ w, s.thrown w = true → s'.workers w = s.workers w := by
      intro w hw
      cases i with
      | worker w' =>
        refine workers_other hbase ?_
        rintro rfl
        rw [(hmover w rfl).1] at hw
        cases hw
      | barrier =>
        exact absurd (todo_of_barrier h.inv hbase w) (h.exhausted w hw).1
    refine ⟨⟨h.inv.step hbase, ?_⟩, fun w hw => ⟨hsame ▸ hw, hstays w hw⟩⟩
    intro w hw
    rw [hsame] at hw
    obtain ⟨hne, hpc, hfull⟩ := h.exhausted w hw
    unfold State.Exhausted
    rw [hstays w hw]
    exact ⟨hne, hpc, Nat.le_trans hfull (used_le_step h.inv hbase)⟩
  · refine ⟨⟨h.inv, ?_⟩, ?_⟩
    · intro w' hw'
      by_cases hw : w' = w
      · subst hw
        exact hex
      · exact h.exhausted w' (by simpa [hw] using hw')
    · intro w' hw'
      refine ⟨?_, rfl⟩
      by_cases hw : w' = w
      · simp [hw]
      · simpa [hw] using hw'

theorem Quiet.run (h : Quiet numRegions start)
    (ht : (throwingSystem wl numRegions).Reachable (· = start) t) : ThrowInv numRegions t := by
  refine ht.invariant ?_ ?_
  · rintro s rfl
    refine ⟨h.inv, fun w hw => ?_⟩
    rw [h.thrown w] at hw
    cases hw
  · intro i s s' hi hstep
    exact (hi.step hstep).1

/-- A `fetch_new_region` without a region left throws. -/
theorem throws {u u' : Throwing Key}
    (hstep : throwingStep wl numRegions (.worker w) u = some u')
    (hpc : (u.workers w).pc = .fetchRead) (hfull : numRegions ≤ u.controller.used) :
    u'.thrown w = true := by
  rcases throwing_cases hstep with ⟨hbase, _, hmover⟩ | ⟨w', he, _, _, rfl⟩
  · have hnot := (hmover w rfl).2
    have hnil : (u.workers w).todo = [] := by
      by_contra hne
      exact hnot ⟨hne, hpc, hfull⟩
    simp [step, hnil] at hbase
  · cases he
    simp

/-- For ever. -/
theorem Quiet.forever (h : Quiet numRegions start)
    (hs : (throwingSystem wl numRegions).Reachable (· = start) s) (hthrown : s.thrown w = true)
    (ht : (throwingSystem wl numRegions).Reachable (· = s) t) :
    t.thrown w = true ∧ t.controller.lock.tryLock = none ∧
      ∃ c rest, (s.workers w).todo = c :: rest ∧ (t.rows c.index).value.rwl.tryLock = none := by
  have hstays : t.thrown w = true ∧ t.workers w = s.workers w := by
    induction ht with
    | start he =>
      subst he
      exact ⟨hthrown, rfl⟩
    | next i hr hstep ih =>
      obtain ⟨hw, hsame⟩ := ((h.run (hs.trans hr)).step hstep).2 w ih.1
      exact ⟨hw, hsame.trans ih.2⟩
  have hi := h.run (hs.trans ht)
  obtain ⟨c, rest, htodo, hpool, hrow⟩ := hi.holds hstays.1
  rw [hstays.2] at htodo
  exact ⟨hstays.1, hi.inv.poolLock.tryLock_none hpool, c, rest, htodo,
    (hi.inv.rowLock c.index).tryLock_none hrow⟩

/-- `fetch_new_region` waits for the pool's lock. -/
theorem fetchLock_refused {s : State Key} (h : Inv s) {c : Call Key} {rest : List (Call Key)}
    (htodo : (s.workers w).todo = c :: rest) (hpc : (s.workers w).pc = .fetchLock)
    (hlock : s.controller.lock.tryLock = none) {x : State Key} :
    step wl numRegions (.worker w) s ≠ some x := by
  have hphase : s.phase = .initialization := by
    cases hp : s.phase with
    | initialization => rfl
    | execution =>
      have hzone := h.idle hp w _ _ (zone_of_todo htodo)
      rw [hpc] at hzone
      cases hzone
  have hpool : (s.memory c.index).controller.lock.lock = none := hlock
  simp [step, htodo, hpc, callStep, hphase, accessStep, hpool]

/-- The throwing worker has the pool locked for ever. -/
theorem Quiet.starves (h : Quiet numRegions start)
    (hs : (throwingSystem wl numRegions).Reachable (· = start) s) : Starves wl numRegions s := by
  intro w w' c rest t hthrown htodo hpc ht
  induction ht with
  | start he =>
    subst he
    exact ⟨htodo, hpc⟩
  | @next t t' i hr hstep ih =>
    obtain ⟨htodo, hpc⟩ := ih
    have hi := h.run (hs.trans hr)
    rcases throwing_cases hstep with ⟨hbase, _⟩ | ⟨_, _, _, _, rfl⟩
    · cases i with
      | worker w'' =>
        by_cases hw : w' = w''
        · subst hw
          exact absurd hbase (fetchLock_refused hi.inv htodo hpc (h.forever hs hthrown hr).2.1)
        · rw [workers_other hbase hw]
          exact ⟨htodo, hpc⟩
      | barrier =>
        rw [todo_of_barrier hi.inv hbase w'] at htodo
        cases htodo
    · exact ⟨htodo, hpc⟩

/-- Up to the pool's answer the contended path writes nothing of a row but its lock. -/
theorem waiting_keeps {s s' : State Key} (h : Inv s)
    (hstep : step wl numRegions (.worker w) s = some s')
    (hpc : (s.workers w).pc.waiting = true) (k : Key) :
    (s'.rows k).value.globalArray = (s.rows k).value.globalArray ∧
      (s'.rows k).value.rowRegion = (s.rows k).value.rowRegion ∧
        (s'.rows k).value.master = (s.rows k).value.master := by
  simp only [step] at hstep
  split at hstep
  · cases hstep
  · rename_i c rest htodo
    split at hstep
    · cases hstep
      exact ⟨rfl, rfl, rfl⟩
    · obtain ⟨⟨pc, m⟩, hcall, he⟩ := Option.map_eq_some_iff.mp hstep
      cases he
      have hrow := callStep_waiting h htodo hpc hcall
      by_cases hk : k = c.index
      · subst hk
        simp only [State.advance, Function.update_self]
        exact hrow
      · simp [State.advance, Function.update_of_ne hk]

/-- So it is never the row that an exception leaves half changed. -/
theorem Quiet.keepsRows (h : Quiet numRegions start)
    (hr : (throwingSystem wl numRegions).run is start = some s) :
    KeepsRows wl numRegions is start := by
  intro u w u' htakes hpc k
  obtain ⟨hu, _⟩ := htakes.split hr
  have hstep : throwingStep wl numRegions (.worker w) u = some u' := htakes.step
  rcases throwing_cases hstep with ⟨hbase, _⟩ | ⟨_, _, _, _, rfl⟩
  · exact waiting_keeps (h.run hu).inv hbase hpc k
  · exact ⟨rfl, rfl, rfl⟩

theorem ThrowInv.unclean (h : ThrowInv numRegions s) (hthrown : s.thrown w = true) :
    ¬ CleanThrow wl numRegions is start s w := by
  intro hclean
  obtain ⟨_, _, _, hpool, _⟩ := h.holds hthrown
  exact h.inv.poolLock.not_freeOf hpool hclean.pool

/-- A run leaves every call that threw with nothing locked exactly when none threw: every
`fetch_new_region` found a region. -/
theorem clean_iff (h : Quiet numRegions start)
    (hr : (throwingSystem wl numRegions).run is start = some s) :
    (∀ w, s.thrown w = true → CleanThrow wl numRegions is start s w) ↔
      RoomAtFetches wl numRegions is start := by
  have hstart : (throwingSystem wl numRegions).Reachable (· = start) start := .start rfl
  constructor
  · intro hclean u w u' htakes hpc
    by_contra hfull
    obtain ⟨hu, hrest⟩ := htakes.split hr
    have hthrown := throws htakes.step hpc (Nat.not_lt.mp hfull)
    have hend := (h.forever (.next _ hu htakes.step) hthrown hrest).1
    exact (h.run (hstart.run hr)).unclean hend (hclean w hend)
  · intro hroom w hthrown
    have hnot : ¬ start.thrown w = true := by
      rw [h.thrown w]
      exact nofun
    obtain ⟨u, i, u', htakes, hn, ht⟩ := exists_takes (fun t => t.thrown w = true) hr hnot hthrown
    rcases throwing_cases htakes.step with ⟨_, hsame, _⟩ | ⟨w', rfl, _, hex, rfl⟩
    · exact absurd (hsame ▸ ht) hn
    · by_cases hw : w = w'
      · subst hw
        exact absurd (hroom u w _ htakes hex.2.1) (Nat.not_lt.mpr hex.2.2)
      · exact absurd (by simpa [hw] using ht) hn

end Exhaustion

section Run

def noTransactions : Workload Nat := ⟨fun _ => [], fun _ => List.nodup_nil⟩

/-- So many regions serve rows, and two workers are about to write one more. -/
def poolInUse (used : Nat) : Throwing Nat where
  epoch := 1
  phase := .initialization
  workers := fun w => ⟨if w < 2 then [⟨w, ⟨.update, 0⟩⟩] else [], .start⟩
  rows := fun k =>
    let rowRegion := if 1 ≤ k ∧ k ≤ used then some (k - 1) else none
    { loadedRow with value := { loadedRow.value with epoch := 1, rowRegion } }
  controller := ⟨fun _ => RowRegion.fresh, {}, used⟩
  thrown := fun _ => false

def fullPool : Throwing Nat := poolInUse 10000

/-- Worker 1 finds the row locked by worker 0, and fetches a region for it. -/
def crowding : List Choice :=
  List.replicate 2 (.worker 0) ++ List.replicate 2 (.worker 1) ++ List.replicate 4 (.worker 0) ++
    List.replicate 5 (.worker 1)

theorem poolInUse_quiet {used : Nat} (h : used ≤ 10000) : Quiet 10000 (poolInUse used) := by
  have hregion : ∀ k r, ((poolInUse used).rows k).value.rowRegion = some r →
      k = r + 1 ∧ r < used := by
    intro k r hr
    simp only [poolInUse, Option.ite_none_right_eq_some, Option.some.injEq] at hr
    omega
  refine ⟨fun _ => Nat.le_refl 1, fun _ => rfl, rfl, h, fun k r hr => (hregion k r hr).2, ?_,
    fun _ => rfl, ?_, fun _ => rfl⟩
  · intro k k' r hr hr'
    exact (hregion k r hr).1.trans (hregion k' r hr').1.symm
  · intro w hw
    have hlt : ¬ w < 2 := by omega
    simp only [poolInUse, hlt, if_false]

theorem fullPool_quiet : Quiet 10000 fullPool := poolInUse_quiet (Nat.le_refl 10000)

theorem crowding_throws : ∃ s,
    (throwingSystem noTransactions 10000).run crowding fullPool = some s ∧ s.thrown 1 = true ∧
      s.controller.lock.cnt = -1 ∧ (s.rows 0).value.rwl.cnt = -1 ∧
        ¬ CleanThrow noTransactions 10000 crowding fullPool s 1 := by
  have hstart : (throwingSystem noTransactions 10000).Reachable (· = fullPool) fullPool :=
    .start rfl
  have hrun : ((throwingSystem noTransactions 10000).run crowding fullPool).map
      (fun s => (s.thrown 1, s.controller.lock.cnt, (s.rows 0).value.rwl.cnt)) =
        some (true, -1, -1) := by decide +kernel
  obtain ⟨s, hs, hx⟩ := Option.map_eq_some_iff.mp hrun
  simp only [Prod.mk.injEq] at hx
  have hinv := fullPool_quiet.run (hstart.run hs)
  exact ⟨s, hs, hx.1, hx.2.1, hx.2.2, hinv.unclean hx.1⟩

/-- With one region left, worker 1 gets it and both writes return. -/
theorem crowding_returns : ∃ s,
    (throwingSystem noTransactions 10000).run
      (crowding ++ [.worker 0] ++ List.replicate 27 (.worker 1)) (poolInUse 9999) = some s ∧
      (s.rows 0).value.rowRegion = some 9999 ∧ ∀ w, s.thrown w = false := by
  have hstart : (throwingSystem noTransactions 10000).Reachable (· = poolInUse 9999)
      (poolInUse 9999) := .start rfl
  have hrun : ((throwingSystem noTransactions 10000).run
      (crowding ++ [.worker 0] ++ List.replicate 27 (.worker 1)) (poolInUse 9999)).map
      (fun s => ((s.rows 0).value.rowRegion, decide (∀ w < (64 : Nat), (s.workers w).todo = []))) =
        some (some 9999, true) := by decide +kernel
  obtain ⟨s, hs, hx⟩ := Option.map_eq_some_iff.mp hrun
  simp only [Prod.mk.injEq, decide_eq_true_eq] at hx
  refine ⟨s, hs, hx.1, fun w => ?_⟩
  have hinv := (poolInUse_quiet (by decide)).run (hstart.run hs)
  rw [Bool.eq_false_iff]
  intro hthrown
  obtain ⟨c, rest, htodo, _⟩ := hinv.holds hthrown
  by_cases hw : w < 64
  · rw [hx.2 w hw] at htodo
    cases htodo
  · have hzone := hinv.inv.absent w (Nat.not_lt.mp hw)
    rw [zone_of_todo htodo] at hzone
    cases hzone

end Run
end Mvdcc.Serval.Accesses
