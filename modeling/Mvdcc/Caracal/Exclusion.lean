import Mvdcc.Caracal.Ownership

namespace Mvdcc.Caracal
open Library

/-- The places of a call with the lock of its row. -/
def Pc.holdsRow : Pc → Bool
  | .uncontended | .flush _ _ | .unlockRow _ => true
  | _ => false

/-- The places of a call with the lock of the pool. The exception leaves it locked. -/
def Pc.holdsPool : Pc → Bool
  | .fetchLocked | .fetchUnlock _ | .thrown => true
  | _ => false

def FinalizePc.held : FinalizePc Key → Option Key
  | .scan => none
  | .flush k _ | .unlock k => some k

section Calls
variable {Key : Type u} {cfg : Config} {s : State Key}
variable {w position epoch core serial : Nat} {k : Key} {pc pc' : Pc} {m m' : Memory Key}
variable {ope : Ope} {r r' : Row}

/-- What one step of a call does to the two locks it can reach. -/
structure LockMoves (m m' : Memory Key) (pc pc' : Pc) : Prop where
  row : RWLock.Moves m.globalArray.rwl m'.globalArray.rwl (pc.holdsRow = true) (pc'.holdsRow = true)
  pool : RWLock.Moves m.controller.lock m'.controller.lock (pc.holdsPool = true)
    (pc'.holdsPool = true)

theorem moves_keep {l l' : RWLock} {b b' : Bool} (hl : l' = l) (hb : b' = b) :
    RWLock.Moves l l' (b = true) (b' = true) :=
  Or.inl ⟨hl, by rw [hb]⟩

theorem moves_give {l l' : RWLock} {b b' : Bool} (hl : l' = l.unlock) (hb : b = true)
    (hb' : b' = false) : RWLock.Moves l l' (b = true) (b' = true) :=
  Or.inr (Or.inr ⟨hb, by rw [hb']; exact Bool.false_ne_true, hl⟩)

theorem LockMoves.keep (hrow : m'.globalArray.rwl = m.globalArray.rwl)
    (hpool : m'.controller.lock = m.controller.lock) (h : pc'.holdsRow = pc.holdsRow)
    (h' : pc'.holdsPool = pc.holdsPool) : LockMoves m m' pc pc' :=
  ⟨moves_keep hrow h, moves_keep hpool h'⟩

theorem batchAppend_rwl (r : Row) (buffer : PerCoreBuffer) (epoch : Nat) :
    (r.batchAppend buffer epoch).2.globalArray.rwl = r.globalArray.rwl := by
  simp only [Row.batchAppend, GlobalVersionArray.batchAppend_eq]

variable [DecidableEq Key]

theorem appendStep_locks (h : appendStep cfg position epoch core serial k pc m = some (pc', m')) :
    LockMoves m m' pc pc' := by
  cases pc <;> simp only [appendStep, reduceCtorEq] at h
  case start =>
    split at h <;> cases h <;> exact .keep rfl rfl rfl rfl
  case tryLock =>
    split at h
    · rename_i row hrow
      cases h
      obtain ⟨rwl, hl, rfl⟩ := Option.map_eq_some_iff.mp hrow
      exact ⟨Or.inr (Or.inl ⟨hl, rfl⟩), moves_keep rfl rfl⟩
    · cases h
      exact .keep rfl rfl rfl rfl
  case uncontended =>
    cases h
    exact .keep rfl rfl rfl rfl
  case fetch =>
    split at h
    · cases h
      exact .keep rfl rfl rfl rfl
    · obtain ⟨l, hl, he⟩ := Option.map_eq_some_iff.mp h
      cases he
      exact ⟨moves_keep rfl rfl, Or.inr (Or.inl ⟨hl, rfl⟩)⟩
  case fetchLocked =>
    split at h
    · cases h
      exact .keep rfl rfl rfl rfl
    · rename_i b c hf
      cases h
      obtain ⟨_, rfl, rfl⟩ := RowBufferController.fetchNewBuffer_eq_some.mp hf
      exact .keep rfl rfl rfl rfl
  case fetchUnlock b =>
    cases h
    exact ⟨moves_keep rfl rfl, moves_give rfl rfl rfl⟩
  case install b =>
    split at h <;> cases h <;> exact .keep rfl rfl rfl rfl
  case reload b =>
    split at h
    · cases h
      exact .keep rfl rfl rfl rfl
    · cases h
  case contended b =>
    split at h <;> cases h <;> exact .keep rfl rfl rfl rfl
  case lockRow p b =>
    obtain ⟨row, hrow, he⟩ := Option.map_eq_some_iff.mp h
    obtain ⟨rwl, hl, rfl⟩ := Option.map_eq_some_iff.mp hrow
    cases he
    exact ⟨Or.inr (Or.inl ⟨hl, rfl⟩), moves_keep rfl rfl⟩
  case flush p b =>
    cases h
    exact .keep (batchAppend_rwl _ _ _) rfl rfl rfl
  case unlockRow p =>
    cases h
    exact ⟨moves_give rfl rfl rfl, moves_keep rfl rfl⟩

theorem executionStep_locks (h : executionStep epoch serial ope pc r = some (pc', r')) :
    r'.globalArray = r.globalArray ∧ pc.holdsRow = false ∧ pc'.holdsRow = false ∧
      pc.holdsPool = false ∧ pc'.holdsPool = false := by
  cases pc <;> simp only [executionStep, reduceCtorEq] at h
  case start =>
    cases ope with
    | read =>
      obtain ⟨_, _, he⟩ := Option.map_eq_some_iff.mp h
      cases he
      exact ⟨rfl, rfl, rfl, rfl, rfl⟩
    | update =>
      simp only at h
      split at h <;> cases h <;> exact ⟨rfl, rfl, rfl, rfl, rfl⟩
  case waitStable v =>
    split at h <;> cases h <;> exact ⟨rfl, rfl, rfl, rfl, rfl⟩
  all_goals
    cases h
    exact ⟨rfl, rfl, rfl, rfl, rfl⟩

theorem callStep_locks {c : Call Key}
    (h : callStep cfg s w position c pc m = some (pc', m')) : LockMoves m m' pc pc' := by
  unfold callStep at h
  split at h
  · exact appendStep_locks h
  · obtain ⟨⟨pc'', row⟩, hstep, he⟩ := Option.map_eq_some_iff.mp h
    cases he
    obtain ⟨hg, h1, h2, h3, h4⟩ := executionStep_locks hstep
    exact .keep (congrArg GlobalVersionArray.rwl hg) rfl (h2.trans h1.symm) (h4.trans h3.symm)

end Calls

section Locked
variable {Key : Type u} {s s' : State Key} {w : Nat} {k : Key} {c : Call Key}
variable {rest : List (Call Key)}

def State.held (s : State Key) (w : Nat) : Option Key :=
  match (s.workers w).todo with
  | [] => (s.finalizers w).pc.held
  | c :: _ => if (s.workers w).pc.holdsRow then some c.index else none

/-- Every lock is held by the worker that thinks so, and finalization comes after
the worker's calls. -/
structure Locked (numCore : Nat) (s : State Key) : Prop where
  rows : ∀ k, (s.rows k).globalArray.rwl.Exclusive (fun w => s.held w = some k)
  pool : s.controller.lock.Exclusive (fun w => (s.workers w).pc.holdsPool = true)
  busy : ∀ w, (s.workers w).todo ≠ [] → s.finalizers w = .idle
  limit : ∀ w, numCore ≤ w → s.finalizers w = .idle

/-- A worker without a call to make, or outside of the experiment, is at a start. -/
structure Resting (numCore : Nat) (s : State Key) : Prop where
  resting : ∀ w, (s.workers w).todo = [] → (s.workers w).pc = .start
  limit : ∀ w, numCore ≤ w → (s.workers w).pc = .start

theorem Owned.rests {n : Nat} (h : Owned n s) : Resting n s :=
  ⟨h.resting, fun w hle => (h.limit w hle).1⟩

theorem held_of_head (htodo : (s.workers w).todo = c :: rest) :
    s.held w = if (s.workers w).pc.holdsRow then some c.index else none := by
  unfold State.held
  rw [htodo]

theorem held_of_nil (htodo : (s.workers w).todo = []) :
    s.held w = (s.finalizers w).pc.held := by
  unfold State.held
  rw [htodo]

/-- A worker at the start of its call, or with nothing to do, holds no lock. -/
theorem held_start (hpc : (s.workers w).pc = .start) (hidle : s.finalizers w = .idle) :
    s.held w = none := by
  cases htodo : (s.workers w).todo with
  | nil =>
    rw [held_of_nil htodo, hidle]
    rfl
  | cons c rest =>
    rw [held_of_head htodo, hpc]
    rfl

/-- No lock changes hands when no worker's hold does. -/
theorem Locked.of_held {n : Nat} (h : Locked n s) (hrows : s'.rows = s.rows)
    (hcontroller : s'.controller = s.controller) (hheld : ∀ w, s'.held w = s.held w)
    (hpool : ∀ w, (s'.workers w).pc.holdsPool = (s.workers w).pc.holdsPool)
    (hbusy : ∀ w, (s'.workers w).todo ≠ [] → s'.finalizers w = .idle)
    (hlimit : ∀ w, n ≤ w → s'.finalizers w = .idle) : Locked n s' := by
  refine ⟨fun k => ?_, ?_, hbusy, hlimit⟩
  · rw [hrows]
    exact (h.rows k).keep (fun w => by rw [hheld])
  · rw [hcontroller]
    exact h.pool.keep (fun w => by rw [hpool])

theorem Locked.return {n : Nat} (h : Locked n s) (htodo : (s.workers w).todo = c :: rest)
    (hpc : (s.workers w).pc = .done) : Locked n (s.return w rest) := by
  have hself : (s.return w rest).workers w = ⟨rest, .start⟩ := Function.update_self _ _ _
  have hworkers : ∀ w', w' ≠ w → (s.return w rest).workers w' = s.workers w' :=
    fun w' hw => Function.update_of_ne hw _ _
  have hidle : s.finalizers w = .idle := h.busy w (by rw [htodo]; exact List.cons_ne_nil _ _)
  refine h.of_held rfl rfl ?_ ?_ ?_ h.limit
  · intro w'
    by_cases hw : w' = w
    · subst hw
      rw [held_of_head htodo, hpc]
      exact held_start (by rw [hself]) hidle
    · unfold State.held
      rw [hworkers w' hw]
      rfl
  · intro w'
    by_cases hw : w' = w
    · subst hw
      rw [hself, hpc]
      rfl
    · rw [hworkers w' hw]
  · intro w' hne
    by_cases hw : w' = w
    · rw [hw]
      exact hidle
    · rw [hworkers w' hw] at hne
      exact h.busy w' hne

/-- A pass that moves on without a lock. -/
theorem Locked.pass {n : Nat} (h : Locked n s) (hw : w < n) (htodo : (s.workers w).todo = [])
    {f : Finalizer Key} (hf : f.pc.held = (s.finalizers w).pc.held) :
    Locked n (s.setFinalizer w f) := by
  have hother : ∀ w', w' ≠ w → (s.setFinalizer w f).finalizers w' = s.finalizers w' :=
    fun w' hne => Function.update_of_ne hne _ _
  refine h.of_held rfl rfl ?_ (fun _ => rfl) ?_ ?_
  · intro w'
    by_cases hww : w' = w
    · subst hww
      rw [held_of_nil htodo, held_of_nil (s := s.setFinalizer w' f) htodo, ← hf]
      simp [State.setFinalizer]
    · unfold State.held
      rw [hother w' hww]
      rfl
  · intro w' hne
    have hww : w' ≠ w := by
      rintro rfl
      exact hne htodo
    rw [hother w' hww]
    exact h.busy w' hne
  · intro w' hle
    rw [hother w' (by omega)]
    exact h.limit w' hle

/-- Through the barrier no worker holds a lock. -/
theorem Locked.enter {n : Nat} (h : Locked n s) (hr : Resting n s) (hall : ∀ w < n, s.Idle w)
    (prog : Program Key) (phase : Phase) (epoch : Nat) : Locked n (s.enter prog phase epoch) := by
  have hidle : ∀ w, s.finalizers w = .idle := by
    intro w
    by_cases hw : w < n
    · exact (hall w hw).2.2
    · exact h.limit w (Nat.not_lt.mp hw)
  have hstart : ∀ w, (s.workers w).pc = .start := by
    intro w
    by_cases hw : w < n
    · exact hr.resting w (hall w hw).1
    · exact hr.limit w (Nat.not_lt.mp hw)
  refine h.of_held rfl rfl ?_ ?_ (fun w _ => hidle w) (fun w _ => hidle w)
  · intro w
    rw [held_start (hstart w) (hidle w)]
    exact held_start rfl (hidle w)
  · intro w
    rw [hstart w]
    rfl

theorem locked_initial (n : Nat) (prog : Program Key) : Locked n (initial prog) := by
  refine ⟨fun k => Or.inl ⟨rfl, fun w => ?_⟩, Or.inl ⟨rfl, fun w => Bool.false_ne_true⟩,
    fun _ _ => rfl, fun _ _ => rfl⟩
  have hnone : (initial prog).held w = none := held_start rfl rfl
  simp [hnone]

variable [DecidableEq Key]

/-- One worker moves on one row. -/
theorem Locked.move_row {n : Nat} (h : Locked n s) {r : Row}
    (hrows : s'.rows = Function.update s.rows k r)
    (hself : ∀ k', k' ≠ k → (s'.held w = some k' ↔ s.held w = some k'))
    (hother : ∀ w', w' ≠ w → s'.held w' = s.held w')
    (hm : RWLock.Moves (s.rows k).globalArray.rwl r.globalArray.rwl (s.held w = some k)
      (s'.held w = some k)) (k' : Key) :
    (s'.rows k').globalArray.rwl.Exclusive (fun w => s'.held w = some k') := by
  rw [hrows]
  by_cases hk : k' = k
  · subst hk
    rw [Function.update_self]
    exact (h.rows k').move hm (fun w' hw => by rw [hother w' hw])
  · rw [Function.update_of_ne hk]
    refine (h.rows k').keep (fun w' => ?_)
    by_cases hw : w' = w
    · rw [hw]
      exact hself k' hk
    · rw [hother w' hw]

variable {cfg : Config} {prog : Program Key} {pc : Pc} {m : Memory Key}

theorem Locked.advance {n : Nat} (h : Locked n s) (htodo : (s.workers w).todo = c :: rest)
    (hm : LockMoves (s.memory w c.index) m (s.workers w).pc pc) :
    Locked n (s.advance w c.index pc m) := by
  have htodo' : ((s.advance w c.index pc m).workers w).todo = c :: rest := by
    simp [State.advance, htodo]
  have hpc' : ((s.advance w c.index pc m).workers w).pc = pc := by
    simp [State.advance]
  have hworkers : ∀ w', w' ≠ w → (s.advance w c.index pc m).workers w' = s.workers w' :=
    fun w' hw => Function.update_of_ne hw _ _
  have hheld := held_of_head htodo
  have hheld' := held_of_head htodo'
  rw [hpc'] at hheld'
  refine ⟨?_, ?_, ?_, h.limit⟩
  · have hrow : RWLock.Moves (s.rows c.index).globalArray.rwl m.globalArray.rwl
        ((s.workers w).pc.holdsRow = true) (pc.holdsRow = true) := hm.row
    refine h.move_row (w := w) rfl ?_ ?_ ?_
    · intro k' hk
      rw [hheld, hheld']
      split <;> split <;> simp [Ne.symm hk]
    · intro w' hw
      unfold State.held
      rw [hworkers w' hw]
      rfl
    · rw [hheld, hheld']
      simpa using hrow
  · refine h.pool.move (i := w) ?_ ?_
    · rw [hpc']
      exact hm.pool
    · intro w' hw
      rw [hworkers w' hw]
  · intro w' hne
    by_cases hw : w' = w
    · subst hw
      exact h.busy w' (by rw [htodo]; exact List.cons_ne_nil _ _)
    · rw [hworkers w' hw] at hne
      exact h.busy w' hne

/-- A step of one worker's finalization. -/
theorem Locked.refinalize {n : Nat} (h : Locked n s) (hw : w < n)
    (htodo : (s.workers w).todo = []) {f : Finalizer Key} {r : Row} {controller : RowBufferController}
    {own : Nat → Own Key} (hlock : controller.lock = s.controller.lock)
    (hself : ∀ k', k' ≠ k → (f.pc.held = some k' ↔ (s.finalizers w).pc.held = some k'))
    (hm : RWLock.Moves (s.rows k).globalArray.rwl r.globalArray.rwl
      ((s.finalizers w).pc.held = some k) (f.pc.held = some k)) :
    Locked n { (s.setRow k r).setFinalizer w f with controller, own } := by
  have hheld : State.held { (s.setRow k r).setFinalizer w f with controller, own } w =
      f.pc.held := by
    rw [held_of_nil (s := { (s.setRow k r).setFinalizer w f with controller, own }) htodo]
    simp [State.setFinalizer]
  refine ⟨?_, ?_, ?_, ?_⟩
  · refine h.move_row (w := w) rfl ?_ ?_ ?_
    · rw [hheld, held_of_nil htodo]
      exact hself
    · intro w' hne
      have hf : State.finalizers { (s.setRow k r).setFinalizer w f with controller, own } w' =
          s.finalizers w' := Function.update_of_ne hne _ _
      unfold State.held
      rw [hf]
      rfl
    · rw [hheld, held_of_nil htodo]
      exact hm
  · rw [show ({ (s.setRow k r).setFinalizer w f with controller, own } : State Key).controller.lock =
      s.controller.lock from hlock]
    exact h.pool
  · intro w' hne
    have hww : w' ≠ w := by
      rintro rfl
      exact hne htodo
    change Function.update s.finalizers w f w' = .idle
    rw [Function.update_of_ne hww]
    exact h.busy w' hne
  · intro w' hle
    have hww : w' ≠ w := by omega
    change Function.update s.finalizers w f w' = .idle
    rw [Function.update_of_ne hww]
    exact h.limit w' hle

theorem Locked.finalize {n : Nat} (h : Locked n s) (hw : w < n) (htodo : (s.workers w).todo = [])
    (hstep : s.finalize cfg w = some s') : Locked n s' := by
  rcases finalize_cases hstep with ⟨f, hpc, hf, _, rfl⟩ | ⟨k, b, rest, rwl, hpc, _, _, hl, rfl⟩ |
    ⟨k, b, hpc, rfl⟩ | ⟨k, hpc, rfl⟩
  · refine h.pass hw htodo ?_
    rw [hf, hpc]
  · refine h.refinalize hw htodo rfl ?_ (Or.inr (Or.inl ⟨hl, rfl⟩))
    intro k' hk
    rw [hpc]
    simp [FinalizePc.held, Ne.symm hk]
  · refine h.refinalize hw htodo rfl ?_ (Or.inl ⟨batchAppend_rwl _ _ _, ?_⟩)
    · intro k' _
      rw [hpc]
      rfl
    · rw [hpc]
      rfl
  · refine h.refinalize hw htodo rfl ?_ (Or.inr (Or.inr ⟨?_, ?_, rfl⟩))
    · intro k' hk
      rw [hpc]
      simp [FinalizePc.held, Ne.symm hk]
    · rw [hpc]
      rfl
    · simp [FinalizePc.held]

theorem Locked.step {i : Choice} (h : Locked cfg.numCore s) (hr : Resting cfg.numCore s)
    (hstep : step cfg prog i s = some s') : Locked cfg.numCore s' := by
  rcases step_cases hstep with ⟨w, c, rest, _, htodo, hpc, rfl⟩ | ⟨w, hw, htodo, _, hfin⟩ |
    ⟨w, position, c, rest, pc, m, hw, htodo, hcall, rfl⟩ | ⟨hall, rfl⟩
  · exact h.return htodo hpc
  · exact h.finalize hw htodo hfin
  · exact h.advance htodo (callStep_locks hcall)
  · cases s.phase with
    | initialization => exact h.enter hr hall prog _ _
    | execution => exact h.enter hr hall prog _ _

theorem Reachable.locked (h : Reachable cfg prog s) : Locked cfg.numCore s :=
  TransitionSystem.Reachable.invariantOf h (fun _ he => he ▸ locked_initial _ prog)
    (fun _ _ _ hr hi hstep => hi.step (Reachable.owned hr).rests hstep)

end Locked
end Mvdcc.Caracal
