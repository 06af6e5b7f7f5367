import Mvdcc.Cheetah.SerialReads

namespace Mvdcc.Cheetah
open Library Bitmap

/-- The places inside a locked section of a call. -/
def Pc.holdsLock : Pc → Bool
  | .placeholder _ | .unlockPlaceholder _ | .lastBody _ | .lastUnlock _ | .identifyWrite
  | .unlockWrite _ => true
  | _ => false

def FinalizePc.held : FinalizePc Key → Option Key
  | .scan => none
  | .update k _ | .unlock k => some k

section Locks
variable {Key : Type u} {wl : Workload Key} {s s' : State Key} {w position e core serial : Nat}
variable {pc pc' : Pc} {r r' : Row} {ope : Ope} {k : Key}

def State.held (s : State Key) (w : Nat) : Option Key :=
  match s.phase with
  | .write => (s.markers w).pc.held
  | _ =>
    match (s.workers w).todo with
    | [] => none
    | c :: _ => if (s.workers w).pc.holdsLock then some c.index else none

/-- What one step does to the lock of its row. -/
def LockMoves (pc pc' : Pc) (r r' : Row) : Prop :=
  RWLock.Moves r.wBitmap.lock r'.wBitmap.lock (pc.holdsLock = true) (pc'.holdsLock = true)

theorem LockMoves.keep (hl : r'.wBitmap.lock = r.wBitmap.lock) (h : pc'.holdsLock = pc.holdsLock) :
    LockMoves pc pc' r r' :=
  Or.inl ⟨hl, by rw [h]⟩

theorem LockMoves.take {l : RWLock} (hl : r.wBitmap.lock.lock = some l)
    (h : pc'.holdsLock = true) : LockMoves pc pc' r (r.setLock l) :=
  Or.inr (Or.inl ⟨hl, h⟩)

theorem LockMoves.give (hl : r'.wBitmap.lock = r.wBitmap.lock.unlock) (h : pc.holdsLock = true)
    (h' : pc'.holdsLock = false) : LockMoves pc pc' r r' :=
  Or.inr (Or.inr ⟨h, by rw [h']; exact Bool.false_ne_true, hl⟩)

theorem readPhaseStep_lock (h : readPhaseStep position e core serial pc r = some (pc', r')) :
    LockMoves pc pc' r r' := by
  cases pc <;> simp only [readPhaseStep, reduceCtorEq] at h
  case start =>
    cases h
    refine .keep rfl ?_
    split <;> rfl
  case addOne =>
    cases h
    exact .keep rfl rfl
  case identify =>
    split at h
    · split at h
      · cases h
        exact .keep rfl rfl
      · cases h
        exact .keep rfl rfl
    · cases h
      exact .keep rfl rfl
  case lockPlaceholder visibleId =>
    obtain ⟨l, hl, rfl, rfl⟩ := Row.lock_step h
    exact .take hl rfl
  case placeholder visibleId =>
    cases h
    refine .keep ?_ rfl
    unfold Row.placeholder
    split <;> rfl
  case unlockPlaceholder v =>
    cases h
    exact .give rfl rfl rfl

theorem identifyWriteVersion_lock (r : Row) (core tx : Nat) :
    (r.identifyWriteVersion core tx).2.wBitmap.lock = r.wBitmap.lock := by
  by_cases hf : r.wBitmap.isFinalState core tx = true
  · by_cases hc : r.wBitmap.coreBitmap = 0#64
    · simp [Row.identifyWriteVersion, hf, hc]
    · simp [Row.identifyWriteVersion, hf, hc, WriteBitmap.clearBitmaps]
  · simp [Row.identifyWriteVersion, hf]

theorem executionStep_lock (h : executionStep e core serial ope pc r = some (pc', r')) :
    LockMoves pc pc' r r' := by
  cases pc <;> simp only [executionStep, reduceCtorEq] at h
  case start =>
    cases ope with
    | read =>
      simp only at h
      split at h
      · cases h
        refine .keep rfl ?_
        split <;> rfl
      · cases h
    | update =>
      obtain ⟨l, hl, rfl, rfl⟩ := Row.lock_step h
      exact .take hl rfl
  case fetch v =>
    cases h
    exact .keep rfl rfl
  case decrement record =>
    cases h
    refine .keep rfl ?_
    split <;> rfl
  case lastLock record =>
    obtain ⟨l, hl, rfl, rfl⟩ := Row.lock_step h
    exact .take hl rfl
  case lastBody record =>
    cases h
    exact .keep rfl rfl
  case lastUnlock record =>
    cases h
    exact .give rfl rfl rfl
  case returning record =>
    cases h
    exact .keep rfl rfl
  case identifyWrite =>
    cases h
    exact .keep (identifyWriteVersion_lock r core (getTxSerial serial)) rfl
  case unlockWrite version =>
    cases version with
    | none =>
      cases h
      exact .give rfl rfl rfl
    | some p =>
      cases h
      exact .give rfl rfl rfl
  case storeRec p =>
    cases h
    exact .keep rfl rfl
  case storeStable p =>
    cases h
    exact .keep rfl rfl

/-- Every lock is held by the worker that thinks so. -/
def Locked (s : State Key) : Prop :=
  ∀ k, (s.rows k).wBitmap.lock.Exclusive (fun w => s.held w = some k)

/-- No lock changes hands when no worker's hold does. -/
theorem Locked.of_held (h : Locked s) (hrows : s'.rows = s.rows)
    (hheld : ∀ w, s'.held w = s.held w) : Locked s' := by
  intro k
  rw [hrows]
  exact (h k).keep (fun w => by rw [hheld])

theorem held_of_head {c : Call Key} {rest : List (Call Key)} (hp : s.phase ≠ .write)
    (htodo : (s.workers w).todo = c :: rest) :
    s.held w = if (s.workers w).pc.holdsLock then some c.index else none := by
  unfold State.held
  rw [htodo]
  cases h : s.phase with
  | write => exact absurd h hp
  | read => rfl
  | execution => rfl

theorem held_idle (hp : s.phase ≠ .write) (htodo : (s.workers w).todo = []) : s.held w = none := by
  unfold State.held
  rw [htodo]
  cases h : s.phase with
  | write => exact absurd h hp
  | read => rfl
  | execution => rfl

theorem held_write (hp : s.phase = .write) : s.held w = (s.markers w).pc.held := by
  unfold State.held
  rw [hp]

theorem held_enter (wl : Workload Key) (s : State Key) {phase : Phase} {e : Nat}
    (hidle : s.markers w = .idle) : (s.enter wl phase e).held w = none := by
  have htodo : ∀ t : List (Call Key), (match t with
      | [] => none
      | c :: _ => if Pc.start.holdsLock then some c.index else none) = (none : Option Key) := by
    intro t
    cases t <;> rfl
  cases phase with
  | write =>
    rw [held_write rfl]
    change (s.markers w).pc.held = none
    rw [hidle]
    rfl
  | read => exact htodo _
  | execution => exact htodo _

variable [DecidableEq Key]

/-- One worker moves on one row. -/
theorem Locked.move (h : Locked s) {r : Row} (hrows : s'.rows = Function.update s.rows k r)
    (hself : ∀ k', k' ≠ k → (s'.held w = some k' ↔ s.held w = some k'))
    (hother : ∀ w', w' ≠ w → s'.held w' = s.held w')
    (hm : RWLock.Moves (s.rows k).wBitmap.lock r.wBitmap.lock (s.held w = some k)
      (s'.held w = some k)) : Locked s' := by
  intro k'
  rw [hrows]
  by_cases hk : k' = k
  · subst hk
    rw [Function.update_self]
    exact (h k').move hm (fun w' hw => by rw [hother w' hw])
  · rw [Function.update_of_ne hk]
    refine (h k').keep (fun w' => ?_)
    by_cases hw : w' = w
    · rw [hw]
      exact hself k' hk
    · rw [hother w' hw]

theorem held_advance_other {w' : Nat} (hw : w' ≠ w) (k : Key) (pc : Pc) (r : Row) :
    (s.advance w k pc r).held w' = s.held w' := by
  simp [State.held, State.advance, hw]

theorem Locked.finalize_step (h : Locked s) (hp : s.phase = .write)
    (hstep : s.finalize w = some s') : Locked s' := by
  have hheld : s.held w = (s.markers w).pc.held := held_write hp
  have hother : ∀ m rows w', w' ≠ w → State.held { s with
      markers := Function.update s.markers w m, rows } w' = s.held w' := by
    intro m rows w' hw
    rw [held_write hp, held_write (s := { s with
      markers := Function.update s.markers w m, rows }) hp]
    simp [hw]
  have hself : ∀ m rows, State.held { s with
      markers := Function.update s.markers w m, rows } w = m.pc.held := by
    intro m rows
    rw [held_write (s := { s with markers := Function.update s.markers w m, rows }) hp]
    simp
  have hkeep : ∀ m : Marker Key, m.pc = .scan → (s.markers w).pc = .scan →
      Locked { s with markers := Function.update s.markers w m } := by
    intro m hm hpc
    refine h.of_held rfl (fun w' => ?_)
    by_cases hw : w' = w
    · rw [hw, hself m s.rows, hheld, hm, hpc]
    · exact hother m s.rows w' hw
  unfold State.finalize at hstep
  simp only at hstep
  split at hstep
  · rename_i hpc
    split at hstep
    · split at hstep
      · cases hstep
      · cases hstep
        exact hkeep _ hpc hpc
    · rename_i k b rest hcons
      split at hstep
      · cases hstep
        exact hkeep _ hpc hpc
      · rename_i row hlock
        obtain ⟨l, hl, rfl⟩ := Option.map_eq_some_iff.mp hlock
        cases hstep
        refine h.move rfl ?_ (hother _ _) (Or.inr (Or.inl ⟨hl, ?_⟩))
        · intro k' hk
          rw [hself, hheld, hpc]
          simp [FinalizePc.held, Ne.symm hk]
        · rw [hself]
          rfl
  · rename_i k b hpc
    cases hstep
    refine h.move rfl ?_ (hother _ _) (Or.inl ⟨rfl, ?_⟩)
    · intro k' _
      rw [hself, hheld, hpc]
      rfl
    · rw [hself, hheld, hpc]
      rfl
  · rename_i k hpc
    cases hstep
    refine h.move rfl ?_ (hother _ _) (Or.inr (Or.inr ⟨?_, ?_, rfl⟩))
    · intro k' hk
      rw [hself, hheld, hpc]
      simp [FinalizePc.held, Ne.symm hk]
    · rw [hheld, hpc]
      rfl
    · rw [hself]
      simp [FinalizePc.held]

theorem Locked.step {i : Choice} (h : Locked s) (hi : Inv wl s)
    (hstep : step wl i s = some s') : Locked s' := by
  rcases step_cases hstep with ⟨w, _, c, rest, _, htodo, hpc, rfl⟩ | ⟨w, _, _, htodo, hp, hf⟩ |
    ⟨w, position, c, rest, _, htodo, hp, rfl⟩ |
    ⟨w, position, c, rest, pc, r, _, htodo, hp, hcall, rfl⟩ | ⟨_, hall, he⟩
  · refine h.of_held rfl (fun w' => ?_)
    by_cases hp : s.phase = .write
    · rw [held_write hp, held_write (s := s.return w rest) hp]
      rfl
    · by_cases hw : w' = w
      · subst hw
        rw [held_of_head hp htodo, hpc]
        cases hr : rest with
        | nil => exact held_idle (s := s.return w' []) hp (by simp [State.return])
        | cons c' rest' =>
          have hp' : (s.return w' (c' :: rest')).phase ≠ .write := hp
          have htodo' : ((s.return w' (c' :: rest')).workers w').todo = c' :: rest' := by
            simp [State.return]
          rw [held_of_head hp' htodo']
          simp [State.return, Pc.holdsLock]
      · simp [State.held, State.return, hw]
  · exact h.finalize_step hp hf
  · refine h.of_held rfl (fun w' => ?_)
    rw [held_write hp, held_write (s := s.updateWriteBitmaps w position c) hp]
    by_cases hw : w' = w
    · simp [State.updateWriteBitmaps, hw]
    · simp [State.updateWriteBitmaps, hw]
  · have hp' : (s.advance w c.index pc r).phase ≠ .write := hp
    have hheld := held_of_head hp htodo
    have hheld' : (s.advance w c.index pc r).held w =
        if pc.holdsLock then some c.index else none := by
      have htodo' : ((s.advance w c.index pc r).workers w).todo = c :: rest := by
        simp [State.advance, htodo]
      rw [held_of_head hp' htodo']
      simp [State.advance]
    have hm : LockMoves (s.workers w).pc pc (s.rows c.index) r := by
      unfold callStep at hcall
      split at hcall
      · cases hcall
      · exact readPhaseStep_lock hcall
      · exact executionStep_lock hcall
    refine h.move rfl ?_ (fun w' hw => held_advance_other hw c.index pc r) ?_
    · intro k' hk
      rw [hheld, hheld']
      constructor
      · intro hk'
        split at hk'
        · exact absurd (Option.some.inj hk').symm hk
        · cases hk'
      · intro hk'
        split at hk'
        · exact absurd (Option.some.inj hk').symm hk
        · cases hk'
    · rw [hheld, hheld']
      simpa [LockMoves] using hm
  · have hidle : ∀ w, (s.workers w).todo = [] ∧ s.markers w = .idle := by
      intro w
      by_cases hw : w < 64
      · exact hall w hw
      · refine ⟨?_, ?_⟩
        · have hsuf := hi.remaining w
          unfold program at hsuf
          rw [if_neg hw] at hsuf
          exact List.suffix_nil.mp hsuf
        · by_cases hp : s.phase = .write
          · exact (hi.marking hp w).limit (Nat.not_lt.mp hw)
          · exact hi.idle hp w
    have hheld : ∀ w, s.held w = none := by
      intro w
      by_cases hp : s.phase = .write
      · rw [held_write hp, (hidle w).2]
        rfl
      · exact held_idle hp (hidle w).1
    have hfinish : ∀ phase e, Locked (s.enter wl phase e) := by
      intro phase e
      refine h.of_held rfl (fun w => ?_)
      rw [hheld, held_enter wl s (hidle w).2]
    subst he
    cases s.phase with
    | write => exact hfinish _ _
    | read => exact hfinish _ _
    | execution => exact hfinish _ _

theorem Reachable.locked (h : Reachable wl s) : Locked s := by
  refine TransitionSystem.Reachable.invariantOf h ?_ ?_
  · intro s hs k
    subst hs
    refine Or.inl ⟨rfl, fun w => ?_⟩
    simp [State.held, initial, Marker.idle, FinalizePc.held]
  · intro i s s' hr hi hstep
    exact hi.step (Reachable.inv hr) hstep

end Locks

section Moves
variable {W R : List Nat} {e core serial w σ : Nat} {row : Row} {latest : Option Stamp} {m : Ptr}
variable {wp rp : Nat → Pc} {v p : Ptr}

/-- The call can leave its place. -/
def CanMove (e core serial : Nat) (ope : Ope) (pc : Pc) (r : Row) : Prop :=
  ∃ pc' r', pc' ≠ pc ∧ executionStep e core serial ope pc r = some (pc', r')

/-- The call waits for the lock of its row. -/
def Blocked (pc : Pc) (r : Row) : Prop :=
  pc.holdsLock = false ∧ r.wBitmap.lock.tryLock = none

theorem lock_or_blocked (r : Row) :
    (∃ l, r.lock = some (r.setLock l)) ∨ r.wBitmap.lock.tryLock = none := by
  unfold Row.lock RWLock.lock
  cases r.wBitmap.lock.tryLock with
  | none => exact Or.inr rfl
  | some l => exact Or.inl ⟨l, rfl⟩

namespace Executing

/-- A pending version that a read waits for belongs to an unfinished earlier write. -/
theorem waits_for_writer (h : Executing W R e row latest m wp rp) (hW : W.Pairwise (· < ·))
    (hs : serial ∈ R) (hv : row.pending e serial = some v)
    (hst : (row.heap.version v).status = .pending) :
    ∃ σ, greatestBelow serial W = some σ ∧ wp σ ≠ .done := by
  cases hg : greatestBelow serial W with
  | none =>
    have hold := h.assigned.pending_old hs hg
    rw [hv, Option.some.injEq] at hold
    rw [hold, h.assigned.old.2] at hst
    cases hst
  | some w =>
    have hw := ((greatestBelow_eq_some hW).mp hg).1
    refine ⟨w, rfl, ?_⟩
    intro hd
    have hok := h.writers w hw
    rw [hd] at hok
    rw [hok v (Or.inl ⟨serial, hs, hg, hv⟩)] at hst
    cases hst

theorem write_moves (h : Executing W R e row latest m wp rp) (hw : w ∈ W) (hd : wp w ≠ .done) :
    CanMove e core w .update (wp w) row ∨ Blocked (wp w) row := by
  have hok := h.writers w hw
  cases hpc : wp w <;> rw [hpc] at hok hd <;> try exact hok.elim
  case start =>
    rcases lock_or_blocked row with ⟨l, hl⟩ | hb
    · exact Or.inl ⟨.identifyWrite, _, by simp, by simp only [executionStep, hl]; rfl⟩
    · exact Or.inr ⟨rfl, hb⟩
  case identifyWrite => exact Or.inl ⟨.unlockWrite _, _, by simp, rfl⟩
  case unlockWrite version =>
    cases version with
    | none => exact Or.inl ⟨.done, _, by simp, rfl⟩
    | some p => exact Or.inl ⟨.storeRec p, _, by simp, rfl⟩
  case storeRec p => exact Or.inl ⟨.storeStable p, _, by simp, rfl⟩
  case storeStable p => exact Or.inl ⟨.done, _, by simp, rfl⟩
  case done => exact absurd rfl hd

theorem read_moves (h : Executing W R e row latest m wp rp) (hW : W.Pairwise (· < ·))
    (hs : serial ∈ R) (hd : rp serial ≠ .done) :
    CanMove e core serial .read (rp serial) row ∨ Blocked (rp serial) row ∨
      (rp serial = .start ∧ ∃ σ, greatestBelow serial W = some σ ∧ wp σ ≠ .done) := by
  have hok := h.readers serial hs
  cases hpc : rp serial <;> rw [hpc] at hok hd <;> try exact hok.elim
  case start =>
    obtain ⟨v, hv⟩ := h.assigned.exists_pending hs
    by_cases hst : (row.heap.version v).status = .pending
    · exact Or.inr (Or.inr ⟨rfl, h.waits_for_writer hW hs hv hst⟩)
    · exact Or.inl ⟨.fetch v, row, by simp, by simp only [executionStep, hv, if_neg hst]⟩
  case fetch v => exact Or.inl ⟨.decrement _, _, by simp, rfl⟩
  case decrement record =>
    refine Or.inl ⟨_, _, ?_, rfl⟩
    split <;> simp
  case lastLock record =>
    rcases lock_or_blocked row with ⟨l, hl⟩ | hb
    · exact Or.inl ⟨.lastBody record, _, by simp, by simp only [executionStep, hl]; rfl⟩
    · exact Or.inr (Or.inl ⟨rfl, hb⟩)
  case lastBody record => exact Or.inl ⟨.lastUnlock record, _, by simp, rfl⟩
  case lastUnlock record => exact Or.inl ⟨.returning record, _, by simp, rfl⟩
  case returning record => exact Or.inl ⟨.done, _, by simp, rfl⟩
  case done => exact absurd rfl hd

/-- A writer that has been read gets the version its readers wait for, whenever
its turn comes, and leaves it stable. -/
theorem writer_of_resolved (h : Executing W R e row latest m wp rp) (hW : W.Pairwise (· < ·))
    (hr : Resolved W R e row w v) :
    w ∈ W ∧
    (wp w = .identifyWrite →
      (row.identifyWriteVersion (getCoreSerial w) (getTxSerial w)).1 = some v) ∧
    (∀ x, wp w = .unlockWrite x → x = some v) ∧
    (∀ p, wp w = .storeRec p ∨ wp w = .storeStable p → p = v) ∧
    (wp w = .done → row.heap.version v = ⟨some (.written e w), .stable⟩) := by
  have hw := hr.mem hW
  have hok := h.writers w hw
  have hown : Owns W R e row wp w v := Or.inl hr
  refine ⟨hw, ?_, ?_, ?_, ?_⟩
  · intro hpc
    have hfind := (h.find_iff hW (by rw [hpc]; rfl)).mpr hr
    by_cases hf : row.wBitmap.isFinalState (getCoreSerial w) (getTxSerial w) = true
    · simp [Row.identifyWriteVersion, hf, hfind]
    · simp [Row.identifyWriteVersion, hf, hfind]
  · intro x hpc
    rw [hpc] at hok
    cases x with
    | none => exact absurd hown (hok v)
    | some p => rw [h.owns_functional hok.1 hown]
  · intro p hpc
    rcases hpc with hpc | hpc
    · rw [hpc] at hok
      exact h.owns_functional hok.1 hown
    · rw [hpc] at hok
      exact h.owns_functional hok.1 hown
  · intro hpc
    rw [hpc] at hok
    exact hok v hown

/-- No other writer gets it. -/
theorem owner_of_resolved (h : Executing W R e row latest m wp rp) (hr : Resolved W R e row w v)
    (hσ : σ ∈ W) (hpc : wp σ = .unlockWrite (some v) ∨ wp σ = .storeRec v ∨ wp σ = .storeStable v) :
    σ = w := by
  have hok := h.writers σ hσ
  have hown : Owns W R e row wp w v := Or.inl hr
  rcases hpc with hpc | hpc | hpc
  · rw [hpc] at hok
    exact h.owns_unique hok.1 hown
  · rw [hpc] at hok
    exact h.owns_unique hok.1 hown
  · rw [hpc] at hok
    exact h.owns_unique hok.1 hown

end Executing

end Moves

section Progress
variable {Key : Type u} [DecidableEq Key] {wl : Workload Key} {s : State Key}
variable {w : Nat} {c : Call Key} {rest : List (Call Key)}

/-- A call that can leave its place moves the system. -/
theorem worker_moves (hphase : s.phase = .execution) (htodo : (s.workers w).todo = c :: rest)
    (hd : (s.workers w).pc ≠ .done)
    (hm : CanMove s.epoch (getCoreSerial c.serial) c.serial c.operation.ope (s.workers w).pc
      (s.rows c.index)) : ∃ s', step wl (.worker w 0) s = some s' ∧ s' ≠ s := by
  obtain ⟨pc, r, hpc, hcall⟩ := hm
  refine ⟨s.advance w c.index pc r, ?_, ?_⟩
  · simp [step, htodo, hd, hphase, callStep, hcall]
  · intro he
    have := congrArg (fun s => (s.workers w).pc) he
    simp only [State.advance, Function.update_self] at this
    exact hpc this

/-- One call has to be over before the other begins: it comes earlier in the program of
the same worker, or it writes the version that the other one reads. -/
inductive Waits (wl : Workload Key) (e : Nat) : Call Key → Call Key → Prop
  | turn {w : Nat} {c c' : Call Key} :
    [c, c'].Sublist (program wl .execution e w) → Waits wl e c c'
  | version {k : Key} {serial σ : Nat} : serial ∈ wl.readers k e →
    greatestBelow serial (wl.writers k e) = some σ →
      Waits wl e ⟨σ, ⟨.update, k⟩⟩ ⟨serial, ⟨.read, k⟩⟩

theorem Waits.le {e : Nat} {c c' : Call Key} (h : Waits wl e c c') : c.serial ≤ c'.serial := by
  cases h with
  | turn h =>
    have hordered := ((program_assigned wl .execution e).ordered _).sublist h
    exact ((List.pairwise_cons.mp hordered).1 c' List.mem_cons_self).le
  | version _ hg => exact Nat.le_of_lt ((greatestBelow_eq_some (wl.writers_pairwise _ _)).mp hg).2.1

/-- The call a worker is in comes before the others it has left. -/
theorem Waits.of_head {c' : Call Key} (h : Reachable wl s) (hphase : s.phase = .execution)
    (htodo : (s.workers w).todo = c :: rest) (hc : c' ∈ rest) : Waits wl s.epoch c c' := by
  have hremains := (h.inv.remaining w).sublist
  rw [htodo, hphase] at hremains
  exact .turn (((List.singleton_sublist.mpr hc).cons_cons c).trans hremains)

/-- What an unfinished call of the execution phase can be doing. -/
theorem call_moves (h : Reachable wl s) (hphase : s.phase = .execution)
    (htodo : (s.workers w).todo = c :: rest) (hd : (s.workers w).pc ≠ .done) :
    CanMove s.epoch (getCoreSerial c.serial) c.serial c.operation.ope (s.workers w).pc
        (s.rows c.index) ∨
      Blocked (s.workers w).pc (s.rows c.index) ∨
      ((s.workers w).pc = .start ∧
        ∃ c', Waits wl s.epoch c' c ∧ c'.serial < c.serial ∧ s.at c' ≠ .done) := by
  obtain ⟨hlt, hop, m, hrow⟩ := executing_of_head h hphase htodo
  have hplace : s.place c.index c.operation.ope c.serial = (s.workers w).pc := by
    rw [← at_head h.inv htodo]
    rfl
  rw [← hplace] at hd ⊢
  cases hope : c.operation.ope with
  | update =>
    rw [hope] at hd
    have hW : c.serial ∈ wl.writers c.index s.epoch := by
      rw [wl.mem_writers, ← hope]
      exact ⟨hlt, hop⟩
    rcases hrow.write_moves hW hd with hm | hb
    · exact Or.inl hm
    · exact Or.inr (Or.inl hb)
  | read =>
    rw [hope] at hd
    have hR : c.serial ∈ wl.readers c.index s.epoch := by
      rw [wl.mem_readers, ← hope]
      exact ⟨hlt, hop⟩
    rcases hrow.read_moves (wl.writers_pairwise _ _) hR hd with hm | hb | ⟨hs, σ, hσ, hdone⟩
    · exact Or.inl hm
    · exact Or.inr (Or.inl hb)
    · have hwaits := Waits.version hR hσ
      rw [← hope] at hwaits
      have hbelow := ((greatestBelow_eq_some (wl.writers_pairwise _ _)).mp hσ).2.1
      exact Or.inr (Or.inr ⟨hs, _, hwaits, hbelow, hdone⟩)

/-- The worker that holds a lock can move. -/
theorem holder_moves (h : Reachable wl s) (hphase : s.phase = .execution) {k : Key}
    (hheld : s.held w = some k) : ∃ c rest, (s.workers w).todo = c :: rest ∧
      (s.workers w).pc.holdsLock = true ∧
        ∃ s', step wl (.worker w 0) s = some s' ∧ s' ≠ s := by
  have hp : s.phase ≠ .write := by simp [hphase]
  cases htodo : (s.workers w).todo with
  | nil =>
    rw [held_idle hp htodo] at hheld
    cases hheld
  | cons c rest =>
    rw [held_of_head hp htodo] at hheld
    split at hheld
    · rename_i hlock
      refine ⟨c, rest, rfl, hlock, ?_⟩
      have hd : (s.workers w).pc ≠ .done := by
        intro hd
        rw [hd] at hlock
        cases hlock
      rcases call_moves h hphase htodo hd with hm | ⟨hb, _⟩ | ⟨hs, _⟩
      · exact worker_moves hphase htodo hd hm
      · rw [hb] at hlock
        cases hlock
      · rw [hs] at hlock
        cases hlock
    · cases hheld

/-- The worker that a call blocked on a lock waits for can move. -/
theorem blocker_moves (h : Reachable wl s) (hphase : s.phase = .execution) {pc : Pc} {k : Key}
    (hb : Blocked pc (s.rows k)) : ∃ w c rest, (s.workers w).todo = c :: rest ∧
      (s.workers w).pc.holdsLock = true ∧
        ∃ s', step wl (.worker w 0) s = some s' ∧ s' ≠ s := by
  rcases h.locked k with ⟨hfree, _⟩ | ⟨_, w', hheld, _⟩
  · have hlock := hb.2
    rw [RWLock.tryLock, if_pos hfree] at hlock
    cases hlock
  · exact ⟨w', holder_moves h hphase hheld⟩

theorem return_changes (htodo : (s.workers w).todo = c :: rest) (hd : (s.workers w).pc = .done) :
    ∃ s', step wl (.worker w 0) s = some s' ∧ s' ≠ s := by
  refine ⟨s.return w rest, by simp [step, htodo, hd], ?_⟩
  intro he
  have := congrArg (fun s => (s.workers w).todo.length) he
  simp [State.return, htodo] at this

/-- Following the calls waited for, from transaction to earlier transaction, ends at a
worker that can move or at the holder of a lock. The calls of `F`, and with them all that
wait for them, need not move for it. -/
theorem progress_below (h : Reachable wl s) (hphase : s.phase = .execution)
    {F : Call Key → Prop} (hF : ∀ c c', Waits wl s.epoch c c' → F c → F c') (n : Nat) :
    ∀ w c, c ∈ (s.workers w).todo → c.serial = n → ¬ F c →
      ∃ w' c' rest, (s.workers w').todo = c' :: rest ∧
        (F c' → (s.workers w').pc.holdsLock = true) ∧
          ∃ s', step wl (.worker w' 0) s = some s' ∧ s' ≠ s := by
  induction n using Nat.strong_induction_on with
  | _ n ih =>
    intro w c hmem hn hc
    obtain ⟨head, rest, htodo⟩ := List.exists_cons_of_ne_nil (List.ne_nil_of_mem hmem)
    obtain ⟨hhead, hle⟩ : ¬ F head ∧ head.serial ≤ c.serial := by
      rcases List.mem_cons.mp (htodo ▸ hmem) with rfl | hrest
      · exact ⟨hc, Nat.le_refl _⟩
      · have hwaits := Waits.of_head h hphase htodo hrest
        exact ⟨fun hf => hc (hF _ _ hwaits hf), hwaits.le⟩
    by_cases hd : (s.workers w).pc = .done
    · exact ⟨w, head, rest, htodo, fun hf => absurd hf hhead, return_changes htodo hd⟩
    · rcases call_moves h hphase htodo hd with hm | hb | ⟨_, c', hwaits, hlt, hc'⟩
      · exact ⟨w, head, rest, htodo, fun hf => absurd hf hhead, worker_moves hphase htodo hd hm⟩
      · obtain ⟨w', c', rest', htodo', hlock, hstep⟩ := blocker_moves h hphase hb
        exact ⟨w', c', rest', htodo', fun _ => hlock, hstep⟩
      · exact ih c'.serial (by omega) _ c' (Thread.mem_of_pcOf_ne hc') rfl
          (fun hf => hhead (hF _ _ hwaits hf))

/-- An execution phase with unfinished transactions can always move on, and the
placeholders of the read phase each go to the write of their serial id, and to no
other, which leaves them stable. -/
theorem execution_never_stuck (h : Reachable wl s) :
    (s.phase = .execution → s.finished = false →
      ∃ w s', step wl (.worker w 0) s = some s' ∧ s' ≠ s) ∧
    (s.phase = .read → s.finished = true → ∀ k σ v,
      (s.rows k).wBitmap.placeholders.find σ = some v ↔
        Resolved (wl.writers k s.epoch) (wl.readers k s.epoch) s.epoch (s.rows k) σ v) ∧
    (s.phase = .execution → ∀ k σ v,
      Resolved (wl.writers k s.epoch) (wl.readers k s.epoch) s.epoch (s.rows k) σ v →
        (σ ∈ wl.writers k s.epoch ∧
          (s.place k .update σ = .identifyWrite →
            ((s.rows k).identifyWriteVersion (getCoreSerial σ) (getTxSerial σ)).1 = some v) ∧
          (∀ x, s.place k .update σ = .unlockWrite x → x = some v) ∧
          (∀ p, s.place k .update σ = .storeRec p ∨ s.place k .update σ = .storeStable p →
            p = v) ∧
          (s.place k .update σ = .done →
            (s.rows k).heap.version v = ⟨some (.written s.epoch σ), .stable⟩)) ∧
        ∀ σ' ∈ wl.writers k s.epoch, s.place k .update σ' = .unlockWrite (some v) ∨
          s.place k .update σ' = .storeRec v ∨ s.place k .update σ' = .storeStable v → σ' = σ) := by
  have hi := h.inv
  refine ⟨?_, ?_, ?_⟩
  · intro hphase hfin
    have hex : ∃ w, (s.workers w).todo ≠ [] := by
      by_contra hn
      simp only [ne_eq, not_exists, not_not] at hn
      rw [State.finished_iff.mpr (fun w _ => hn w)] at hfin
      cases hfin
    obtain ⟨w, hw⟩ := hex
    obtain ⟨c, hc⟩ := List.exists_mem_of_ne_nil _ hw
    obtain ⟨w', _, _, _, _, hmoves⟩ :=
      progress_below h hphase (F := fun _ => False) (fun _ _ _ hf => hf) c.serial w c hc rfl id
    exact ⟨w', hmoves⟩
  · intro hphase hfin k σ v
    have hall := State.finished_iff.mp hfin
    exact ((rowInv_read k hphase).mp (hi.rows k)).find_iff_of_done
      (fun serial => at_finished hi hall _)
  · intro hphase k σ v hr
    obtain ⟨m, hrow⟩ := (rowInv_execution k hphase).mp (hi.rows k)
    exact ⟨hrow.writer_of_resolved (wl.writers_pairwise _ _) hr,
      fun σ' hσ' hpc => hrow.owner_of_resolved hr hσ' hpc⟩

/-- The first read of a write in progress: the write is the one that can move. -/
theorem first_write_moves : ∃ (s : State Unit) (w : Nat) (s' : State Unit),
    Reachable writeOnce s ∧ s.phase = .execution ∧ s.finished = false ∧
      step writeOnce (.worker w 0) s = some s' ∧ s' ≠ s := by
  have hstart : Reachable writeOnce (initial writeOnce) := .start rfl
  have hrun : ((system writeOnce).run (List.replicate 6 (.worker 0 0) ++ [.barrier] ++
      List.replicate 7 (.worker 0 0) ++ [.barrier]) (initial writeOnce)).map
        (fun s => (s.phase, s.finished)) = some (.execution, false) := by
    decide +kernel
  obtain ⟨s, hs, hshow⟩ := hstart.of_run_map hrun
  obtain ⟨hphase, hfin⟩ := Prod.mk.inj hshow
  obtain ⟨w, s', hstep, hne⟩ := (execution_never_stuck hs).1 hphase hfin
  exact ⟨s, w, s', hs, hphase, hfin, hstep, hne⟩

end Progress
end Mvdcc.Cheetah
