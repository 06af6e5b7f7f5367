import Mvdcc.Cheetah.Progress
import Mvdcc.Cheetah.RunTx
import Mvdcc.Common.Completion

namespace Mvdcc.Cheetah
open Library

/-- The steps a call still makes, its spinning apart. -/
def Pc.rank : Pc → Nat
  | .start => 8
  | .addOne | .fetch _ | .identifyWrite => 7
  | .identify | .decrement _ | .unlockWrite _ => 6
  | .lockPlaceholder _ | .lastLock _ | .storeRec _ => 5
  | .placeholder _ | .lastBody _ | .storeStable _ => 4
  | .unlockPlaceholder _ | .lastUnlock _ => 3
  | .returning _ => 2
  | .done => 0

def FinalizePc.rank : FinalizePc Key → Nat
  | .scan => 0
  | .update _ _ => 2
  | .unlock _ => 3

/-- What a worker has left in `finalize_update_write_bitmaps`; a pass that meets no lock
in its way is the last one. -/
def Marker.left (m : Marker Key) : Nat :=
  5 * m.bitmaps.entries.length + (if m.pass.isEmpty then 1 else 0) - m.pc.rank

/-- What a worker has left of a phase. -/
def Local.left (l : Local Key) : Nat :=
  27 * l.worker.todo.length + 3 * l.worker.pc.rank + l.marker.left

section Steps
variable {position e core serial : Nat} {ope : Ope} {pc pc' : Pc} {r r' : Row}

/-- A step in the read phase is one step less. -/
theorem readPhaseStep_rank (h : readPhaseStep position e core serial pc r = some (pc', r')) :
    pc'.rank < pc.rank := by
  cases pc <;> simp only [readPhaseStep, reduceCtorEq] at h
  case start =>
    cases h
    split <;> decide
  case identify =>
    split at h
    · split at h
      · cases h
        simp [Pc.rank]
      · cases h
        simp [Pc.rank]
    · cases h
      simp [Pc.rank]
  case lockPlaceholder visibleId =>
    obtain ⟨_, _, rfl, _⟩ := Row.lock_step h
    simp [Pc.rank]
  all_goals
    cases h
    simp [Pc.rank]

/-- So is a step in the execution phase, but for a read that tests its version again. -/
theorem executionStep_rank (h : executionStep e core serial ope pc r = some (pc', r')) :
    (pc' = pc ∧ r' = r) ∨ pc'.rank < pc.rank := by
  cases pc <;> simp only [executionStep, reduceCtorEq] at h
  case start =>
    cases ope with
    | read =>
      simp only at h
      split at h
      · split at h
        · cases h
          exact Or.inl ⟨rfl, rfl⟩
        · cases h
          exact Or.inr (by simp [Pc.rank])
      · cases h
    | update =>
      obtain ⟨_, _, rfl, _⟩ := Row.lock_step h
      exact Or.inr (by simp [Pc.rank])
  case decrement record =>
    cases h
    refine Or.inr ?_
    split <;> simp [Pc.rank]
  case lastLock record =>
    obtain ⟨_, _, rfl, _⟩ := Row.lock_step h
    exact Or.inr (by simp [Pc.rank])
  case unlockWrite version =>
    cases version with
    | none =>
      cases h
      exact Or.inr (by simp [Pc.rank])
    | some p =>
      cases h
      exact Or.inr (by simp [Pc.rank])
  all_goals
    cases h
    exact Or.inr (by simp [Pc.rank])

end Steps

section Progress
variable {Key : Type u} [DecidableEq Key] {wl : Workload Key} {s s' : State Key}
variable {w position : Nat} {c : Call Key} {rest : List (Call Key)} {pc : Pc} {r : Row} {k : Key}

/-- A worker can do a part of what it has left. -/
def Moves (wl : Workload Key) (s : State Key) (w : Nat) : Prop :=
  ∃ position s', step wl (.worker w position) s = some s' ∧
    Local.left ⟨s'.workers w, s'.markers w⟩ < Local.left ⟨s.workers w, s.markers w⟩

omit [DecidableEq Key] in
theorem return_left (htodo : (s.workers w).todo = c :: rest) (hpc : (s.workers w).pc = .done) :
    Local.left ⟨(s.return w rest).workers w, (s.return w rest).markers w⟩ <
      Local.left ⟨s.workers w, s.markers w⟩ := by
  simp only [Local.left, State.return, Function.update_self, htodo, hpc, List.length_cons,
    Pc.rank]
  omega

theorem advance_left (hrank : pc.rank < (s.workers w).pc.rank) :
    Local.left ⟨(s.advance w k pc r).workers w, (s.advance w k pc r).markers w⟩ <
      Local.left ⟨s.workers w, s.markers w⟩ := by
  simp only [Local.left, State.advance, Function.update_self]
  omega

theorem return_moves (htodo : (s.workers w).todo = c :: rest) (hpc : (s.workers w).pc = .done) :
    Moves wl s w :=
  ⟨0, s.return w rest, by simp [step, htodo, hpc], return_left htodo hpc⟩

theorem advance_moves (htodo : (s.workers w).todo = c :: rest) (hphase : s.phase ≠ .write)
    (hd : (s.workers w).pc ≠ .done)
    (hcall : callStep s w position c (s.workers w).pc (s.rows c.index) = some (pc, r))
    (hrank : pc.rank < (s.workers w).pc.rank) : Moves wl s w :=
  ⟨position, s.advance w c.index pc r, by simp [step, htodo, hd, hphase, hcall],
    advance_left hrank⟩

/-- `update_write_bitmaps` never waits. -/
theorem mark_moves (htodo : (s.workers w).todo = c :: rest) (hphase : s.phase = .write)
    (hd : (s.workers w).pc ≠ .done) : Moves wl s w := by
  refine ⟨0, s.updateWriteBitmaps w 0 c, by simp [step, htodo, hd, hphase], ?_⟩
  have hrank : 2 ≤ (s.workers w).pc.rank := by
    cases hpc : (s.workers w).pc <;> simp [Pc.rank]
    exact hd hpc
  have hlength := (s.markers w).bitmaps.length_emplace_le 0 c.index 0
  have hdone : Pc.rank .done = 0 := rfl
  simp only [Local.left, Marker.left, State.updateWriteBitmaps, Function.update_self,
    UnorderedMap.length_modify, hdone]
  omega

/-- A row that a worker is about to unlock is still in its map. -/
def Unlocking (s : State Key) : Prop :=
  ∀ w k, (s.markers w).pc = .unlock k → ∃ b, (s.markers w).bitmaps.find k = some b

theorem Unlocking.finalize (h : Unlocking s) (hm : MarkerOk s w) (hstep : s.finalize w = some s') :
    Unlocking s' := by
  have hother : ∀ m rows, (m.pc = .scan ∨ ∃ k b, m.pc = .update k b) ∨
      (∃ k b, m.pc = .unlock k ∧ m.bitmaps.find k = some b) →
      Unlocking { s with markers := Function.update s.markers w m, rows } := by
    intro m rows hcase w' k hpc
    by_cases hw : w' = w
    · subst hw
      simp only [Function.update_self] at hpc ⊢
      rcases hcase with (hs | ⟨_, _, hu⟩) | ⟨k', b, hu, hfind⟩
      · rw [hs] at hpc
        cases hpc
      · rw [hu] at hpc
        cases hpc
      · rw [hu] at hpc
        cases hpc
        exact ⟨b, hfind⟩
    · simp only [Function.update_of_ne hw] at hpc ⊢
      exact h w' k hpc
  unfold State.finalize at hstep
  simp only at hstep
  cases hpc : (s.markers w).pc with
  | scan =>
    simp only [hpc] at hstep
    split at hstep
    · split at hstep
      · cases hstep
      · cases hstep
        exact hother _ s.rows (Or.inl (Or.inl rfl))
    · split at hstep
      · cases hstep
        exact hother _ s.rows (Or.inl (Or.inl rfl))
      · cases hstep
        exact hother _ _ (Or.inl (Or.inr ⟨_, _, rfl⟩))
  | update k b =>
    have hfind := hm.holding
    rw [hpc] at hfind
    simp only [hpc] at hstep
    cases hstep
    exact hother _ _ (Or.inr ⟨k, b, rfl, hfind.1⟩)
  | unlock k =>
    simp only [hpc] at hstep
    cases hstep
    exact hother _ _ (Or.inl (Or.inl rfl))

theorem Reachable.unlocking (h : Reachable wl s) : Unlocking s := by
  refine TransitionSystem.Reachable.invariantOf h ?_ ?_
  · intro s hs w k hpc
    subst hs
    cases hpc
  · intro i s s' hr hu hstep
    rcases step_cases hstep with ⟨w, _, c, rest, _, _, _, rfl⟩ | ⟨w, _, _, _, hp, hf⟩ |
      ⟨w, position, c, rest, _, htodo, hp, rfl⟩ | ⟨w, _, c, rest, pc, r, _, _, _, _, rfl⟩ |
      ⟨_, _, rfl⟩
    · exact hu
    · exact hu.finalize ((Reachable.inv hr).marking hp w) hf
    · intro w' k hpc
      by_cases hw : w' = w
      · subst hw
        simp only [State.updateWriteBitmaps, Function.update_self] at hpc
        rw [(((Reachable.inv hr).marking hp w').busy (by simp [htodo])).2] at hpc
        cases hpc
      · simp only [State.updateWriteBitmaps, Function.update_of_ne hw] at hpc ⊢
        exact hu w' k hpc
    · exact hu
    · cases s.phase with
      | write => exact hu
      | read => exact hu
      | execution => exact hu

/-- Who has the lock of a row in the write phase lets go of it. -/
theorem holding_moves (h : Reachable wl s) (hphase : s.phase = .write)
    (hheld : (s.markers w).pc.held = some k) : Moves wl s w := by
  have hm := (h.inv.marking hphase w)
  have htodo : (s.workers w).todo = [] := by
    by_contra hne
    rw [(hm.busy hne).2] at hheld
    cases hheld
  cases hpc : (s.markers w).pc with
  | scan =>
    rw [hpc] at hheld
    cases hheld
  | update k' b =>
    have hholding := hm.holding
    rw [hpc] at hholding
    have hlength := List.length_pos_of_mem (UnorderedMap.find_eq_some.mp hholding.1)
    refine ⟨0, _, by simp only [step, htodo, if_pos hphase, State.finalize, hpc]; rfl, ?_⟩
    simp only [Local.left, Marker.left, Function.update_self, hpc, FinalizePc.rank]
    omega
  | unlock k' =>
    obtain ⟨b, hfind⟩ := h.unlocking w k' hpc
    have hlength := UnorderedMap.length_erase_lt hfind
    refine ⟨0, _, by simp only [step, htodo, if_pos hphase, State.finalize, hpc]; rfl, ?_⟩
    simp only [Local.left, Marker.left, Function.update_self, hpc, FinalizePc.rank]
    omega

/-- A worker in the loop over its map takes the next lock, or somebody has it. -/
theorem scan_moves (h : Reachable wl s) (hphase : s.phase = .write)
    (htodo : (s.workers w).todo = []) (hpc : (s.markers w).pc = .scan)
    (hbusy : s.markers w ≠ .idle) :
    Moves wl s w ∨ ∃ k, (s.rows k).wBitmap.lock.tryLock = none := by
  have hm := (h.inv.marking hphase w)
  cases hpass : (s.markers w).pass with
  | nil =>
    have hne : (s.markers w).bitmaps.isEmpty = false := by
      rw [Bool.eq_false_iff, ne_eq, UnorderedMap.isEmpty_iff]
      intro hempty
      refine hbusy ?_
      cases hmarker : s.markers w
      simp_all [Marker.idle]
    have hentries : (s.markers w).bitmaps.entries.isEmpty = false := hne
    refine Or.inl ⟨0, { s with
      markers := Function.update s.markers w
        { s.markers w with pass := (s.markers w).bitmaps.entries } }, ?_, ?_⟩
    · simp [step, htodo, hphase, State.finalize, hpc, hpass, hne]
    · simp only [Local.left, Marker.left, Function.update_self, hpc, FinalizePc.rank, hpass,
        hentries, List.isEmpty_nil]
      simp
  | cons entry rest =>
    obtain ⟨k, b⟩ := entry
    cases hlock : (s.rows k).wBitmap.lock.tryLock with
    | none => exact Or.inr ⟨k, hlock⟩
    | some l =>
      have hfind := hm.pass (k, b) (by simp [hpass])
      have hlength := List.length_pos_of_mem (UnorderedMap.find_eq_some.mp hfind)
      have htry : (s.rows k).tryLock = some ((s.rows k).setLock l) := by
        simp only [Row.tryLock, hlock, Option.map_some]
      refine Or.inl ⟨0, { s with
        markers := Function.update s.markers w { s.markers w with pass := rest, pc := .update k b }
        rows := Function.update s.rows k ((s.rows k).setLock l) }, ?_, ?_⟩
      · simp [step, htodo, hphase, State.finalize, hpc, hpass, htry]
      · simp only [Local.left, Marker.left, Function.update_self, hpc, FinalizePc.rank, hpass,
          List.isEmpty_cons]
        split <;> simp <;> omega

/-- The write phase does not stop before all maps are empty. -/
theorem write_phase_moves (h : Reachable wl s) (hphase : s.phase = .write)
    (hbusy : (s.workers w).todo ≠ [] ∨ s.markers w ≠ .idle) : ∃ w', Moves wl s w' := by
  cases htodo : (s.workers w).todo with
  | cons c rest =>
    by_cases hd : (s.workers w).pc = .done
    · exact ⟨w, return_moves htodo hd⟩
    · exact ⟨w, mark_moves htodo hphase hd⟩
  | nil =>
    have hmarker := hbusy.resolve_left (fun hne => hne htodo)
    cases hheld : (s.markers w).pc.held with
    | some k => exact ⟨w, holding_moves h hphase hheld⟩
    | none =>
      have hpc : (s.markers w).pc = .scan := by
        cases hpc : (s.markers w).pc with
        | scan => rfl
        | update k b =>
          rw [hpc] at hheld
          cases hheld
        | unlock k =>
          rw [hpc] at hheld
          cases hheld
      rcases scan_moves h hphase htodo hpc hmarker with hmoves | ⟨k, hlock⟩
      · exact ⟨w, hmoves⟩
      · rcases h.locked k with ⟨hfree, _⟩ | ⟨_, w', hheld', _⟩
        · rw [RWLock.tryLock, if_pos hfree] at hlock
          cases hlock
        · exact ⟨w', holding_moves h hphase (held_write hphase ▸ hheld')⟩

/-- A read of the read phase waits for nothing but the lock of its row. -/
theorem resolve_moves (h : Reachable wl s) (hphase : s.phase = .read)
    (htodo : (s.workers w).todo = c :: rest) (hd : (s.workers w).pc ≠ .done) :
    Moves wl s w ∨
      ((s.workers w).pc.holdsLock = false ∧ (s.rows c.index).wBitmap.lock.tryLock = none) := by
  have hi := h.inv
  have hp : s.phase ≠ .write := by simp [hphase]
  have hmem := hi.remaining.mem htodo
  rw [← (program_assigned wl s.phase s.epoch).owned w c hmem, mem_program] at hmem
  obtain ⟨hlt, hop, _, hread⟩ := hmem
  have hope : c.operation.ope = .read := hread hphase
  have hR : c.serial ∈ wl.readers c.index s.epoch := by
    rw [wl.mem_readers, ← hope]
    exact ⟨hlt, hop⟩
  have hplace : s.place c.index .read c.serial = (s.workers w).pc := by
    rw [← at_head hi htodo, ← hope]
    rfl
  have hok := ((rowInv_read c.index hphase).mp (hi.rows c.index)).readers c.serial hR
  rw [hplace] at hok
  have hcan : ∀ pc r, readPhaseStep 0 s.epoch w c.serial (s.workers w).pc (s.rows c.index) =
      some (pc, r) → Moves wl s w := by
    intro pc r hstep
    have hcall : callStep s w 0 c (s.workers w).pc (s.rows c.index) = some (pc, r) := by
      simp only [callStep, hphase, hstep]
    exact advance_moves htodo hp hd hcall (readPhaseStep_rank hstep)
  cases hpc : (s.workers w).pc <;> rw [hpc] at hok hcan hd <;> simp only [ResolverOk] at hok
  case start => exact Or.inl (hcan _ _ rfl)
  case addOne => exact Or.inl (hcan _ _ rfl)
  case identify =>
    simp only [readPhaseStep] at hcan
    refine Or.inl ?_
    split at hcan
    · split at hcan
      · exact hcan _ _ rfl
      · exact hcan _ _ rfl
    · exact hcan _ _ rfl
  case lockPlaceholder visibleId =>
    rcases lock_or_blocked (s.rows c.index) with ⟨l, hl⟩ | hb
    · exact Or.inl (hcan _ _ (by simp only [readPhaseStep, hl]; rfl))
    · exact Or.inr ⟨rfl, hb⟩
  case placeholder visibleId => exact Or.inl (hcan _ _ rfl)
  case unlockPlaceholder v => exact Or.inl (hcan _ _ rfl)
  case done => exact absurd rfl hd

/-- The read phase does not stop before all its reads are resolved. -/
theorem read_phase_moves (h : Reachable wl s) (hphase : s.phase = .read)
    (htodo : (s.workers w).todo = c :: rest) : ∃ w', Moves wl s w' := by
  have hp : s.phase ≠ .write := by simp [hphase]
  by_cases hd : (s.workers w).pc = .done
  · exact ⟨w, return_moves htodo hd⟩
  · rcases resolve_moves h hphase htodo hd with hmoves | ⟨_, hlock⟩
    · exact ⟨w, hmoves⟩
    · rcases h.locked c.index with ⟨hfree, _⟩ | ⟨_, w', hheld, _⟩
      · rw [RWLock.tryLock, if_pos hfree] at hlock
        cases hlock
      · cases htodo' : (s.workers w').todo with
        | nil =>
          rw [held_idle hp htodo'] at hheld
          cases hheld
        | cons c' rest' =>
          rw [held_of_head hp htodo'] at hheld
          split at hheld
          · rename_i hholds
            have hd' : (s.workers w').pc ≠ .done := by
              intro hd'
              rw [hd'] at hholds
              cases hholds
            rcases resolve_moves h hphase htodo' hd' with hmoves | ⟨hfree, _⟩
            · exact ⟨w', hmoves⟩
            · rw [hholds] at hfree
              cases hfree
          · cases hheld

/-- In the execution phase, whatever a worker does that is not one more test of a version
is a part of what it has left. -/
theorem execution_step_left (hphase : s.phase = .execution)
    (hstep : step wl (.worker w position) s = some s') (hne : s' ≠ s) :
    Local.left ⟨s'.workers w, s'.markers w⟩ < Local.left ⟨s.workers w, s.markers w⟩ := by
  have hp : s.phase ≠ .write := by simp [hphase]
  cases htodo : (s.workers w).todo with
  | nil => simp [step, htodo, hphase] at hstep
  | cons c rest =>
    by_cases hd : (s.workers w).pc = .done
    · simp only [step, htodo, if_pos hd, Option.some.injEq] at hstep
      subst hstep
      exact return_left htodo hd
    · simp only [step, htodo, if_neg hd, if_neg hp] at hstep
      obtain ⟨⟨pc, r⟩, hcall, rfl⟩ := Option.map_eq_some_iff.mp hstep
      simp only [callStep, hphase] at hcall
      rcases executionStep_rank hcall with ⟨rfl, rfl⟩ | hrank
      · refine absurd ?_ hne
        simp [State.advance]
      · exact advance_left hrank

/-- The execution phase does not stop before all its transactions are done. -/
theorem execution_phase_moves (h : Reachable wl s) (hphase : s.phase = .execution)
    (htodo : (s.workers w).todo = c :: rest) : ∃ w', Moves wl s w' := by
  have hmem : c ∈ (s.workers w).todo := by simp [htodo]
  obtain ⟨w', _, _, _, _, s', hstep, hne⟩ :=
    progress_below h hphase (F := fun _ => False) (fun _ _ _ hf => hf) c.serial w c hmem rfl id
  exact ⟨w', 0, s', hstep, execution_step_left hphase hstep hne⟩

/-- Only the 64 workers have something to do. -/
theorem Moves.lt (h : Reachable wl s) (hm : Moves wl s w) : w < 64 := by
  by_contra hw
  have htodo : (s.workers w).todo = [] := by
    have hsuffix := h.inv.remaining w
    unfold program at hsuffix
    rw [if_neg hw] at hsuffix
    exact List.suffix_nil.mp hsuffix
  obtain ⟨position, s', hstep, _⟩ := hm
  simp only [step, htodo, Option.ite_none_right_eq_some] at hstep
  obtain ⟨hphase, hstep⟩ := hstep
  have hidle := (h.inv.marking hphase w).limit (Nat.not_lt.mp hw)
  simp [State.finalize, hidle, Marker.idle, UnorderedMap.isEmpty] at hstep

/-- As long as a worker is busy, some worker can do a part of what is left. -/
theorem busy_moves (h : Reachable wl s)
    (hbusy : ¬ ((s.workers w).todo = [] ∧ s.markers w = .idle)) :
    ∃ w' < 64, Moves wl s w' := by
  suffices hex : ∃ w', Moves wl s w' by
    obtain ⟨w', hm⟩ := hex
    exact ⟨w', hm.lt h, hm⟩
  by_cases hp : s.phase = .write
  · exact write_phase_moves h hp (not_and_or.mp hbusy)
  · have htodo : (s.workers w).todo ≠ [] := fun htodo => hbusy ⟨htodo, h.inv.idle hp w⟩
    obtain ⟨c, rest, htodo⟩ := List.exists_cons_of_ne_nil htodo
    cases hphase : s.phase with
    | write => exact absurd hphase hp
    | read => exact read_phase_moves h hphase htodo
    | execution => exact execution_phase_moves h hphase htodo

/-- An idle worker makes no step. -/
theorem idle_stays (hbusy : (s.workers w).todo = [] ∧ s.markers w = .idle) :
    step wl (.worker w position) s = none := by
  simp [step, hbusy.1, State.finalize, hbusy.2, Marker.idle, UnorderedMap.isEmpty]

/-- The phases of the executable come to their ends. -/
theorem runTx_progresses (wl : Workload Key) : RunTx.Progresses (runTx wl) 64
    ⟨1, fun _ => loadedRow, fun w => (runTx wl).enter 1 w ⟨⟨[], .start⟩, .idle⟩⟩ Local.left := by
  constructor
  · intro round w position rows l hidle
    have hstays := @idle_stays Key _ wl (.ofLocals round rows (fun _ => l)) w position
      (of_decide_eq_true hidle)
    simp only [runTx, hstays, Option.map_none]
  · intro x hx w hw hbusy
    have hr := lockstep_simulates.reachable (fun _ hx => Lockstep.round_le hx) hx
    rw [ofLockstep_initial] at hr
    obtain ⟨w', hw', position, s', hstep, hless⟩ := busy_moves hr (of_decide_eq_false hbusy)
    have hsame : SameTo w' (.ofLockstep x) (.ofLocals x.round x.memory (fun _ => x.locals w')) :=
      ⟨rfl, rfl, rfl, rfl, rfl⟩
    have hlocal := worker_step_local hsame hstep
    refine ⟨w', hw', position, s'.rows, ⟨s'.workers w', s'.markers w'⟩, ?_, hless⟩
    simp only [runTx, hlocal, Option.map_some, State.moved, Function.update_self]

variable {numEpoch : Nat} {log : List (Reading Key)}

/-- Whatever its threads have done so far, the executable is not stuck: all 64 of them can
still return from `run_tx`. -/
theorem runTx_completes {s : RunTx.State (Key → Row) (Local Key)} (h : Run wl numEpoch s log) :
    ∃ t more, ((RunTx.system (runTx wl) (barriers numEpoch) 63).logged
        (RunTx.events 63 readingsIn)).Reachable (· = (s, log)) (t, log ++ more) ∧
      t.Finished (barriers numEpoch) 63 := by
  obtain ⟨t, ht, hfin⟩ := RunTx.completes (barriers_alternate numEpoch) (barriers_calls numEpoch)
    (fun _ => rfl) (runTx_progresses wl) h.unlogged
  obtain ⟨more, hmore⟩ := ht.logs log
  exact ⟨t, more, hmore, hfin⟩

/-- The first epoch up to where the write holds the row's lock and the final read waits for it. -/
def lockedOut : List (RunTx.Choice Nat) :=
  RunTx.passBarrier Nat 63 ++ List.replicate 6 (.work 0 0) ++
    RunTx.passBarrier Nat 63 ++ List.replicate 4 (.work 0 0) ++
    RunTx.passBarrier Nat 63 ++ [.work 1 0] ++ List.replicate 3 (.work 0 0)

theorem runTx_completes_lockedOut : ∃ (s t : RunTx.State (Unit → Row) (Local Unit))
    (log more : List (Reading Unit)), Run readThenWrite 1 s log ∧
      (s.locals 0).worker.pc = .lastLock (some (.loaded 0)) ∧
      (s.locals 1).worker.pc = .identifyWrite ∧
      ((RunTx.system (runTx readThenWrite) (barriers 1) 63).logged
        (RunTx.events 63 readingsIn)).Reachable (· = (s, log)) (t, log ++ more) ∧
      t.Finished (barriers 1) 63 := by
  have hstart : Run readThenWrite 1
      (RunTx.initial 63 (fun _ => loadedRow) (fun _ => ⟨⟨[], .start⟩, .idle⟩)) [] := .start rfl
  have hrun : (((RunTx.system (runTx readThenWrite) (barriers 1) 63).logged
      (RunTx.events 63 readingsIn)).run lockedOut (RunTx.initial 63 (fun _ => loadedRow)
        (fun _ => ⟨⟨[], .start⟩, .idle⟩), [])).map
          (fun x => ((x.1.locals 0).worker.pc, (x.1.locals 1).worker.pc)) =
        some (.lastLock (some (.loaded 0)), .identifyWrite) := by
    decide +kernel
  obtain ⟨⟨s, log⟩, hs, hshow⟩ := TransitionSystem.Reachable.of_run_map hstart hrun
  obtain ⟨hreader, hwriter⟩ := Prod.mk.inj hshow
  obtain ⟨t, more, ht, hfin⟩ := runTx_completes hs
  exact ⟨s, t, log, more, hs, hreader, hwriter, ht, hfin⟩

end Progress
end Mvdcc.Cheetah
