import Mvdcc.Caracal.Safety

namespace Mvdcc.Caracal
open Library

/-- The places of a call that only the execution phase reaches. -/
def Pc.executes : Pc → Bool
  | .waitStable _ | .fetchRec _ | .returning _ | .storeStable _ => true
  | _ => false

section SerialReads
variable {Key : Type u} [DecidableEq Key] {wl : Workload Key} {cfg : Config} {s : State Key}
variable {w : Nat} {c : Call Key} {rest : List (Call Key)} {r : Option Rec}

theorem appendStep_executes {position epoch core serial : Nat} {k : Key} {pc pc' : Pc}
    {m m' : Memory Key} (h : appendStep cfg position epoch core serial k pc m = some (pc', m')) :
    pc'.executes = false := by
  cases pc <;> simp only [appendStep, reduceCtorEq] at h
  case uncontended => cases h; rfl
  case fetchUnlock => cases h; rfl
  case flush => cases h; rfl
  case unlockRow => cases h; rfl
  case lockRow =>
    obtain ⟨_, _, he⟩ := Option.map_eq_some_iff.mp h
    cases he
    rfl
  case fetch =>
    split at h
    · cases h
      rfl
    · obtain ⟨_, _, he⟩ := Option.map_eq_some_iff.mp h
      cases he
      rfl
  all_goals
    split at h <;> cases h
    all_goals rfl

/-- In the initialization phase no call is at a place of the execution phase. -/
theorem Reachable.appending (h : Reachable cfg (program wl) s) (hphase : s.phase = .initialization)
    (w : Nat) : (s.workers w).pc.executes = false := by
  revert hphase w
  induction h with
  | start hs =>
    intro _ w
    rw [hs]
    rfl
  | @next s s' i _ hstep hi =>
    intro hphase w'
    rcases step_cases hstep with ⟨w, c, rest, _, _, _, rfl⟩ | ⟨w, _, _, hp, hfin⟩ |
      ⟨w, position, c, rest, pc, m, _, htodo, hcall, rfl⟩ | ⟨_, rfl⟩
    · simp only [State.return]
      by_cases hw : w' = w
      · subst hw
        rw [Function.update_self]
        rfl
      · rw [Function.update_of_ne hw]
        exact hi hphase w'
    · rw [(finalize_keeps hfin).1]
      exact hi hp w'
    · have hp : s.phase = .initialization := hphase
      simp only [callStep, hp] at hcall
      simp only [State.advance]
      by_cases hw : w' = w
      · subst hw
        rw [Function.update_self]
        exact appendStep_executes hcall
      · rw [Function.update_of_ne hw]
        exact hi hp w'
    · cases s.phase <;> rfl

/-- A read returns the last record serialized before it, and it is not one that
`minor_gc` has reclaimed. -/
theorem read_returns_last (hcore : cfg.numCore = 64) (h : Reachable cfg (program wl) s)
    (he : s.epoch < 2 ^ 32) (htodo : (s.workers w).todo = c :: rest)
    (hpc : (s.workers w).pc = .returning r) :
    ∃ v x, v ∉ (s.rows c.index).heap.freed ∧ ((s.rows c.index).heap.version v).record = r ∧
      r = some x ∧ wl.ReadsLast c.index s.epoch c.serial x := by
  have hphase : s.phase = .execution := by
    cases hp : s.phase with
    | execution => rfl
    | initialization =>
      have hno := h.appending hp w
      rw [hpc] at hno
      cases hno
  have hi := h.inv hcore he
  have hrun := hi.phase
  unfold PhaseInv at hrun
  rw [hphase] at hrun
  have hplace := place_head hrun.remaining htodo
  have hmem := hrun.remaining.mem htodo
  rw [← (program_assigned wl .execution s.epoch).owned w c hmem] at hmem
  cases hope : c.operation.ope with
  | update =>
    rw [c.eta, hope] at hmem
    obtain ⟨p, _, hok⟩ := (hrun.rows c.index).writers c.serial (writer_mem_program.mp hmem)
    rw [hope, hpc] at hplace
    rw [hplace] at hok
    exact hok.elim
  | read =>
    rw [hope, hpc] at hplace
    have hok := hrun.readers c.index c.serial
    rw [hplace] at hok
    obtain ⟨v, hv, hst, hr⟩ := hok
    obtain ⟨hfree, x, hx, hlast⟩ :=
      (hrun.rows c.index).reads_last hi.epoch (mem_program.mp hmem).1 hv hst
    exact ⟨v, x, hfree, hr.symm, hr.trans hx, hlast⟩

end SerialReads

section Run

/-- The write of the first epoch, and a read of it one epoch later. -/
def readNextEpoch : List Choice :=
  List.replicate 5 (.worker 0 0) ++ [.barrier] ++ List.replicate 3 (.worker 0 0) ++
    List.replicate 5 (.worker 1 0) ++ [.barrier, .barrier] ++ List.replicate 3 (.worker 0 0)

def State.shows (s : State Key) (w : Nat) : Nat × List (Call Key) × Pc :=
  (s.epoch, (s.workers w).todo, (s.workers w).pc)

theorem next_epoch_reads_last : ∃ (s : State Unit) (v : Ptr) (x : Rec),
    Reachable ⟨64, 4, 1, true⟩ (program writeOnce) s ∧ (s.workers 0).pc = .returning (some x) ∧
    v ∉ (s.rows ()).heap.freed ∧ writeOnce.ReadsLast () 2 0 x := by
  have hstart : Reachable ⟨64, 4, 1, true⟩ (program writeOnce) (initial (program writeOnce)) :=
    .start rfl
  have hrun : ((system ⟨64, 4, 1, true⟩ (program writeOnce)).run readNextEpoch
      (initial (program writeOnce))).map (State.shows · 0) =
        some (2, [⟨0, ⟨.read, ()⟩⟩], .returning (some (.written 1 0))) := by decide +kernel
  obtain ⟨s, hs, hshow⟩ := hstart.of_run_map hrun
  simp only [State.shows, Prod.mk.injEq] at hshow
  obtain ⟨hepoch, htodo, hpc⟩ := hshow
  obtain ⟨v, x, hfree, _, hx, hlast⟩ :=
    read_returns_last rfl hs (by rw [hepoch]; decide) htodo hpc
  rw [hepoch] at hlast
  exact ⟨s, v, x, hs, hx ▸ hpc, hfree, hlast⟩

end Run
end Mvdcc.Caracal
