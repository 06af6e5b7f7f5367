import Mvdcc.Cheetah.Safety

namespace Mvdcc.Cheetah
open Library Bitmap

section SerialReads
variable {Key : Type u} [DecidableEq Key] {wl : Workload Key} {s : State Key}
variable {w : Nat} {c : Call Key} {rest : List (Call Key)} {r : Option Rec}

/-- What the execution phase knows of the row a worker's call is on. -/
theorem executing_of_head (h : Reachable wl s) (hphase : s.phase = .execution)
    (htodo : (s.workers w).todo = c :: rest) :
    c.serial < numTxsInOneEpoch ∧ c.operation ∈ wl.rwSet s.epoch c.serial ∧
      ∃ m, Executing (wl.writers c.index s.epoch) (wl.readers c.index s.epoch) s.epoch
        (s.rows c.index) (wl.trailOf c.index s.epoch).latest m (s.place c.index .update)
        (s.place c.index .read) := by
  have hi := h.inv
  have hasg := program_assigned wl s.phase s.epoch
  have hmem := hi.remaining.mem htodo
  rw [← hasg.owned w c hmem, mem_program] at hmem
  exact ⟨hmem.1, hmem.2.1, (rowInv_execution c.index hphase).mp (hi.rows c.index)⟩

/-- A returning call is a read, with its version at hand. -/
theorem returning_ok (h : Reachable wl s) (hphase : s.phase = .execution)
    (htodo : (s.workers w).todo = c :: rest) (hpc : (s.workers w).pc = .returning r) :
    c.serial ∈ wl.readers c.index s.epoch ∧
      ReaderOk s.epoch (s.rows c.index) c.serial (.returning r) := by
  obtain ⟨hlt, hop, m, hrow⟩ := executing_of_head h hphase htodo
  have hplace : s.place c.index c.operation.ope c.serial = .returning r := by
    rw [← hpc, ← at_head h.inv htodo]
    rfl
  cases hope : c.operation.ope with
  | update =>
    have hW : c.serial ∈ wl.writers c.index s.epoch := by
      rw [wl.mem_writers, ← hope]
      exact ⟨hlt, hop⟩
    have hok := hrow.writers c.serial hW
    rw [hope] at hplace
    rw [hplace] at hok
    exact hok.elim
  | read =>
    have hR : c.serial ∈ wl.readers c.index s.epoch := by
      rw [wl.mem_readers, ← hope]
      exact ⟨hlt, hop⟩
    have hok := hrow.readers c.serial hR
    rw [hope] at hplace
    rw [hplace] at hok
    exact ⟨hR, hok⟩

/-- Every read returns the last record serialized before it, and an epoch that is
over leaves in every row the stable version of the last write so far. -/
theorem reads_and_masters_last (h : Reachable wl s) (hphase : s.phase = .execution) :
    (∀ w c rest r, (s.workers w).todo = c :: rest → (s.workers w).pc = .returning r →
      ∃ x, r = some x ∧ wl.ReadsLast c.index s.epoch c.serial x) ∧
    (s.finished = true → ∀ k, ∃ m x, (s.rows k).wBitmap.master = some m ∧
      (s.rows k).heap.version m = ⟨some x, .stable⟩ ∧ wl.ReadsLast k (s.epoch + 1) 0 x) := by
  have hi := h.inv
  constructor
  · intro w c rest r htodo hpc
    obtain ⟨hR, v, hv, hst, rfl⟩ := returning_ok h hphase htodo hpc
    obtain ⟨_, _, m, hrow⟩ := executing_of_head h hphase htodo
    exact hrow.reads_last hi.epoch hR hv hst
  · intro hfin k
    have hall := State.finished_iff.mp hfin
    obtain ⟨_, hrow⟩ := (rowInv_execution k hphase).mp (hi.rows k)
    have hquiet := hrow.quiet hi.epoch (fun serial => at_finished hi hall _)
      (fun serial => at_finished hi hall _)
    obtain ⟨m, hm, hver⟩ := hquiet.master
    exact ⟨m, _, hm, hver, wl.readsLast_latest k (s.epoch + 1)⟩

end SerialReads

section Runs

/-- The first epoch of a write and a read of it, up to the return of the read. -/
def firstRead : List Choice :=
  List.replicate 6 (.worker 0 0) ++ [.barrier] ++ List.replicate 7 (.worker 0 0) ++ [.barrier] ++
    List.replicate 6 (.worker 0 0) ++ List.replicate 6 (.worker 1 0)

/-- The same epoch to its end. -/
def firstEpoch : List Choice := firstRead ++ List.replicate 2 (.worker 1 0)

def State.shows (s : State Key) (w : Nat) : (Nat × Phase × Bool) × List (Call Key) × Pc :=
  ((s.epoch, s.phase, s.finished), (s.workers w).todo, (s.workers w).pc)

theorem firstRead_shows : ((system writeOnce).run firstRead (initial writeOnce)).map (State.shows · 1) =
    some ((1, .execution, false), [⟨1, ⟨.read, ()⟩⟩], .returning (some (.written 1 0))) := by
  decide +kernel

theorem first_epoch_reads_last :
    (∃ (s : State Unit) (x : Rec), Reachable writeOnce s ∧
      (s.workers 1).pc = .returning (some x) ∧ writeOnce.ReadsLast () s.epoch 1 x) ∧
    ∃ (s : State Unit) (m : Ptr) (x : Rec), Reachable writeOnce s ∧ s.finished = true ∧
      (s.rows ()).wBitmap.master = some m ∧ (s.rows ()).heap.version m = ⟨some x, .stable⟩ ∧
        writeOnce.ReadsLast () (s.epoch + 1) 0 x := by
  have hstart : Reachable writeOnce (initial writeOnce) := .start rfl
  constructor
  · obtain ⟨s, hs, hshow⟩ := hstart.of_run_map firstRead_shows
    simp only [State.shows, Prod.mk.injEq] at hshow
    obtain ⟨⟨_, hphase, _⟩, htodo, hpc⟩ := hshow
    obtain ⟨x, hx, hlast⟩ := (reads_and_masters_last hs hphase).1 1 _ _ _ htodo hpc
    exact ⟨s, x, hs, hx ▸ hpc, hlast⟩
  · have hrun : ((system writeOnce).run firstEpoch (initial writeOnce)).map (State.shows · 1) =
        some ((1, .execution, true), [], .start) := by
      decide +kernel
    obtain ⟨s, hs, hshow⟩ := hstart.of_run_map hrun
    simp only [State.shows, Prod.mk.injEq] at hshow
    obtain ⟨⟨_, hphase, hfin⟩, _, _⟩ := hshow
    obtain ⟨m, x, hm, hver, hlast⟩ := (reads_and_masters_last hs hphase).2 hfin ()
    exact ⟨s, m, x, hs, hfin, hm, hver, hlast⟩

end Runs
end Mvdcc.Cheetah
