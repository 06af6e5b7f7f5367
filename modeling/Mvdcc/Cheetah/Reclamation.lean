import Mvdcc.Cheetah.SerialReads

namespace Mvdcc.Cheetah
open Library Bitmap

section Reclamation
variable {Key : Type u} [DecidableEq Key] {wl : Workload Key} {s : State Key} {k : Key}
variable {w serial : Nat} {c : Call Key} {rest : List (Call Key)} {r : Option Rec} {v : Ptr}

theorem Kept.not_freed {row : Row} (h : Kept row) (hv : v ∈ live row) : v ∉ row.heap.freed :=
  fun hf => (h.freed_iff (h.lt_next hv)).mp hf hv

theorem Inv.kept (h : Inv wl s) (k : Key) : Kept (s.rows k) := by
  have hk := h.rows k
  cases hp : s.phase with
  | write => exact ((rowInv_write k hp).mp hk).resting.kept
  | read => exact ((rowInv_read k hp).mp hk).kept
  | execution =>
    obtain ⟨m, hm⟩ := (rowInv_execution k hp).mp hk
    exact hm.kept

/-- The read has resolved to this version and has not fetched its record yet. -/
def State.Awaits (s : State Key) (k : Key) (serial : Nat) (v : Ptr) : Prop :=
  match s.phase with
  | .write => False
  | .read => s.place k .read serial = .unlockPlaceholder v ∨
      (s.place k .read serial = .done ∧ (s.rows k).pending s.epoch serial = some v)
  | .execution => (s.rows k).pending s.epoch serial = some v ∧
      (s.place k .read serial = .start ∨ s.place k .read serial = .fetch v)

/-- In the read phase, a version that a reader has resolved to is in the row. -/
theorem Resolving.live_of_resolved {W R : List Nat} {e : Nat} {row : Row} {latest : Option Stamp}
    {pcs : Nat → Pc} (h : Resolving W R e row latest pcs) (hs : serial ∈ R)
    (hv : pcs serial = .unlockPlaceholder v ∨
      (pcs serial = .done ∧ row.pending e serial = some v)) : v ∈ live row := by
  have hok := h.readers serial hs
  rw [mem_live]
  rcases hv with hpc | ⟨hpc, hp⟩
  · rw [hpc] at hok
    obtain ⟨w, _, hf⟩ := hok
    exact Or.inr (Or.inr ⟨w, hf⟩)
  · rw [hpc] at hok
    unfold ResolverOk at hok
    cases hg : greatestBelow serial W with
    | none =>
      rw [hg, hp] at hok
      exact Or.inl hok.symm
    | some w =>
      rw [hg] at hok
      obtain ⟨v', hp', hf⟩ := hok
      rw [hp, Option.some.injEq] at hp'
      exact Or.inr (Or.inr ⟨w, hp' ▸ hf⟩)

/-- Nothing a read still has to fetch is ever deleted. -/
theorem Inv.awaited_live (h : Inv wl s) (hs : serial ∈ wl.readers k s.epoch)
    (hv : s.Awaits k serial v) : v ∈ live (s.rows k) := by
  have hk := h.rows k
  unfold State.Awaits at hv
  cases hp : s.phase with
  | write =>
    rw [hp] at hv
    exact hv.elim
  | read =>
    rw [hp] at hv
    exact ((rowInv_read k hp).mp hk).live_of_resolved hs hv
  | execution =>
    rw [hp] at hv
    obtain ⟨hpend, hpc⟩ := hv
    obtain ⟨m, hrow⟩ := (rowInv_execution k hp).mp hk
    have hsW : serial ∉ wl.writers k s.epoch :=
      fun hw => wl.not_reader_of_writer hw hs
    refine hrow.live_of_reading (wl.writers_pairwise _ _) hs hsW ?_ hpend
    rcases hpc with hpc | hpc
    · rw [hpc]
      rfl
    · rw [hpc]
      rfl

/-- The master version is all that a quiet row keeps. -/
theorem Quiet.only_master {row : Row} {latest : Option Stamp} (h : Quiet row latest) :
    ∃ m, row.wBitmap.master = some m ∧ ∀ p < row.heap.next, p ∉ row.heap.freed ↔ p = m := by
  obtain ⟨m, hm, _⟩ := h.master
  refine ⟨m, hm, ?_⟩
  intro p hp
  rw [h.kept.freed_iff hp, not_not]
  unfold live
  rw [hm, h.previous, h.placeholders]
  simp

/-- The references counted in the read phase, the versions deleted at any time,
and what the execution phase leaves of a row. -/
theorem epoch_ends_quiet (h : Reachable wl s) (k : Key) :
    (s.phase = .read → s.finished = true → (s.rows k).wBitmap.refCnt =
      if wl.readers k s.epoch = [] then 0 else (wl.readers k s.epoch).length + 1) ∧
    ((s.rows k).heap.freed.Nodup ∧
      (∀ x ∈ (s.rows k).heap.reclaimed, x.version.status = .stable) ∧
      ∀ serial ∈ wl.readers k s.epoch, ∀ v, s.Awaits k serial v → v ∉ (s.rows k).heap.freed) ∧
    (s.phase = .execution → s.finished = true → (s.rows k).wBitmap.refCnt = 0 ∧
      (s.rows k).wBitmap.coreBitmap = 0 ∧ (s.rows k).wBitmap.txBitmaps = [] ∧
      (s.rows k).wBitmap.placeholders = .empty ∧ (s.rows k).wBitmap.previousMaster = none ∧
      ∃ m, (s.rows k).wBitmap.master = some m ∧
        ∀ p < (s.rows k).heap.next, p ∉ (s.rows k).heap.freed ↔ p = m) := by
  have hi := h.inv
  refine ⟨?_, ⟨(hi.kept k).freed_nodup, fun x hx => ((hi.kept k).clean x hx).1, ?_⟩, ?_⟩
  · intro hp hfin
    have hall := State.finished_iff.mp hfin
    exact ((rowInv_read k hp).mp (hi.rows k)).refCnt_of_done (fun serial => at_finished hi hall _)
  · intro serial hs v hv
    exact (hi.kept k).not_freed (hi.awaited_live hs hv)
  · intro hp hfin
    have hall := State.finished_iff.mp hfin
    obtain ⟨_, hrow⟩ := (rowInv_execution k hp).mp (hi.rows k)
    have hquiet := hrow.quiet hi.epoch (fun serial => at_finished hi hall _)
      (fun serial => at_finished hi hall _)
    exact ⟨hquiet.refCnt, hquiet.coreBitmap, hquiet.txBitmaps, hquiet.placeholders,
      hquiet.previous, hquiet.only_master⟩

/-- A record is returned from a version that is still there exactly if the row
has other reads to serve, or it is the final writer's, or it is the version of
before the epoch and the final writer has not replaced it. -/
theorem returning_live_iff (h : Reachable wl s) (hphase : s.phase = .execution)
    (htodo : (s.workers w).todo = c :: rest) (hpc : (s.workers w).pc = .returning r) :
    (∃ v, (s.rows c.index).pending s.epoch c.serial = some v ∧
      r = ((s.rows c.index).heap.version v).record ∧ v ∉ (s.rows c.index).heap.freed) ↔
    ((s.rows c.index).wBitmap.refCnt ≠ 0 ∨ (∀ σ ∈ wl.writers c.index s.epoch, σ < c.serial) ∨
      ((∀ σ ∈ wl.writers c.index s.epoch, c.serial < σ) ∧
        (s.rows c.index).wBitmap.coreBitmap ≠ 0)) := by
  obtain ⟨hR, v, hv, _, hr⟩ := returning_ok h hphase htodo hpc
  obtain ⟨_, _, m, hrow⟩ := executing_of_head h hphase htodo
  have hsW : c.serial ∉ wl.writers c.index s.epoch :=
    fun hw => wl.not_reader_of_writer hw hR
  rw [← hrow.live_iff (wl.writers_pairwise _ _) hR hsW hv]
  constructor
  · intro ⟨v', hv', _, hfree⟩
    rw [hv, Option.some.injEq] at hv'
    rw [← hv', hrow.kept.freed_iff (hrow.assigned.pending_lt hR hv), not_not] at hfree
    exact hfree
  · intro hlive
    exact ⟨v, hv, hr, hrow.kept.not_freed hlive⟩

end Reclamation

section Runs

/-- What a run shows of the only row at its end. -/
def State.showsRow (s : State Unit) : (Phase × Bool) × Int × List Ptr × Ptr :=
  ((s.phase, s.finished), (s.rows ()).wBitmap.refCnt, (s.rows ()).heap.freed, (s.rows ()).heap.next)

/-- The first epoch replaces the loaded version. -/
theorem first_epoch_ends_quiet : ∃ (s : State Unit) (m : Ptr), Reachable writeOnce s ∧
    s.phase = .execution ∧ s.finished = true ∧ (s.rows ()).heap.freed = [0] ∧
      (s.rows ()).wBitmap.refCnt = 0 ∧ (s.rows ()).wBitmap.master = some m ∧
      ∀ p < (s.rows ()).heap.next, p ∉ (s.rows ()).heap.freed ↔ p = m := by
  have hstart : Reachable writeOnce (initial writeOnce) := .start rfl
  have hrun : ((system writeOnce).run firstEpoch (initial writeOnce)).map State.showsRow =
      some ((.execution, true), 0, [0], 2) := by
    decide +kernel
  obtain ⟨s, hs, hshow⟩ := hstart.of_run_map hrun
  simp only [State.showsRow, Prod.mk.injEq] at hshow
  obtain ⟨⟨hphase, hfin⟩, _, hfreed, _⟩ := hshow
  obtain ⟨href, _, _, _, _, m, hm, honly⟩ := (epoch_ends_quiet hs ()).2.2 hphase hfin
  exact ⟨s, m, hs, hphase, hfin, hfreed, href, hm, honly⟩

/-- The write replaces the master version before the read closes the row. -/
def overtakenRead : List Choice :=
  List.replicate 6 (.worker 0 0) ++ [.barrier] ++ List.replicate 4 (.worker 0 0) ++ [.barrier] ++
    List.replicate 6 (.worker 1 0) ++ List.replicate 6 (.worker 0 0)

/-- What a run shows of a returning read. -/
def State.showsReturn (s : State Unit) :
    (Phase × Option Ptr × List Ptr) × List (Call Unit) × Pc :=
  ((s.phase, (s.rows ()).pending s.epoch 0, (s.rows ()).heap.freed), (s.workers 0).todo,
    (s.workers 0).pc)

/-- The final reader has deleted the version whose record it returns. -/
theorem overtaken_read_is_dangling : ¬ ∀ (s : State Unit) (w : Nat) (c : Call Unit)
    (rest : List (Call Unit)) (r : Option Rec), Reachable readThenWrite s → s.phase = .execution →
      (s.workers w).todo = c :: rest → (s.workers w).pc = .returning r →
        ∃ v, (s.rows c.index).pending s.epoch c.serial = some v ∧
          r = ((s.rows c.index).heap.version v).record ∧ v ∉ (s.rows c.index).heap.freed := by
  intro hall
  have hstart : Reachable readThenWrite (initial readThenWrite) := .start rfl
  have hrun : ((system readThenWrite).run overtakenRead (initial readThenWrite)).map
      State.showsReturn = some ((.execution, some 0, [0]), [⟨0, ⟨.read, ()⟩⟩],
        .returning (some (.loaded 0))) := by
    decide +kernel
  obtain ⟨s, hs, hshow⟩ := hstart.of_run_map hrun
  simp only [State.showsReturn, Prod.mk.injEq] at hshow
  obtain ⟨⟨hphase, hpend, hfreed⟩, htodo, hpc⟩ := hshow
  obtain ⟨v, hv, _, hnot⟩ := hall s 0 _ _ _ hs hphase htodo hpc
  have hv0 : v = 0 := Option.some.inj (hv.symm.trans hpend)
  subst hv0
  apply hnot
  exact List.mem_of_mem_head? (by rw [hfreed]; rfl)

end Runs
end Mvdcc.Cheetah
