import Mvdcc.Caracal.SerialHistory
import Mvdcc.Cheetah.SerialHistory
import Mvdcc.Serval.SerialHistory

namespace Mvdcc
open Library

section Agreement
variable {Key : Type u} [DecidableEq Key] {wl : Workload Key} {cfg : Caracal.Config}
variable {numRegions : Nat} {h : Cheetah.State Key} {r : Caracal.State Key} {v : Serval.State Key}
variable {hlog rlog vlog : List (Reading Key)} {e : Nat} {c : Call Key} {st st' : Option Stamp}

theorem content_recOf_inj (heq : (recOf st).content = (recOf st').content) : st = st' := by
  cases st with
  | none =>
    cases st' with
    | none => rfl
    | some p' => cases heq
  | some p =>
    cases st' with
    | none => cases heq
    | some p' =>
      obtain ⟨he, hs⟩ := Rec.written.inj heq
      exact congrArg some (Prod.ext he hs)

/-- An answer that lags behind is the serial one if the epoch writes the row, or if no
epoch before it has. -/
theorem laggingBehind_eq_serially (he : 1 ≤ e) (hs : c.serial < numTxsInOneEpoch) :
    wl.laggingBehind e c = wl.serially e c ↔
      (∃ σ, wl.Writes c.index e σ) ∨ ∀ e' < e, ∀ σ, ¬ wl.Writes c.index e' σ := by
  unfold Workload.laggingBehind
  by_cases hW : wl.writers c.index e = []
  · have hnone : ∀ σ, ¬ wl.Writes c.index e σ := by
      intro σ hw
      have hm := (wl.writes_iff.mp hw).2
      rw [hW] at hm
      cases hm
    have hserial : wl.serially e c = (recOf (wl.trailOf c.index e).latest).content :=
      (wl.store_of_readsLast he hs (wl.readsLast_start (fun σ hw _ => hnone σ hw)
        (wl.readsLast_latest c.index e))).symm
    have hlatest := wl.trailOf_latest c.index e
    rw [if_pos hW, hserial, ← earlier_eq_empty]
    cases hl : (wl.trailOf c.index e).latest with
    | none =>
      have hzero : (wl.trailOf c.index e).epoch = 0 := trail_unwritten e hl
      rw [hl] at hlatest
      rw [hzero]
      exact iff_of_true rfl (Or.inr hlatest)
    | some p =>
      have hne : (wl.trailOf c.index e).latest ≠ none := by
        rw [hl]
        simp
      have hprevious : (wl.trailOf c.index e).previous =
          (wl.trailOf c.index (wl.trailOf c.index e).epoch).latest := trail_previous e hne
      rw [hl] at hlatest
      refine iff_of_false ?_ ?_
      · rw [← wl.store_of_trail, ← hprevious, ← hl]
        exact fun heq => trail_previous_ne_latest e hne (content_recOf_inj heq)
      · rintro (⟨σ, hw⟩ | hempty)
        · exact hnone σ hw
        · exact Set.notMem_empty p (hempty ▸ hlatest.1)
  · rw [if_neg hW]
    obtain ⟨σ, hσ⟩ := List.exists_mem_of_ne_nil _ hW
    exact iff_of_true rfl (Or.inl ⟨σ, wl.writes_iff.mpr ⟨he, hσ⟩⟩)

omit [DecidableEq Key] in
/-- Other answers give another execution, since no two readings are of the same call. -/
theorem answers_perm_iff {answers : Nat → Call Key → Rec} {l : List (Reading Key)}
    (hn : (l.map Reading.tag).Nodup) :
    (l.map (Reading.answer answers)).Perm l ↔ ∀ y ∈ l, y.answer answers = y := by
  constructor
  · intro hperm y hy
    have hm : y.answer answers ∈ l := hperm.subset (List.mem_map_of_mem hy)
    exact List.inj_on_of_nodup_map hn hm hy rfl
  · intro hall
    rw [List.map_congr_left hall, List.map_id']

/-- Cheetah and Caracal agree on what every transaction reads and on the last record of
every row, whatever their interleavings. -/
theorem cheetah_agrees_with_caracal (hcore : cfg.numCore = 64)
    (hh : Cheetah.ReadRun wl h hlog) (hr : Caracal.ReadRun cfg wl r rlog)
    (hepoch : h.epoch = r.epoch) (he : r.epoch < 2 ^ 32)
    (hphase : h.phase = .execution) (hfin : h.finished = true)
    (hphase' : r.phase = .execution) (hfin' : ∀ w < 64, (r.workers w).todo = []) :
    (hlog.map Reading.content).Perm (rlog.map Reading.content) ∧
      ∀ k, ∃ master x last y, (h.rows k).wBitmap.master = some master ∧
        (h.rows k).heap.version master = ⟨some x, .stable⟩ ∧
        (r.rows k).globalArray.idsSlots.getLast? = some last ∧
        (r.rows k).heap.version last.2 = ⟨some y, .stable⟩ ∧ x.content = y.content := by
  obtain ⟨hperm, hmaster⟩ := hh.finished hphase hfin
  obtain ⟨hperm', hlast⟩ := hr.finished hcore he hphase' hfin'
  rw [hepoch] at hperm hmaster
  refine ⟨hperm.trans hperm'.symm, fun k => ?_⟩
  obtain ⟨master, x, hm, hx, hstore⟩ := hmaster k
  obtain ⟨last, y, hl, hy, hstore'⟩ := hlast k
  exact ⟨master, x, last, y, hm, hx, hl, hy, hstore.trans hstore'.symm⟩

/-- Serval agrees with Cheetah exactly on the workloads in which every row that an epoch
reads is one that the epoch writes, or one that no epoch before has written. -/
theorem serval_agrees_with_cheetah_iff (hv : Serval.ReadRun wl numRegions v vlog)
    (hh : Cheetah.ReadRun wl h hlog) (hepoch : v.epoch = h.epoch)
    (hphase : h.phase = .execution) (hfin : h.finished = true)
    (hphase' : v.phase = .execution) (hfin' : v.finished = true) :
    (vlog.map Reading.content).Perm (hlog.map Reading.content) ↔
      ∀ e serial k, 1 ≤ e → e ≤ v.epoch → serial < numTxsInOneEpoch →
        ⟨.read, k⟩ ∈ wl.rwSet e serial →
          (∃ σ, wl.Writes k e σ) ∨ ∀ e' < e, ∀ σ, ¬ wl.Writes k e' σ := by
  obtain ⟨hperm, _⟩ := hh.finished hphase hfin
  obtain ⟨hperm', _⟩ := hv.finished hphase' hfin'
  rw [← hepoch] at hperm
  rw [hperm.congr_right, hperm'.congr_left, answers_perm_iff (wl.serialReadings_tags _)]
  constructor
  · intro hall e serial k he hle hs hop
    have hmem : ⟨e, ⟨serial, ⟨.read, k⟩⟩, some (wl.serially e ⟨serial, ⟨.read, k⟩⟩)⟩ ∈
        wl.serialReadings (v.epoch * numTxsInOneEpoch) :=
      wl.mem_serialReadings.mpr ⟨⟨he, hle⟩, hs, wl.mem_rSet.mpr ⟨hop, rfl⟩, rfl⟩
    have heq := congrArg Reading.record (hall _ hmem)
    exact (laggingBehind_eq_serially he hs).mp (Option.some.inj heq)
  · intro hall y hy
    obtain ⟨⟨he, hle⟩, hs, hop, hrecord⟩ := wl.mem_serialReadings.mp hy
    obtain ⟨hmem, hope⟩ := wl.mem_rSet.mp hop
    obtain ⟨epoch, ⟨serial, ⟨ope, k⟩⟩, record⟩ := y
    simp only at hrecord he hle hs hmem hope
    subst hope hrecord
    have heq := (laggingBehind_eq_serially (c := ⟨serial, ⟨.read, k⟩⟩) he hs).mpr
      (hall epoch serial k he hle hs hmem)
    unfold Reading.answer
    rw [heq]
    rfl

end Agreement

section Runs

theorem cheetah_agrees_with_caracal_firstEpoch :
    ∃ (h : Cheetah.State Unit) (r : Caracal.State Unit) (hlog rlog : List (Reading Unit)),
      Cheetah.ReadRun writeOnce h hlog ∧ Caracal.ReadRun ⟨64, 4, 1, true⟩ writeOnce r rlog ∧
        (hlog.map Reading.content).Perm (rlog.map Reading.content) := by
  obtain ⟨h, hlog, hh, he, hphase, hfin, _⟩ := Cheetah.firstEpoch_runs
  obtain ⟨r, rlog, hr, he', hphase', hfin'⟩ := Caracal.firstEpoch_runs
  have hagree := cheetah_agrees_with_caracal rfl hh hr (he.trans he'.symm) (by rw [he']; decide)
    hphase hfin hphase' hfin'
  exact ⟨h, r, hlog, rlog, hh, hr, hagree.1⟩

/-- The first epoch writes the row that it reads. -/
theorem serval_agrees_with_cheetah_firstEpoch :
    ∃ (v : Serval.State Unit) (h : Cheetah.State Unit) (vlog hlog : List (Reading Unit)),
      Serval.ReadRun writeOnce 1 v vlog ∧ Cheetah.ReadRun writeOnce h hlog ∧
        (vlog.map Reading.content).Perm (hlog.map Reading.content) := by
  obtain ⟨h, hlog, hh, he, hphase, hfin, _⟩ := Cheetah.firstEpoch_runs
  obtain ⟨v, vlog, hv, he', hphase', hfin'⟩ := Serval.firstEpoch_runs
  refine ⟨v, h, vlog, hlog, hv, hh, ?_⟩
  refine (serval_agrees_with_cheetah_iff hv hh (he'.trans he.symm) hphase hfin hphase' hfin').mpr ?_
  intro e serial k h1 hle hs hop
  have heq : e = 1 := by omega
  subst heq
  exact Or.inl ⟨0, writeOnce_writes⟩

end Runs
end Mvdcc
