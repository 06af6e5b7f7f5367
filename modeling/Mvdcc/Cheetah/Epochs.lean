import Mvdcc.Cheetah.FinalWriter

namespace Mvdcc.Cheetah
open Library Bitmap

section Epochs
variable {Key : Type u} [DecidableEq Key] {wl : Workload Key} {k : Key}
variable {W R : List Nat} {e s : Nat} {row : Row} {latest : Option Stamp} {m : Ptr}
variable {wp rp : Nat → Pc} {v : Ptr}

namespace Executing

/-- A stable version a read resolved to holds the last record before the read. -/
theorem reads_last (he : 1 ≤ e) (h : Executing (wl.writers k e) R e row (wl.trailOf k e).latest
    m wp rp) (hs : s ∈ R) (hv : row.pending e s = some v)
    (hst : (row.heap.version v).status = .stable) :
    ∃ x, (row.heap.version v).record = some x ∧ wl.ReadsLast k e s x := by
  have hW := wl.writers_pairwise k e
  cases hg : greatestBelow s (wl.writers k e) with
  | some w =>
    obtain ⟨hw, hlt, hmax⟩ := (greatestBelow_eq_some hW).mp hg
    have hver := (h.written_of_stable hw (Or.inl ⟨s, hs, hg, hv⟩) hst).2
    refine ⟨.written e w, by rw [hver], ?_⟩
    exact isLastWrite_same (wl.writes_iff.mpr ⟨he, hw⟩) hlt
      (fun w' hw' hlt' => hmax w' (wl.writes_iff.mp hw').2 hlt')
  | none =>
    have ht := h.assigned.pending_old hs hg
    rw [hv, Option.some.injEq] at ht
    subst ht
    refine ⟨_, by rw [h.assigned.old.2], ?_⟩
    apply wl.readsLast_start _ (wl.readsLast_latest k e)
    intro w hw hlt
    have := greatestBelow_eq_none.mp hg w (wl.writes_iff.mp hw).2
    omega

theorem released (h : Executing W R e row latest m wp rp) (hr : ∀ s, rp s = .done) :
    row.wBitmap.refCnt = 0 := by
  rw [h.held.refCnt_eq_zero]
  constructor <;>
  · rw [tally_eq_zero]
    intro s _
    rw [hr s]
    rfl

/-- Between two epochs every row is quiet again. -/
theorem quiet (he : 1 ≤ e) (h : Executing (wl.writers k e) R e row (wl.trailOf k e).latest m wp rp)
    (hw : ∀ s, wp s = .done) (hr : ∀ s, rp s = .done) :
    Quiet row (wl.trailOf k (e + 1)).latest := by
  have hz := h.released hr
  have hplace : row.wBitmap.placeholders = .empty := by
    apply UnorderedMap.eq_empty
    intro w
    cases hf : row.wBitmap.placeholders.find w with
    | none => rfl
    | some v => exact absurd hz ((h.placeholders w v).mp hf).1
  cases hl : (wl.writers k e).getLast? with
  | none =>
    have hW := List.getLast?_eq_none_iff.mp hl
    have hf : finalized (wl.writers k e) wp = false := by simp [finalized, hl]
    obtain ⟨hmarked, hmaster, hprev⟩ := h.before hf
    have ht : wl.trailOf k (e + 1) = wl.trailOf k e := trail_succ_none (wl.finalWriter_none hW)
    have hcore := hmarked.coreBitmap_eq_zero.mpr hW
    refine ⟨⟨h.kept, hz, hplace, hprev, m, hmaster, ?_⟩, hcore, ?_⟩
    · rw [ht]
      exact h.assigned.old.2
    · have hlen := hmarked.packed.length
      rw [positions_eq_nil.mpr hcore] at hlen
      exact List.eq_nil_of_length_eq_zero hlen.symm
  | some f =>
    have hf : finalized (wl.writers k e) wp = true := by
      rw [finalized_eq hl, hw f]
      rfl
    have ha := h.after hf
    obtain ⟨p, hp, _⟩ := ha.master
    have hfinal : wl.finalWriter k e = some f := by
      rw [Workload.finalWriter, if_neg (by omega), hl]
    have ht : wl.trailOf k (e + 1) = ⟨e, (wl.trailOf k e).latest, some (stamp e f)⟩ :=
      trail_succ_some hfinal
    have hok := h.writers f (List.mem_of_getLast? hl)
    rw [hw f] at hok
    refine ⟨⟨h.kept, hz, hplace, ?_, p, hp, ?_⟩, ha.coreBitmap, ha.txBitmaps⟩
    · rw [ha.previous, if_pos hz]
    · rw [ht]
      exact hok p (Or.inr ⟨hf, hl, hp⟩)

/-- Whether the version of a read is still there. The version of before the epoch
goes when the reads are released and the final writer has replaced it, a
placeholder when the reads are released, and the final writer's version stays. -/
theorem live_iff (h : Executing W R e row latest m wp rp) (hW : W.Pairwise (· < ·))
    (hs : s ∈ R) (hsW : s ∉ W) (hv : row.pending e s = some v) :
    v ∈ live row ↔ row.wBitmap.refCnt ≠ 0 ∨ (∀ w ∈ W, w < s) ∨
      ((∀ w ∈ W, s < w) ∧ row.wBitmap.coreBitmap ≠ 0) := by
  rw [mem_live]
  cases hg : greatestBelow s W with
  | none =>
    have hvm := h.assigned.pending_old hs hg
    rw [hv, Option.some.injEq] at hvm
    subst hvm
    have habove : ∀ w ∈ W, s < w := by
      intro w hw
      refine Nat.lt_of_le_of_ne (greatestBelow_eq_none.mp hg w hw) ?_
      rintro rfl
      exact hsW hw
    cases hf : finalized W wp with
    | false =>
      have hb := h.before hf
      refine iff_of_true (Or.inl hb.master) ?_
      by_cases hz : row.wBitmap.coreBitmap = 0
      · rw [hb.marked.coreBitmap_eq_zero] at hz
        exact Or.inr (Or.inl (by simp [hz]))
      · exact Or.inr (Or.inr ⟨habove, hz⟩)
    | true =>
      have ha := h.after hf
      obtain ⟨p, hp, hpm, _⟩ := ha.master
      have hnone : ∀ w, row.wBitmap.placeholders.find w ≠ some v := fun w hw =>
        (h.assigned.apart w v ((h.placeholders w v).mp hw).2.1).2 rfl
      have hne : ∃ f ∈ W, ¬ f < s := by
        cases hl : W.getLast? with
        | none => simp [finalized, hl] at hf
        | some f =>
          have hm := List.mem_of_getLast? hl
          exact ⟨f, hm, Nat.not_lt.mpr (Nat.le_of_lt (habove f hm))⟩
      obtain ⟨f, hfW, hfs⟩ := hne
      have hall : ¬ ∀ w ∈ W, w < s := fun hn => hfs (hn f hfW)
      simp only [hp, Option.some.injEq, hpm, ha.previous, hnone, exists_const, or_false, false_or,
        ha.coreBitmap, ne_eq, not_true_eq_false, and_false, hall]
      split <;> simp [*]
  | some w =>
    obtain ⟨hw, hlt, hmax⟩ := (greatestBelow_eq_some hW).mp hg
    have hr : Resolved W R e row w v := ⟨s, hs, hg, hv⟩
    have habove : ¬ ∀ w ∈ W, s < w := fun hn => Nat.lt_asymm hlt (hn w hw)
    have hvm := (h.assigned.apart w v hr).2
    by_cases hl : W.getLast? = some w
    · have hbelow : ∀ w' ∈ W, w' < s := fun w' hw' =>
        Nat.lt_of_le_of_lt (((getLast_eq_some hW).mp hl).2 w' hw') hlt
      refine iff_of_true ?_ (Or.inr (Or.inl hbelow))
      cases hf : finalized W wp with
      | true =>
        obtain ⟨p, hp, _, _, hfun⟩ := (h.after hf).master
        exact Or.inl (by rw [hp, hfun w v hl hr])
      | false =>
        rw [finalized_eq hl] at hf
        exact Or.inr (Or.inr ⟨w, (h.find_iff hW hf).mpr hr⟩)
    · have hbelow : ¬ ∀ w' ∈ W, w' < s := fun hn =>
        hl ((getLast_eq_some hW).mpr ⟨hw, fun w' hw' => hmax w' hw' (hn w' hw')⟩)
      have hmaster : row.wBitmap.master ≠ some v := by
        intro hm
        cases hf : finalized W wp with
        | false =>
          rw [(h.before hf).master, Option.some.injEq] at hm
          exact hvm hm.symm
        | true =>
          obtain ⟨p, hp, _, hres, _⟩ := (h.after hf).master
          rw [hp, Option.some.injEq] at hm
          exact hl (hres w (hm ▸ hr))
      have hprev : row.wBitmap.previousMaster ≠ some v := by
        intro hm
        cases hf : finalized W wp with
        | false =>
          rw [(h.before hf).previous] at hm
          cases hm
        | true =>
          rw [(h.after hf).previous] at hm
          split at hm
          · cases hm
          · exact hvm (Option.some.inj hm).symm
      simp only [hmaster, hprev, habove, hbelow, false_or, false_and, or_false]
      constructor
      · rintro ⟨w', hw'⟩
        exact ((h.placeholders w' v).mp hw').1
      · intro hz
        exact ⟨w, (h.placeholders w v).mpr ⟨hz, hr, fun hfl => hl hfl.2⟩⟩

/-- A read that has not fetched its record yet still has its version. -/
theorem live_of_reading (h : Executing W R e row latest m wp rp) (hW : W.Pairwise (· < ·))
    (hs : s ∈ R) (hsW : s ∉ W) (hread : (rp s).reading = true)
    (hv : row.pending e s = some v) : v ∈ live row := by
  rw [h.live_iff hW hs hsW hv]
  refine Or.inl (fun hz => ?_)
  have hpos : 0 < tally Pc.reading R rp := tally_pos hs hread
  have := (h.held.refCnt_eq_zero.mp hz).1
  omega

end Executing
end Epochs
end Mvdcc.Cheetah
