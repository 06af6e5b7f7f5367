import Mvdcc.Serval.Execution

namespace Mvdcc.Serval
open Library Bitmap

section Epochs
variable {Key : Type u} [DecidableEq Key] {wl : Workload Key} {k : Key}
variable {e : Nat} {row : Row} {own : RowRegion} {pcs : Nat → Pc} {s : Nat}

/-- When every write has finished, each of them is a stable version of the epoch. -/
theorem Written.version_of_done {W : List Nat} {t : Trail} (h : Written W e t row own pcs)
    (hd : ∀ s, pcs s = .done) (hs : s ∈ W) :
    ∃ p, row.pending e s = some p ∧ row.heap.version p = ⟨some (.written e s), .stable⟩ := by
  obtain ⟨p, hp, hv⟩ := h.writers s hs
  rw [hd s] at hv
  exact ⟨p, hp, hv⟩

theorem Written.settled (he : 1 ≤ e)
    (h : Written (wl.writers k e) e (wl.trailOf k e) row own pcs) (hW : wl.writers k e ≠ [])
    (hd : ∀ s, pcs s = .done) : Settled row own (wl.trailOf k (e + 1)) := by
  obtain ⟨w, hf, hw, hmax⟩ := wl.finalWriter_some he hW
  have ht : wl.trailOf k (e + 1) = ⟨e, (wl.trailOf k e).latest, some (stamp e w)⟩ :=
    trail_succ_some hf
  obtain ⟨p, hp, hv⟩ := h.version_of_done hd hw
  obtain ⟨q, hm, hq⟩ := h.master
  refine ⟨h.kept, ?_, ?_, h.populated, ?_, ?_⟩
  · rw [ht]
    exact h.epoch
  · intro x hx
    rcases live_cases h.kept hx with hx | ⟨i, hi⟩ | ⟨c, h64, hc, hx⟩
    · rw [hm, Option.some.injEq] at hx
      subst hx
      unfold Heap.Finished
      cases hl : (wl.trailOf k e).latest with
      | none =>
        rw [hl] at hq
        simp [hq.2]
      | some st =>
        rw [hl] at hq
        simp [hq.2]
    · obtain ⟨s', rfl, hs'⟩ := (h.contents i x).mp hi
      obtain ⟨x', hx', hv'⟩ := h.version_of_done hd
        (h.members s' (by rw [hs']; exact Option.some_ne_none x))
      rw [hs', Option.some.injEq] at hx'
      subst hx'
      simp [Heap.Finished, hv']
    · exact h.leftovers c h64 hc x hx
  · refine ⟨w, p, ?_, ?_⟩
    · apply (contents_ascending h.kept).getLast_of_max ((h.contents w p).mpr ⟨w, rfl, hp⟩)
      rintro ⟨i, x⟩ hx
      obtain ⟨s', rfl, hs'⟩ := (h.contents i x).mp hx
      exact Nat.cast_le.mpr (hmax s' (h.members s' (by rw [hs']; exact Option.some_ne_none x)))
    · rw [ht]
      exact ⟨hp, hv⟩
  · refine ⟨q, hm, ?_⟩
    rw [ht]
    exact hq

/-- Between two epochs every row is settled again. -/
theorem Running.settled (he : 1 ≤ e)
    (h : Running (wl.writers k e) e (wl.trailOf k e) row own pcs) (hd : ∀ s, pcs s = .done) :
    Settled row own (wl.trailOf k (e + 1)) ∧ ∀ e' s, e + 1 ≤ e' → row.pending e' s = none := by
  rcases h with ⟨hW, hs, hf⟩ | ⟨hW, h⟩
  · have ht : wl.trailOf k (e + 1) = wl.trailOf k e := trail_succ_none (wl.finalWriter_none hW)
    rw [ht]
    exact ⟨hs, fun e' s hle => hf e' s (by omega)⟩
  · exact ⟨h.settled he hW hd, fun e' s hle => h.future e' s hle⟩

/-- In an epoch that writes the row, a version a read resolves to and finds
stable holds the last record before it. -/
theorem Written.reads_last (he : 1 ≤ e)
    (h : Written (wl.writers k e) e (wl.trailOf k e) row own pcs) {v : Ptr} {b : Bool}
    (hv : visibleOf row own e s = (some v, b)) (hst : (row.heap.version v).status = .stable) :
    ∃ x, (row.heap.version v).record = some x ∧ wl.ReadsLast k e s x := by
  have hepoch := h.epoch
  unfold visibleOf at hv
  rw [if_neg (not_not.mpr hepoch)] at hv
  split at hv
  · rename_i i p hb
    simp only [Prod.mk.injEq, Option.some.injEq] at hv
    obtain ⟨rfl, -⟩ := hv
    rw [(contents_ascending h.kept).entryBelow_eq_some] at hb
    obtain ⟨hm, hlt, hmax⟩ := hb
    obtain ⟨w, rfl, hp⟩ := (h.contents i p).mp hm
    have hw := h.members w (by rw [hp]; exact Option.some_ne_none p)
    obtain ⟨p', hp', hpc⟩ := h.writers w hw
    rw [hp, Option.some.injEq] at hp'
    subst hp'
    have hrec : row.heap.version p = ⟨some (.written e w), .stable⟩ := by
      cases hc : pcs w <;> rw [hc] at hpc <;> try exact hpc.elim
      · simp [hpc] at hst
      · simp [hpc.2] at hst
      · exact hpc
    refine ⟨.written e w, by rw [hrec], ?_⟩
    refine isLastWrite_same (wl.writes_iff.mpr ⟨he, hw⟩) (Nat.cast_lt.mp hlt) ?_
    intro w' hw' hlt'
    obtain ⟨p', hp', _⟩ := h.writers w' (wl.writes_iff.mp hw').2
    exact Nat.cast_le.mp (hmax (w', p') ((h.contents w' p').mpr ⟨w', rfl, hp'⟩)
      (Nat.cast_lt.mpr hlt'))
  · rename_i hb
    simp only [Prod.mk.injEq] at hv
    obtain ⟨hm, -⟩ := hv
    obtain ⟨q, hq, hver⟩ := h.master
    rw [hq, Option.some.injEq] at hm
    subst hm
    have hstart := @earlier_eq_start (wl.Writes k) e s (by
      intro w hw hlt
      obtain ⟨p, hp, _⟩ := h.writers w (wl.writes_iff.mp hw).2
      have := entryBelow_eq_none.mp hb (w, p) ((h.contents w p).mpr ⟨w, rfl, hp⟩)
      simp only [Nat.cast_le] at this
      omega)
    have hlast := wl.trailOf_latest k e
    cases hl : (wl.trailOf k e).latest with
    | none =>
      rw [hl] at hver hlast
      exact ⟨.loaded 0, by rw [hver.2], hstart.trans hlast⟩
    | some st =>
      rw [hl] at hver hlast
      refine ⟨_, by rw [hver.2], ?_⟩
      change IsLastWrite _ _ _
      unfold IsLastWrite
      rw [hstart]
      exact hlast

/-- A row the epoch does not write answers from its master version, which is the
last write but one: right only if the row was never written. -/
theorem Settled.reads_last_iff (he : 1 ≤ e) (hW : wl.writers k e = [])
    (h : Settled row own (wl.trailOf k e)) {v : Ptr} {b : Bool}
    (hv : visibleOf row own e s = (some v, b)) :
    (∃ x, (row.heap.version v).record = some x ∧ wl.ReadsLast k e s x) ↔
      earlier (wl.Writes k) (stamp e 0) = ∅ := by
  have hstart := @earlier_eq_start (wl.Writes k) e s (by
    intro w hw
    have := (wl.writes_iff.mp hw).2
    rw [hW] at this
    cases this)
  have hlt : (wl.trailOf k e).epoch < e := trail_epoch_lt he
  have hepoch := h.epoch
  obtain ⟨q, hq, hver⟩ := h.master
  unfold visibleOf at hv
  rw [if_pos (by omega)] at hv
  simp only [hq, Prod.mk.injEq, Option.some.injEq] at hv
  obtain ⟨rfl, -⟩ := hv
  have hlast := wl.trailOf_latest k e
  have hne := @trail_previous_ne_latest (wl.finalWriter k) e
  change (wl.trailOf k e).latest ≠ none → (wl.trailOf k e).previous ≠ (wl.trailOf k e).latest
    at hne
  unfold IsMaster at hver
  cases hl : (wl.trailOf k e).latest with
  | none =>
    rw [hl] at hver hlast
    refine ⟨fun _ => hlast, fun _ => ⟨.loaded 1, by rw [hver], ?_⟩⟩
    exact hstart.trans hlast
  | some st =>
    rw [hl] at hver hlast hne
    have hnot : earlier (wl.Writes k) (stamp e 0) ≠ ∅ := by
      intro hempty
      have hm := hlast.1
      rw [hempty] at hm
      exact hm
    refine ⟨?_, fun hempty => absurd hempty hnot⟩
    rintro ⟨x, hx, hreads⟩
    cases hp : (wl.trailOf k e).previous with
    | none =>
      rw [hp] at hver
      rw [hver.2, Option.some.injEq] at hx
      subst hx
      exact hstart ▸ hreads
    | some st' =>
      rw [hp] at hver
      rw [hver.2, Option.some.injEq] at hx
      subst hx
      have hr : IsLastWrite (wl.Writes k) (stamp e s) st' := hreads
      unfold IsLastWrite at hr
      rw [hstart] at hr
      have heq := hr.unique hlast
      rw [hp, heq] at hne
      exact absurd rfl (hne (by simp))

theorem settled_loaded : Settled loadedRow RowRegion.fresh ⟨0, none, none⟩ := by
  refine ⟨⟨fun _ => ?_, fun _ => rfl, ?_, RowRegion.wellFormed_fresh, ?_, ?_⟩, rfl, ?_,
    ⟨RowRegion.wellFormed_fresh, ?_⟩, ⟨-1, 0, ?_, rfl, rfl⟩, ⟨1, rfl, rfl⟩⟩
  · contradiction
  · exact List.pairwise_singleton _ _
  · simp [live, loadedRow, GlobalVersionArray.append, insertEntry_nil, Heap.freed]
  · intro r hr
    simp [loadedRow] at hr
  · intro p _
    simp [Heap.Finished, loadedRow]
  · intro c hc
    simp [RowRegion.fresh] at hc
  · rw [contents, RowRegion.entries_fresh]
    rfl

end Epochs
end Mvdcc.Serval
