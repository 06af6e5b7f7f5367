import Mvdcc.Serval.Safety

namespace Mvdcc.Serval
open Library Bitmap

/-- The serial ids of a region: `core * 64 + tx` over the set bits. -/
def RowRegion.serialIds (r : RowRegion) : List Int :=
  (positions r.coreBitmap).flatMap (fun c =>
    (positions (r.arrays c).transactionBitmap).map (fun tx => ((c * 64 + tx : Nat) : Int)))

theorem RowRegion.entries_fst {r : RowRegion} (h : r.WellFormed) :
    r.entries.map Prod.fst = r.serialIds := by
  unfold entries serialIds
  rw [List.map_flatMap]
  apply List.flatMap_congr
  intro c hc
  have hl := h c (mem_positions.mp hc)
  rw [List.map_map, ← List.map_fst_zip (Nat.le_of_eq hl), List.map_map]
  rfl

section NoLoss
variable {Key : Type u} [DecidableEq Key] {wl : Workload Key} {numRegions : Nat} {s t : State Key}

/-- What the initialization phase of an epoch leaves behind on a row it writes. -/
structure Initialized (wl : Workload Key) (numRegions : Nat) (s : State Key) (k : Key) : Prop where
  epoch : (s.rows k).value.epoch = s.epoch
  held : (∃ ids, (s.rows k).value.globalArray.idsSlots = ids ∧ (s.memory k).hasDirtyRegion = false ∧
      ids.map Prod.fst = (wl.writers k s.epoch).map Nat.cast ∧
      ∀ (σ : Nat) p, ((σ : Int), p) ∈ ids → (s.rows k).pending s.epoch σ = some p) ∨
    (∃ i region, (s.rows k).value.rowRegion = some i ∧ s.controller.regions i = region ∧
      (s.rows k).value.globalArray.isDirty = false ∧
      region.serialIds = (wl.writers k s.epoch).map Nat.cast ∧
      ∀ σ ∈ wl.writers k s.epoch, (s.rows k).pending s.epoch σ ≠ none ∧
        (region.arrays (getCoreSerial σ)).get (getTxSerial σ) = (s.rows k).pending s.epoch σ)
  master : ∀ e σ, IsLastWrite (wl.Writes k) (stamp s.epoch 0) (stamp e σ) →
    ∃ q, (s.rows k).value.master = some q ∧ (s.rows k).pending e σ = some q
  loaded : earlier (wl.Writes k) (stamp s.epoch 0) = ∅ → (s.rows k).value.master = some 0
  region : ∀ i, (s.rows k).value.rowRegion = some i →
    (∀ k', (s.rows k').value.rowRegion = some i → k' = k) ∧
      ∀ t, (system wl numRegions).Reachable (· = s) t → (t.rows k).value.rowRegion = some i

/-- The region of a row is set once: no later step changes it. -/
theorem region_kept (h : Reachable wl numRegions s) {i : Choice}
    (hstep : step wl numRegions i s = some t) {k : Key} {r : Nat}
    (hr : (s.rows k).value.rowRegion = some r) : (t.rows k).value.rowRegion = some r := by
  rcases step_cases hstep with ⟨w, c, rest, htodo, hpc, rfl⟩ | ⟨w, c, rest, pc, m, htodo, hcall, rfl⟩ |
    ⟨hall, ⟨hp, rfl⟩ | ⟨hp, rfl⟩⟩
  · exact hr
  · by_cases hk : k = c.index
    · subst hk
      have hrows : (s.advance w c.index pc m).rows c.index = m.toRow := Function.update_self _ _ _
      rw [hrows]
      rcases (h.inv.call_step htodo hcall).2.pool with ⟨hsame, _⟩ | ⟨hnone, _⟩
      · exact hsame.trans hr
      · exact absurd (hnone.symm.trans hr) (by simp)
    · rw [rows_advance hk]
      exact hr
  · exact hr
  · exact hr

theorem region_kept_forever (h : Reachable wl numRegions s) {k : Key} {r : Nat}
    (hr : (s.rows k).value.rowRegion = some r)
    (ht : (system wl numRegions).Reachable (· = s) t) : (t.rows k).value.rowRegion = some r := by
  induction ht with
  | start he => exact he ▸ hr
  | next i hreach hstep ih => exact region_kept (h.trans hreach) hstep ih

/-- The initialization phase loses and duplicates nothing. -/
theorem initialization_complete (h : Reachable wl numRegions s)
    (hphase : s.phase = .initialization) (hall : ∀ w < 64, (s.workers w).todo = []) {k : Key}
    (hW : wl.writers k s.epoch ≠ []) : Initialized wl numRegions s k := by
  have hi := h.inv
  have hrow := hi.rows k
  unfold RowInv at hrow
  rw [hphase] at hrow
  have hdone := place_finished hi.remaining hall k .update
  rcases @Preparing.finish _ _ _ _ _ _ (fun _ => .start) hrow hdone (fun _ _ => rfl) with
    ⟨hnil, _⟩ | ⟨_, hrun⟩
  · exact absurd hnil hW
  have hids : (contents (s.rows k) (s.own k)).map Prod.fst =
      (wl.writers k s.epoch).map (Nat.cast : Nat → Int) := by
    apply pairwise_lt_ext
    · exact List.pairwise_map.mpr (contents_ascending hrun.kept)
    · exact List.pairwise_map.mpr ((wl.writers_pairwise k s.epoch).imp Nat.cast_lt.mpr)
    · intro i
      rw [List.mem_map, List.mem_map]
      constructor
      · rintro ⟨⟨i, p⟩, hm, rfl⟩
        obtain ⟨σ, rfl, hp⟩ := (hrun.contents i p).mp hm
        exact ⟨σ, hrun.members σ (by rw [hp]; exact Option.some_ne_none p), rfl⟩
      · rintro ⟨σ, hσ, rfl⟩
        obtain ⟨p, hp, _⟩ := hrun.writers σ hσ
        exact ⟨(σ, p), (hrun.contents σ p).mpr ⟨σ, rfl, hp⟩, rfl⟩
  have hlast := wl.trailOf_latest k s.epoch
  obtain ⟨q, hm, hq⟩ := hrun.master
  refine ⟨hrun.epoch, ?_, ?_, ?_, fun i hr => ⟨fun k' hk' => hi.distinct k' k i hk' hr,
    fun t ht => region_kept_forever h hr ht⟩⟩
  · cases hr : (s.rows k).value.rowRegion with
    | none =>
      have hcon : contents (s.rows k) (s.own k) = (s.rows k).value.globalArray.idsSlots := by
        rw [contents, hrun.kept.installed hr, RowRegion.entries_fresh, List.append_nil]
      refine Or.inl ⟨_, rfl, ?_, hcon ▸ hids, ?_⟩
      · have hr' : (s.memory k).value.rowRegion = none := hr
        simp [Memory.hasDirtyRegion, hr']
      · intro σ p hm
        rw [← hcon] at hm
        obtain ⟨σ', he, hp⟩ := (hrun.contents σ p).mp hm
        rw [Nat.cast_inj.mp he]
        exact hp
    | some i =>
      have hempty := hrun.kept.shape (by simp [hr])
      have hcon : contents (s.rows k) (s.own k) = (s.own k).entries := by
        rw [contents, hempty, List.nil_append]
      have hown : s.own k = s.controller.regions i := Memory.own_of_some hr
      have hwf := hrun.populated.wellFormed
      rw [hown] at hcon hwf
      refine Or.inr ⟨i, _, rfl, rfl, ?_, ?_, ?_⟩
      · simp [GlobalVersionArray.isDirty, hempty]
      · rw [← RowRegion.entries_fst hwf, ← hids, hown, hcon]
      · intro σ hσ
        obtain ⟨p, hp, _⟩ := hrun.writers σ hσ
        have hm := (hrun.contents σ p).mpr ⟨σ, rfl, hp⟩
        rw [hown, hcon] at hm
        obtain ⟨c, tx, _, ha, he⟩ := RowRegion.mem_entries.mp hm
        have htx := lt_of_getMsbD (getMsbD_of_mem_aligned ha)
        have hcore : getCoreSerial σ = c := by
          unfold getCoreSerial
          omega
        have htxs : getTxSerial σ = tx := by
          unfold getTxSerial
          omega
        rw [hp, hcore, htxs]
        exact ⟨Option.some_ne_none p, RowRegion.get_eq ha⟩
  · intro e σ hl
    refine ⟨q, hm, ?_⟩
    cases ht : (wl.trailOf k s.epoch).latest with
    | none =>
      rw [ht] at hlast
      have hmem := hl.1
      rw [hlast] at hmem
      exact hmem.elim
    | some st =>
      rw [ht] at hlast hq
      rw [← hl.unique hlast] at hq
      exact hq.1
  · intro hempty
    rw [hm]
    cases ht : (wl.trailOf k s.epoch).latest with
    | none =>
      rw [ht] at hq
      rw [hq.1]
    | some st =>
      rw [ht] at hlast
      have hmem := hlast.1
      rw [hempty] at hmem
      exact hmem.elim

end NoLoss

/-- The end of a phase in which one worker has moved the other's version to a region. -/
theorem installing_complete : ∃ s : State Unit, Reachable writeAcross 1 s ∧
    (s.rows ()).value.rowRegion = some 0 ∧ (s.controller.regions 0).serialIds = [0, 1, 64] ∧
      Initialized writeAcross 1 s () := by
  have hstart : Reachable writeAcross 1 (initial writeAcross) := .start rfl
  have hrun : ((system writeAcross 1).run installing (initial writeAcross)).map
      (fun s => (s.phase, s.epoch, s.finished, (s.rows ()).value.rowRegion,
        (s.controller.regions 0).serialIds)) =
          some (.initialization, 1, true, some 0, [0, 1, 64]) := by decide +kernel
  obtain ⟨s, hs, hx⟩ := hstart.of_run_map hrun
  simp only [Prod.mk.injEq, State.finished_iff] at hx
  obtain ⟨hphase, hepoch, hall, hregion, hids⟩ := hx
  refine ⟨s, hs, hregion, hids, initialization_complete hs hphase hall ?_⟩
  rw [hepoch]
  have hwriters : writeAcross.writers () 1 = [0, 1, 64] := by decide +kernel
  rw [hwriters]
  exact List.cons_ne_nil 0 [1, 64]

end Mvdcc.Serval
