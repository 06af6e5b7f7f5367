import Mvdcc.Cheetah.WritePhase

namespace Mvdcc.Cheetah
open Library Bitmap

section ReadPhase
variable {W R : List Nat} {e s position : Nat} {row row' : Row} {latest : Option Stamp}
variable {pcs : Nat → Pc} {pc : Pc} {w : Nat} {v : Ptr}

theorem setPending_self (row : Row) (e s : Nat) (p : Option Ptr) :
    (row.setPending e s p).pending e s = p := by
  simp [Row.setPending]

theorem setPending_other (row : Row) {e s s' : Nat} (p : Option Ptr) (h : s' ≠ s) :
    (row.setPending e s p).pending e s' = row.pending e s' := by
  simp [Row.setPending, h]

theorem Resting.resolving (h : Resting row latest) (hm : row.wBitmap.Marked W)
    (hp : ∀ s ∈ R, pcs s = .start) : Resolving W R e row latest pcs := by
  have hb : tally Pc.begun R pcs = 0 := by
    rw [tally_eq_zero]
    intro s hs
    rw [hp s hs]
    rfl
  have ha : tally Pc.adding R pcs = 0 := by
    rw [tally_eq_zero]
    intro s hs
    rw [hp s hs]
    rfl
  refine ⟨h.kept, hm, h.previous, h.master, ?_, ?_, ?_⟩
  · rw [hb, ha, h.refCnt]
    simp [Counted]
  · intro w v hf
    rw [h.placeholders] at hf
    cases hf
  · intro s hs
    rw [hp s hs]
    trivial

theorem ResolverOk.mono (h : ResolverOk W e row s pc)
    (hm : row'.wBitmap.master = row.wBitmap.master) (hp : row'.pending e s = row.pending e s)
    (hg : ∀ w v, row.wBitmap.placeholders.find w = some v →
      row'.wBitmap.placeholders.find w = some v) : ResolverOk W e row' s pc := by
  cases pc <;> try exact h
  case unlockPlaceholder v =>
    obtain ⟨w, hw, hf⟩ := h
    exact ⟨w, hw, hg w v hf⟩
  case done =>
    unfold ResolverOk at h ⊢
    rw [hm, hp]
    cases hw : greatestBelow s W with
    | none =>
      rw [hw] at h
      exact h
    | some w =>
      rw [hw] at h
      obtain ⟨v, hv, hf⟩ := h
      exact ⟨v, hv, hg w v hf⟩

/-- The reader behind a placeholder is another one than a reader that has not got there. -/
theorem PlaceholderOk.move (h : PlaceholderOk W R e row pcs w v)
    (hv : row'.heap.version v = row.heap.version v)
    (hp : ∀ s', s' ≠ s → row'.pending e s' = row.pending e s')
    (hu : ∀ v, pcs s ≠ .unlockPlaceholder v) (hd : pcs s ≠ .done) :
    PlaceholderOk W R e row' (Function.update pcs s pc) w v := by
  obtain ⟨hver, s', hs', hw, hat⟩ := h
  have hne : s' ≠ s := by
    rintro rfl
    rcases hat with hat | ⟨hat, _⟩
    · exact hu v hat
    · exact hd hat
  refine ⟨hv.trans hver, s', hs', hw, ?_⟩
  rw [Function.update_of_ne hne, hp s' hne]
  exact hat

namespace Resolving

/-- A step of a reader that leaves the placeholders alone. -/
theorem move (h : Resolving W R e row latest pcs) {n : Int} {l : RWLock}
    (hu : ∀ v, pcs s ≠ .unlockPlaceholder v) (hd : pcs s ≠ .done)
    (hh : row'.heap = row.heap)
    (hb : row'.wBitmap = { row.wBitmap with refCnt := n, lock := l })
    (hp : ∀ s', s' ≠ s → row'.pending e s' = row.pending e s')
    (hc : Counted n (tally Pc.begun R (Function.update pcs s pc))
      (tally Pc.adding R (Function.update pcs s pc)))
    (hok : ResolverOk W e row' s pc) :
    Resolving W R e row' latest (Function.update pcs s pc) := by
  obtain ⟨b', heap', pending'⟩ := row'
  subst hh
  subst hb
  refine ⟨h.kept.of_eq rfl rfl, h.marked.of_eq rfl rfl, h.previous, h.master, hc, ?_, ?_⟩
  · intro w v hf
    exact (h.placeholders w v hf).move rfl hp hu hd
  · intro s' hs'
    by_cases he : s' = s
    · subst he
      rw [Function.update_self]
      exact hok
    · rw [Function.update_of_ne he]
      exact (h.readers s' hs').mono rfl (hp s' he) (fun _ _ hf => hf)

/-- A reader that has begun and is not adding counts as before. -/
theorem counted_move (h : Resolving W R e row latest pcs) (hR : R.Nodup) (hs : s ∈ R)
    (hb : (pcs s).begun = true) (ha : (pcs s).adding = false) (hb' : pc.begun = true)
    (ha' : pc.adding = false) :
    Counted row.wBitmap.refCnt (tally Pc.begun R (Function.update pcs s pc))
      (tally Pc.adding R (Function.update pcs s pc)) := by
  have h1 := tally_update hR hs Pc.begun pcs pc
  have h2 := tally_update hR hs Pc.adding pcs pc
  rw [hb, hb'] at h1
  rw [ha, ha'] at h2
  have hc := h.counted
  rw [Nat.add_right_cancel h1, Nat.add_right_cancel h2]
  exact hc

theorem start_step (h : Resolving W R e row latest pcs) (hR : R.Nodup) (hs : s ∈ R)
    (hpc : pcs s = .start) :
    Resolving W R e (row.addRefCnt 1) latest
      (Function.update pcs s (if row.wBitmap.refCnt = 0 then .addOne else .identify)) := by
  refine h.move (by simp [hpc]) (by simp [hpc]) rfl rfl (fun _ _ => rfl) ?_
    (by split <;> trivial)
  obtain ⟨hle, hc⟩ := h.counted
  split
  · rename_i hz
    have h1 := tally_update hR hs Pc.begun pcs .addOne
    have h2 := tally_update hR hs Pc.adding pcs .addOne
    simp only [hpc, Pc.begun, Pc.adding, Bool.toNat_false, Bool.toNat_true] at h1 h2
    unfold Counted
    rw [hz] at hc ⊢
    split at hc <;> split <;> omega
  · rename_i hz
    have h1 := tally_update hR hs Pc.begun pcs .identify
    have h2 := tally_update hR hs Pc.adding pcs .identify
    simp only [hpc, Pc.begun, Pc.adding, Bool.toNat_false, Bool.toNat_true] at h1 h2
    unfold Counted
    split at hc <;> split <;> omega

theorem addOne_step (h : Resolving W R e row latest pcs) (hR : R.Nodup) (hs : s ∈ R)
    (hpc : pcs s = .addOne) :
    Resolving W R e (row.addRefCnt 1) latest (Function.update pcs s .identify) := by
  refine h.move (by simp [hpc]) (by simp [hpc]) rfl rfl (fun _ _ => rfl) ?_ trivial
  obtain ⟨hle, hc⟩ := h.counted
  have h1 := tally_update hR hs Pc.begun pcs .identify
  have h2 := tally_update hR hs Pc.adding pcs .identify
  simp only [hpc, Pc.begun, Pc.adding, Bool.toNat_false, Bool.toNat_true] at h1 h2
  unfold Counted
  split at hc <;> split <;> omega

/-- No writer below the reader: it resolves to the master version. -/
theorem master_step (h : Resolving W R e row latest pcs) (hR : R.Nodup) (hs : s ∈ R)
    (hpc : pcs s = .identify) (hn : greatestBelow s W = none) :
    Resolving W R e (row.setPending e s row.wBitmap.master) latest
      (Function.update pcs s .done) := by
  refine h.move (by simp [hpc]) (by simp [hpc]) rfl rfl
    (fun s' hne => setPending_other row _ hne) ?_ ?_
  · exact h.counted_move hR hs (by rw [hpc]; rfl) (by rw [hpc]; rfl) rfl rfl
  · unfold ResolverOk
    rw [hn]
    exact setPending_self row e s _

theorem identify_step (h : Resolving W R e row latest pcs) (hW : W.Pairwise (· < ·))
    (hR : R.Nodup) (hs : s ∈ R) (hpc : pcs s = .identify)
    (hstep : readPhaseStep position e (getCoreSerial s) s .identify row = some (pc, row')) :
    Resolving W R e row' latest (Function.update pcs s pc) := by
  unfold readPhaseStep at hstep
  simp only at hstep
  split at hstep
  · rw [h.marked.identify_eq hW] at hstep
    cases hg : greatestBelow s W with
    | none =>
      simp only [hg, Option.map_none, Option.some.injEq, Prod.mk.injEq] at hstep
      obtain ⟨rfl, rfl⟩ := hstep
      exact h.master_step hR hs hpc hg
    | some w =>
      simp only [hg, Option.map_some, getSerialId_split, Option.some.injEq, Prod.mk.injEq] at hstep
      obtain ⟨rfl, rfl⟩ := hstep
      refine h.move (by simp [hpc]) (by simp [hpc]) rfl rfl (fun _ _ => rfl) ?_ hg
      exact h.counted_move hR hs (by rw [hpc]; rfl) (by rw [hpc]; rfl) rfl rfl
  · rename_i hz
    rw [not_not, h.marked.coreBitmap_eq_zero] at hz
    simp only [Option.some.injEq, Prod.mk.injEq] at hstep
    obtain ⟨rfl, rfl⟩ := hstep
    exact h.master_step hR hs hpc (by simp [hz, greatestBelow])

/-- A placeholder is found, or created and put under the writer's id. -/
theorem placeholder_step (h : Resolving W R e row latest pcs) (hR : R.Nodup) (hs : s ∈ R)
    (hpc : pcs s = .placeholder w) (position : Nat) :
    Resolving W R e (row.placeholder position w).2 latest
      (Function.update pcs s (.unlockPlaceholder (row.placeholder position w).1)) := by
  have hw := h.readers s hs
  rw [hpc] at hw
  have hcount : ∀ v, Counted row.wBitmap.refCnt
      (tally Pc.begun R (Function.update pcs s (.unlockPlaceholder v)))
      (tally Pc.adding R (Function.update pcs s (.unlockPlaceholder v))) := fun v =>
    h.counted_move hR hs (by rw [hpc]; rfl) (by rw [hpc]; rfl) rfl rfl
  cases hf : row.wBitmap.placeholders.find w with
  | some v =>
    simp only [Row.placeholder, hf]
    exact h.move (by simp [hpc]) (by simp [hpc]) rfl rfl (fun _ _ => rfl) (hcount v) ⟨w, hw, hf⟩
  | none =>
    simp only [Row.placeholder, hf, Heap.createPendingVersion_fst]
    have hperm := UnorderedMap.emplace_perm (v := row.heap.next) hf position
    have hfind : ∀ w', (row.wBitmap.placeholders.emplace position w row.heap.next).find w' =
        if w' = w then some row.heap.next else row.wBitmap.placeholders.find w' := by
      intro w'
      rw [UnorderedMap.find_emplace, hf]
      rfl
    have hlive : ∀ w' v', row.wBitmap.placeholders.find w' = some v' → v' < row.heap.next :=
      fun w' v' hv' => h.kept.lt_next (mem_live.mpr (Or.inr (Or.inr ⟨w', hv'⟩)))
    refine ⟨⟨?_, h.kept.clean⟩, h.marked.of_eq rfl rfl, h.previous, ?_, hcount _, ?_, ?_⟩
    · -- the new version is the only one that is new to the row
      have hvalues : ((row.wBitmap.placeholders.emplace position w row.heap.next).values :
          Multiset Ptr) = row.heap.next ::ₘ (row.wBitmap.placeholders.values : Multiset Ptr) := by
        rw [Multiset.cons_coe, Multiset.coe_eq_coe]
        exact hperm.map Prod.snd
      have hplaces := h.kept.places
      unfold live at hplaces ⊢
      simp only [hvalues, Heap.createPendingVersion_next, Heap.createPendingVersion_freed,
        Multiset.range_succ, ← hplaces, ← Multiset.singleton_add]
      abel
    · obtain ⟨m, hm, hver⟩ := h.master
      refine ⟨m, hm, ?_⟩
      simp only
      rw [Heap.createPendingVersion_old (h.kept.lt_next (mem_live.mpr (Or.inl hm))), hver]
    · intro w' v' hv'
      change (row.wBitmap.placeholders.emplace position w row.heap.next).find w' = some v' at hv'
      rw [hfind] at hv'
      split at hv'
      · rename_i he
        rw [he, ← Option.some.inj hv']
        refine ⟨?_, s, hs, hw, Or.inl (Function.update_self _ _ _)⟩
        simp [Heap.createPendingVersion_version]
      · apply (h.placeholders w' v' hv').move
        · exact Heap.createPendingVersion_old (hlive w' v' hv')
        · exact fun _ _ => rfl
        · simp [hpc]
        · simp [hpc]
    · intro s' hs'
      by_cases he : s' = s
      · subst he
        rw [Function.update_self]
        exact ⟨w, hw, by rw [hfind, if_pos rfl]⟩
      · rw [Function.update_of_ne he]
        refine (h.readers s' hs').mono ?_ ?_ ?_
        · rfl
        · rfl
        · intro w' v' hv'
          have hne : w' ≠ w := by
            rintro rfl
            rw [hf] at hv'
            cases hv'
          rw [hfind, if_neg hne]
          exact hv'

theorem unlock_step (h : Resolving W R e row latest pcs) (hR : R.Nodup) (hs : s ∈ R)
    (hpc : pcs s = .unlockPlaceholder v) :
    Resolving W R e (row.unlock.setPending e s (some v)) latest
      (Function.update pcs s .done) := by
  have hcount : Counted row.wBitmap.refCnt (tally Pc.begun R (Function.update pcs s .done))
      (tally Pc.adding R (Function.update pcs s .done)) :=
    h.counted_move hR hs (by rw [hpc]; rfl) (by rw [hpc]; rfl) rfl rfl
  have hself : (row.unlock.setPending e s (some v)).pending e s = some v := setPending_self _ _ _ _
  have hother : ∀ s', s' ≠ s → (row.unlock.setPending e s (some v)).pending e s' =
      row.pending e s' := fun s' hne => setPending_other _ _ hne
  have hw := h.readers s hs
  rw [hpc] at hw
  refine ⟨h.kept.of_eq rfl rfl, h.marked.of_eq rfl rfl, h.previous, h.master, hcount, ?_, ?_⟩
  · intro w' v' hv'
    obtain ⟨hver, s', hs', hg, hat⟩ := h.placeholders w' v' hv'
    refine ⟨hver, s', hs', hg, ?_⟩
    by_cases he : s' = s
    · subst he
      rw [hpc] at hat
      rcases hat with hat | ⟨hat, _⟩
      · rw [Pc.unlockPlaceholder.injEq] at hat
        exact Or.inr ⟨Function.update_self _ _ _, hat ▸ hself⟩
      · cases hat
    · rw [Function.update_of_ne he, hother s' he]
      exact hat
  · intro s' hs'
    by_cases he : s' = s
    · subst he
      rw [Function.update_self]
      obtain ⟨w, hg, hf⟩ := hw
      unfold ResolverOk
      rw [hg]
      exact ⟨v, hself, hf⟩
    · rw [Function.update_of_ne he]
      exact (h.readers s' hs').mono rfl (hother s' he) (fun _ _ hf => hf)

/-- Every step of the read phase. -/
theorem step (h : Resolving W R e row latest pcs) (hW : W.Pairwise (· < ·)) (hR : R.Nodup)
    (hs : s ∈ R)
    (hstep : readPhaseStep position e (getCoreSerial s) s (pcs s) row = some (pc, row')) :
    Resolving W R e row' latest (Function.update pcs s pc) := by
  cases hpc : pcs s <;> rw [hpc] at hstep
  case start =>
    simp only [readPhaseStep, Option.some.injEq, Prod.mk.injEq] at hstep
    obtain ⟨rfl, rfl⟩ := hstep
    exact h.start_step hR hs hpc
  case addOne =>
    simp only [readPhaseStep, Option.some.injEq, Prod.mk.injEq] at hstep
    obtain ⟨rfl, rfl⟩ := hstep
    exact h.addOne_step hR hs hpc
  case identify => exact h.identify_step hW hR hs hpc hstep
  case lockPlaceholder w =>
    have hw := h.readers s hs
    rw [hpc] at hw
    obtain ⟨l, _, rfl, rfl⟩ := Row.lock_step hstep
    refine h.move (by simp [hpc]) (by simp [hpc]) rfl rfl (fun _ _ => rfl) ?_ hw
    exact h.counted_move hR hs (by rw [hpc]; rfl) (by rw [hpc]; rfl) rfl rfl
  case placeholder w =>
    simp only [readPhaseStep, Option.some.injEq, Prod.mk.injEq] at hstep
    obtain ⟨rfl, rfl⟩ := hstep
    exact h.placeholder_step hR hs hpc position
  case unlockPlaceholder v =>
    simp only [readPhaseStep, Option.some.injEq, Prod.mk.injEq] at hstep
    obtain ⟨rfl, rfl⟩ := hstep
    exact h.unlock_step hR hs hpc
  all_goals cases hstep

/-- After the read phase: one reference for each reader, and one more. -/
theorem refCnt_of_done (h : Resolving W R e row latest pcs) (hd : ∀ s, pcs s = .done) :
    row.wBitmap.refCnt = if R = [] then 0 else R.length + 1 := by
  have hb : tally Pc.begun R pcs = R.length := by
    rw [tally_eq_length]
    intro s _
    rw [hd s]
    rfl
  have ha : tally Pc.adding R pcs = 0 := by
    rw [tally_eq_zero]
    intro s _
    rw [hd s]
    rfl
  obtain ⟨_, hc⟩ := h.counted
  rw [hb, ha] at hc
  simp only [List.length_eq_zero_iff] at hc
  split at hc
  · rename_i hn
    rw [hn] at hc
    rw [if_pos hn]
    simpa using hc
  · rename_i hn
    rw [if_neg hn]
    omega

end Resolving
end ReadPhase
end Mvdcc.Cheetah
