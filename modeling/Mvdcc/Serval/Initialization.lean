import Mvdcc.Serval.Append

namespace Mvdcc.Serval
open Library Bitmap

section Initialization
variable {W : List Nat} {e : Nat} {t : Trail} {m m' : Memory}
variable {pcs : Nat → Pc} {s : Nat} {pc' : Pc}

theorem Waiting.move (h : Waiting W e t m.toRow m.own pcs) (l : RWLock) (hpc : pc'.AtGuard) :
    Waiting W e t { m.toRow with value := { m.value with rwl := l } } m.own
      (Function.update pcs s pc') := by
  obtain ⟨k, he, hf, hp, hl, hm⟩ := h.settled
  refine ⟨⟨⟨k.shape, k.installed, k.ascending, k.wellFormed, k.places, k.clean⟩, he, hf, hp, hl, hm⟩,
    ?_, h.future⟩
  intro s' hs'
  by_cases hs : s' = s
  · subst hs
    rw [Function.update_self]
    exact hpc
  · rw [Function.update_of_ne hs]
    exact h.calls s' hs'

theorem Pc.AtGuard.hands {pc : Pc} (h : pc.AtGuard) : pc.hands = 0 := by
  cases pc <;> first | rfl | exact h.elim

theorem Pc.AtGuard.appendOk {pc : Pc} {row : Row} {own : RowRegion} (h : pc.AtGuard)
    (hn : row.pending e s = none) : AppendOk row own e s pc := by
  cases pc <;> first | exact hn | exact h.elim

/-- The first worker through the guard opens the row for the epoch. -/
theorem Waiting.open (h : Waiting W e t m.toRow m.own pcs) (turn : Turn W e t pcs s)
    (hpc : pcs s = .guardLocked) :
    Opened W e t (m.initializeTheRow e).toRow (m.initializeTheRow e).own
      (Function.update pcs s .guardUnlock) ∧ PoolStep m (m.initializeTheRow e) := by
  obtain ⟨q, hq, r⟩ := refresh h.settled
  have hheld : ∑ x ∈ serials, (Function.update pcs s .guardUnlock x).hands = 0 := by
    rw [held_same turn.lt (by rw [hpc]; rfl)]
    apply Finset.sum_eq_zero
    intro x _
    by_cases hx : x ∈ W
    · exact (h.calls x hx).hands
    · rw [turn.outside x hx]
      rfl
  have hpending : (m.initializeTheRow e).pending = m.pending := r.pending
  have hversion : (m.initializeTheRow e).heap.version = m.heap.version := r.version
  have hown : (m.initializeTheRow e).own = m.storeFinalState.own := rfl
  have hnone : ∀ s', (m.initializeTheRow e).pending e s' = none := by
    intro s'
    rw [hpending]
    exact h.future e s' (Nat.le_refl e)
  have hcon : contents (m.initializeTheRow e).toRow (m.initializeTheRow e).own = [] := r.empty
  have hunset : (m.initializeTheRow e).own.coreBitmap = 0 := r.unset
  refine ⟨⟨List.ne_nil_of_mem turn.member, ?_, rfl, ⟨q, r.master, ?_⟩, ?_, ?_, ?_, ?_, ?_, ?_, ?_,
    ?_⟩, ?_, Or.inl ⟨?_, r.used⟩⟩
  · rw [hheld]
    exact ⟨r.kept.shape, r.kept.installed, r.kept.ascending, r.kept.wellFormed, r.kept.places,
      r.kept.clean⟩
  · exact hq.of_same (fun st _ => by rw [hpending]) (by rw [hversion])
  · intro i p
    rw [hcon]
    simp [hnone]
  · intro s' p hp
    simp [hnone] at hp
  · intro s' hp
    exact absurd (hnone s') hp
  · intro s₁ s₂ p hp
    simp [hnone] at hp
  · intro s' hs'
    by_cases he : s' = s
    · subst he
      rw [Function.update_self]
      exact hnone s'
    · rw [Function.update_of_ne he]
      exact (h.calls s' hs').appendOk (hnone s')
  · intro c hc
    simp [hunset] at hc
  · intro c h64 _ p hp
    unfold Heap.Finished
    rw [hversion]
    exact h.settled.finished p (mem_live_of_slots h64 (r.leftovers c p hp))
  · intro e' s' hlt
    rw [hpending]
    exact h.future e' s' (Nat.le_of_lt hlt)
  · intro i hi
    apply r.regions
    intro he
    exact hi (r.rowRegion.trans he)
  · exact r.rowRegion

theorem Waiting.step (h : Waiting W e t m.toRow m.own pcs) (turn : Turn W e t pcs s)
    (hlt : t.epoch < e) (hstep : appendStep n e (s / 64) s (pcs s) m = some (pc', m')) :
    Preparing W e t m'.toRow m'.own (Function.update pcs s pc') ∧ PoolStep m m' := by
  have hg := h.calls s turn.member
  have hepoch : m.value.epoch < e := by
    have he : m.value.epoch = t.epoch := h.settled.epoch
    rw [he]
    exact hlt
  cases hpc : pcs s <;> rw [hpc] at hg <;> try exact hg.elim
  · simp only [hpc, appendStep, hepoch, if_true, Option.some.injEq, Prod.mk.injEq] at hstep
    obtain ⟨rfl, rfl⟩ := hstep
    exact ⟨Or.inl (h.move m.value.rwl trivial), .same rfl rfl⟩
  · cases hl : m.value.rwl.tryLock with
    | some l =>
      simp only [hpc, appendStep, hl, Option.some.injEq, Prod.mk.injEq] at hstep
      obtain ⟨rfl, rfl⟩ := hstep
      exact ⟨Or.inl (h.move l trivial), .same rfl rfl⟩
    | none =>
      simp only [hpc, appendStep, hl, Option.some.injEq, Prod.mk.injEq] at hstep
      obtain ⟨rfl, rfl⟩ := hstep
      exact ⟨Or.inl (h.move m.value.rwl trivial), .same rfl rfl⟩
  · simp only [hpc, appendStep, hepoch, if_true, Option.some.injEq, Prod.mk.injEq] at hstep
    obtain ⟨rfl, rfl⟩ := hstep
    obtain ⟨ho, hpool⟩ := h.open turn hpc
    exact ⟨Or.inr ho, hpool⟩

/-- Taking or missing the lock, seen as a change of the lock word only. -/
theorem Opened.moved (h : Opened W e t m.toRow m.own pcs) (turn : Turn W e t pcs s) (l : RWLock)
    (hm : m' = { m with value := { m.value with rwl := l } }) (hh : (pcs s).hands = 0)
    (hh' : pc'.hands = 0) (hok : AppendOk m.toRow m.own e s pc') :
    Opened W e t m'.toRow m'.own (Function.update pcs s pc') ∧ PoolStep m m' := by
  subst hm
  exact ⟨h.move turn l hh hh' hok, .same rfl rfl⟩

theorem Opened.run (h : Opened W e t m.toRow m.own pcs) (turn : Turn W e t pcs s)
    (hfresh : m.value.rowRegion = none → m.controller.regions m.controller.used = RowRegion.fresh)
    (hstep : appendStep n e (s / 64) s (pcs s) m = some (pc', m')) :
    Opened W e t m'.toRow m'.own (Function.update pcs s pc') ∧ PoolStep m m' := by
  have hok := h.calls s turn.member
  have hepoch : ¬ m.value.epoch < e := by
    have he : m.value.epoch = e := h.epoch
    omega
  cases hpc : pcs s <;> rw [hpc] at hok hstep <;> simp only [AppendOk] at hok
  case start =>
    simp only [appendStep, if_neg hepoch, Option.some.injEq, Prod.mk.injEq] at hstep
    obtain ⟨rfl, rfl⟩ := hstep
    exact h.moved turn m.value.rwl rfl (by rw [hpc]; rfl) rfl hok
  case guardTryLock =>
    cases hl : m.value.rwl.tryLock with
    | some l =>
      simp only [appendStep, hl, Option.some.injEq, Prod.mk.injEq] at hstep
      obtain ⟨rfl, rfl⟩ := hstep
      exact h.moved turn l rfl (by rw [hpc]; rfl) rfl hok
    | none =>
      simp only [appendStep, hl, Option.some.injEq, Prod.mk.injEq] at hstep
      obtain ⟨rfl, rfl⟩ := hstep
      exact h.moved turn m.value.rwl rfl (by rw [hpc]; rfl) rfl hok
  case guardLocked =>
    simp only [appendStep, if_neg hepoch, Option.some.injEq, Prod.mk.injEq] at hstep
    obtain ⟨rfl, rfl⟩ := hstep
    exact h.moved turn m.value.rwl rfl (by rw [hpc]; rfl) rfl hok
  case guardUnlock =>
    simp only [appendStep, Option.some.injEq, Prod.mk.injEq] at hstep
    obtain ⟨rfl, rfl⟩ := hstep
    exact h.moved turn m.value.rwl.unlock rfl (by rw [hpc]; rfl) rfl hok
  case tryLock =>
    cases hl : m.value.rwl.tryLock with
    | some l =>
      simp only [appendStep, hl, Option.some.injEq, Prod.mk.injEq] at hstep
      obtain ⟨rfl, rfl⟩ := hstep
      exact h.moved turn l rfl (by rw [hpc]; rfl) rfl hok
    | none =>
      simp only [appendStep, hl, Option.some.injEq, Prod.mk.injEq] at hstep
      obtain ⟨rfl, rfl⟩ := hstep
      exact h.moved turn m.value.rwl rfl (by rw [hpc]; rfl) rfl hok
  case locked =>
    simp only [appendStep] at hstep
    split at hstep
    · rename_i region hr
      simp only [Option.some.injEq, Prod.mk.injEq] at hstep
      obtain ⟨rfl, rfl⟩ := hstep
      exact append_region h turn hpc hr
    · rename_i hr
      simp only [Option.some.injEq, Prod.mk.injEq] at hstep
      obtain ⟨rfl, rfl⟩ := hstep
      exact append_global h turn hpc hr
  case unlock =>
    simp only [appendStep, Option.some.injEq, Prod.mk.injEq] at hstep
    obtain ⟨rfl, rfl⟩ := hstep
    exact h.moved turn m.value.rwl.unlock rfl (by rw [hpc]; rfl) rfl hok
  case waitRegion =>
    cases hr : m.value.rowRegion with
    | some region =>
      simp only [appendStep, hr, Option.some.injEq, Prod.mk.injEq] at hstep
      obtain ⟨rfl, rfl⟩ := hstep
      exact h.moved turn m.value.rwl rfl (by rw [hpc]; rfl) rfl ⟨hok, hr⟩
    | none =>
      simp only [appendStep, hr, Option.some.injEq, Prod.mk.injEq] at hstep
      obtain ⟨rfl, rfl⟩ := hstep
      exact h.moved turn m.value.rwl rfl (by rw [hpc]; rfl) rfl hok
  case waitTryLock =>
    cases hl : m.value.rwl.tryLock with
    | some l =>
      simp only [appendStep, hl, Option.some.injEq, Prod.mk.injEq] at hstep
      obtain ⟨rfl, rfl⟩ := hstep
      exact h.moved turn l rfl (by rw [hpc]; rfl) rfl hok
    | none =>
      simp only [appendStep, hl, Option.some.injEq, Prod.mk.injEq] at hstep
      obtain ⟨rfl, rfl⟩ := hstep
      exact h.moved turn m.value.rwl rfl (by rw [hpc]; rfl) rfl hok
  case waitLocked =>
    cases hr : m.value.rowRegion with
    | some region =>
      simp only [appendStep, hr, Option.some.injEq, Prod.mk.injEq] at hstep
      obtain ⟨rfl, rfl⟩ := hstep
      exact h.moved turn m.value.rwl rfl (by rw [hpc]; rfl) rfl ⟨hok, hr⟩
    | none =>
      simp only [appendStep, hr, RowRegionController.fetchNewRegion] at hstep
      split at hstep
      · cases hstep
      · rename_i heq
        split at heq
        · cases heq
        · simp only [Option.some.injEq, Prod.mk.injEq] at heq
          obtain ⟨rfl, rfl⟩ := heq
          simp only [Option.some.injEq, Prod.mk.injEq] at hstep
          obtain ⟨rfl, rfl⟩ := hstep
          exact install h turn hpc hr (hfresh hr)
  case waitUnlock region =>
    simp only [appendStep, Option.some.injEq, Prod.mk.injEq] at hstep
    obtain ⟨rfl, rfl⟩ := hstep
    exact h.moved turn m.value.rwl.unlock rfl (by rw [hpc]; rfl) rfl hok
  case contended region =>
    simp only [appendStep, Option.some.injEq, Prod.mk.injEq] at hstep
    obtain ⟨rfl, rfl⟩ := hstep
    exact create_contended h turn hpc rfl
  case firstWrite region v =>
    simp only [appendStep, Option.some.injEq, Prod.mk.injEq] at hstep
    obtain ⟨rfl, rfl⟩ := hstep
    exact first_write h turn hpc
  case appendSlot region v =>
    simp only [appendStep, Option.some.injEq, Prod.mk.injEq] at hstep
    obtain ⟨rfl, rfl⟩ := hstep
    exact append_slot h turn hpc
  case done => simp [appendStep] at hstep

/-- Every step of every append keeps its row prepared. -/
theorem Preparing.step (h : Preparing W e t m.toRow m.own pcs) (turn : Turn W e t pcs s)
    (hlt : t.epoch < e)
    (hfresh : m.value.rowRegion = none → m.controller.regions m.controller.used = RowRegion.fresh)
    (hstep : appendStep n e (s / 64) s (pcs s) m = some (pc', m')) :
    Preparing W e t m'.toRow m'.own (Function.update pcs s pc') ∧ PoolStep m m' := by
  rcases h with h | h
  · exact h.step turn hlt hstep
  · obtain ⟨ho, hp⟩ := h.run turn hfresh hstep
    exact ⟨Or.inr ho, hp⟩

end Initialization
end Mvdcc.Serval
