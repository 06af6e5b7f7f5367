import Mvdcc.Cheetah.ReadPhase

namespace Mvdcc.Cheetah
open Library Bitmap

section Execution
variable {W R : List Nat} {e s w : Nat} {row row' : Row} {latest : Option Stamp} {m : Ptr}
variable {wp wp' rp : Nat → Pc} {pc : Pc} {v p : Ptr}

theorem Resolved.mem (hW : W.Pairwise (· < ·)) (h : Resolved W R e row w v) : w ∈ W := by
  obtain ⟨s, _, hg, _⟩ := h
  exact ((greatestBelow_eq_some hW).mp hg).1

theorem Assigned.of_eq (h : Assigned W R e row latest m) (hp : row'.pending = row.pending)
    (hn : row.heap.next ≤ row'.heap.next) (hv : row'.heap.version m = row.heap.version m) :
    Assigned W R e row' latest m := by
  obtain ⟨b', heap', pending'⟩ := row'
  simp only at hp hn hv
  subst hp
  refine ⟨h.targets, h.injective, h.functional, ?_, Nat.lt_of_lt_of_le h.old.1 hn,
    hv.trans h.old.2⟩
  intro w v hr
  exact ⟨Nat.lt_of_lt_of_le (h.apart w v hr).1 hn, (h.apart w v hr).2⟩

/-- A read below every writer refers to the version of before the epoch. -/
theorem Assigned.pending_old (h : Assigned W R e row latest m) (hs : s ∈ R)
    (hg : greatestBelow s W = none) : row.pending e s = some m := by
  have ht := h.targets s hs
  rw [hg] at ht
  exact ht

/-- Every read of the row has a version, created before the phase. -/
theorem Assigned.pending_lt (h : Assigned W R e row latest m) (hs : s ∈ R)
    (hp : row.pending e s = some v) : v < row.heap.next := by
  cases hg : greatestBelow s W with
  | none =>
    have ht := h.pending_old hs hg
    rw [hp, Option.some.injEq] at ht
    rw [ht]
    exact h.old.1
  | some w => exact (h.apart w v ⟨s, hs, hg, hp⟩).1

theorem Assigned.exists_pending (h : Assigned W R e row latest m) (hs : s ∈ R) :
    ∃ v, row.pending e s = some v := by
  cases hg : greatestBelow s W with
  | none => exact ⟨m, h.pending_old hs hg⟩
  | some w =>
    have ht := h.targets s hs
    rw [hg] at ht
    exact ht

theorem ReaderOk.mono (h : ReaderOk e row s pc) (hp : row'.pending = row.pending)
    (hv : ∀ v, row.pending e s = some v → (row.heap.version v).status = .stable →
      row'.heap.version v = row.heap.version v) : ReaderOk e row' s pc := by
  cases pc <;> simp only [ReaderOk, hp] at h ⊢
  case fetch v => exact ⟨h.1, by rw [hv v h.1 h.2]; exact h.2⟩
  all_goals
    obtain ⟨v, hpend, hst⟩ := h
    refine ⟨v, hpend, ?_⟩
  case done =>
    rw [hv v hpend hst]
    exact hst
  all_goals
    rw [hv v hpend hst.1]
    exact hst

theorem WriterOk.mono (h : WriterOk W R e row wp w pc)
    (ho : ∀ p, Owns W R e row' wp' w p ↔ Owns W R e row wp w p)
    (hv : ∀ p, Owns W R e row wp w p → row'.heap.version p = row.heap.version p) :
    WriterOk W R e row' wp' w pc := by
  have hcase : ∀ x, (∀ p, Owns W R e row wp w p → row.heap.version p = x) →
      ∀ p, Owns W R e row' wp' w p → row'.heap.version p = x := by
    intro x hx p hp
    have hp' := (ho p).mp hp
    rw [hv p hp']
    exact hx p hp'
  have hone : ∀ x p, Owns W R e row wp w p ∧ row.heap.version p = x →
      Owns W R e row' wp' w p ∧ row'.heap.version p = x := by
    intro x p hp
    exact ⟨(ho p).mpr hp.1, (hv p hp.1).trans hp.2⟩
  cases pc <;> try exact h
  case start => exact hcase _ h
  case identifyWrite => exact hcase _ h
  case unlockWrite version =>
    cases version with
    | none => exact fun p hp => h p ((ho p).mp hp)
    | some p => exact hone _ p h
  case storeRec p => exact hone _ p h
  case storeStable p => exact hone _ p h
  case done => exact hcase _ h

theorem finalized_eq (hl : W.getLast? = some w) : finalized W wp = (wp w).written := by
  simp [finalized, hl]

theorem finalized_update (h : (wp w).written = pc.written) :
    finalized W (Function.update wp w pc) = finalized W wp := by
  unfold finalized
  cases W.getLast? with
  | none => rfl
  | some f =>
    simp only
    by_cases he : f = w
    · rw [he, Function.update_self, h]
    · rw [Function.update_of_ne he]

theorem finalized_update_other (h : W.getLast? ≠ some w) :
    finalized W (Function.update wp w pc) = finalized W wp := by
  unfold finalized
  cases hl : W.getLast? with
  | none => rfl
  | some f =>
    have hne : f ≠ w := by
      rintro rfl
      exact h hl
    simp only
    rw [Function.update_of_ne hne]

theorem Held.refCnt_eq_zero {n : Int} {a c : Nat} (h : Held n a c) : n = 0 ↔ a = 0 ∧ c = 0 := by
  unfold Held at h
  omega

/-- The placeholders that the read phase leaves are what its readers have resolved to. -/
theorem Resolving.find_iff_of_done {pcs : Nat → Pc} (h : Resolving W R e row latest pcs)
    (hd : ∀ s, pcs s = .done) :
    row.wBitmap.placeholders.find w = some v ↔ Resolved W R e row w v := by
  constructor
  · intro hf
    obtain ⟨_, s, hs, hg, hat | ⟨_, hp⟩⟩ := h.placeholders w v hf
    · rw [hd s] at hat
      cases hat
    · exact ⟨s, hs, hg, hp⟩
  · intro ⟨s, hs, hg, hp⟩
    have hok := h.readers s hs
    rw [hd s] at hok
    unfold ResolverOk at hok
    rw [hg] at hok
    obtain ⟨v', hp', hf⟩ := hok
    rw [hp, Option.some.injEq] at hp'
    exact hp' ▸ hf

/-- The first step into the execution phase. -/
theorem Resolving.executing {pcs : Nat → Pc} (h : Resolving W R e row latest pcs)
    (hd : ∀ s, pcs s = .done) (hw : ∀ w ∈ W, wp w = .start) (hr : ∀ s ∈ R, rp s = .start) :
    ∃ m, Executing W R e row latest m wp rp := by
  have hnf : finalized W wp = false := by
    cases hl : W.getLast? with
    | none => simp [finalized, hl]
    | some f =>
      rw [finalized_eq hl, hw f (List.mem_of_getLast? hl)]
      rfl
  have hfind : ∀ w v, Resolved W R e row w v ↔ row.wBitmap.placeholders.find w = some v :=
    fun _ _ => (h.find_iff_of_done hd).symm
  obtain ⟨m, hm, hver⟩ := h.master
  have hnd := (Multiset.nodup_add.mp h.kept.nodup).2.1
  have hdisj := (Multiset.nodup_add.mp hnd).2.2
  have hvals : row.wBitmap.placeholders.values.Nodup :=
    Multiset.coe_nodup.mp (Multiset.nodup_add.mp hnd).2.1
  have href := h.refCnt_of_done hd
  have hreading : tally Pc.reading R rp = R.length := by
    rw [tally_eq_length]
    intro s hs
    rw [hr s hs]
    rfl
  have hclosing : tally Pc.closing R rp = 0 := by
    rw [tally_eq_zero]
    intro s hs
    rw [hr s hs]
    rfl
  refine ⟨m, h.kept, ⟨?_, ?_, ?_, ?_, ?_, hver⟩, ?_, ?_, ?_, ?_, ?_, ?_⟩
  · intro s hs
    have hok := h.readers s hs
    rw [hd s] at hok
    unfold ResolverOk at hok
    cases hg : greatestBelow s W with
    | none =>
      rw [hg] at hok
      exact hok.trans hm
    | some w =>
      rw [hg] at hok
      obtain ⟨v, hv, _⟩ := hok
      exact ⟨v, hv⟩
  · intro w w' v hv hv'
    exact UnorderedMap.key_unique hvals ((hfind w v).mp hv) ((hfind w' v).mp hv')
  · intro w v v' hv hv'
    have := ((hfind w v).mp hv).symm.trans ((hfind w v').mp hv')
    exact Option.some.inj this
  · intro w v hv
    have hf := (hfind w v).mp hv
    refine ⟨h.kept.lt_next (mem_live.mpr (Or.inr (Or.inr ⟨w, hf⟩))), ?_⟩
    have hv : v ∈ (row.wBitmap.placeholders.values : Multiset Ptr) :=
      Multiset.mem_coe.mpr (UnorderedMap.mem_values.mpr ⟨w, UnorderedMap.find_eq_some.mp hf⟩)
    rintro rfl
    exact Multiset.disjoint_left.mp hdisj (by simp [hm]) hv
  · exact h.kept.lt_next (mem_live.mpr (Or.inl hm))
  · rw [hreading, hclosing, href]
    unfold Held
    split
    · rename_i hn
      rw [hn]
      simp
    · rename_i hn
      have := List.length_pos_of_ne_nil hn
      omega
  · exact fun _ => ⟨h.marked, hm, h.previous⟩
  · intro hf
    rw [hnf] at hf
    cases hf
  · intro w v
    rw [hfind, hnf]
    constructor
    · intro hf
      obtain ⟨_, s, hs, _⟩ := h.placeholders w v hf
      refine ⟨?_, hf, by simp⟩
      rw [href, if_neg (List.ne_nil_of_mem hs)]
      omega
    · exact fun hf => hf.2.1
  · intro w hw'
    rw [hw w hw']
    intro p hp
    rcases hp with hp | ⟨hf, _⟩
    · exact (h.placeholders w p ((hfind w p).mp hp)).1
    · rw [hnf] at hf
      cases hf
  · intro s hs
    rw [hr s hs]
    trivial

namespace Executing

/-- The version of a write is its own. -/
theorem owns_unique (h : Executing W R e row latest m wp rp) {w w' : Nat}
    (hp : Owns W R e row wp w p) (hp' : Owns W R e row wp w' p) : w = w' := by
  have hcross : ∀ {w w'}, Resolved W R e row w p → finalized W wp = true →
      W.getLast? = some w' → row.wBitmap.master = some p → w = w' := by
    intro w w' hr hf hl hm
    obtain ⟨q, hq, _, hres, _⟩ := (h.after hf).master
    rw [hm, Option.some.injEq] at hq
    subst hq
    exact Option.some.inj ((hres w hr).symm.trans hl)
  rcases hp with hr | ⟨hf, hl, hm⟩ <;> rcases hp' with hr' | ⟨hf', hl', hm'⟩
  · exact h.assigned.injective w w' p hr hr'
  · exact hcross hr hf' hl' hm'
  · exact (hcross hr' hf hl hm).symm
  · exact Option.some.inj (hl.symm.trans hl')

/-- A write has one version. -/
theorem owns_functional (h : Executing W R e row latest m wp rp) {q : Ptr}
    (hp : Owns W R e row wp w p) (hq : Owns W R e row wp w q) : p = q := by
  have hcross : ∀ {p q}, Resolved W R e row w p → finalized W wp = true →
      W.getLast? = some w → row.wBitmap.master = some q → p = q := by
    intro p q hr hf hl hm
    obtain ⟨x, hx, _, _, hfun⟩ := (h.after hf).master
    rw [hm, Option.some.injEq] at hx
    rw [hfun w p hl hr, hx]
  rcases hp with hr | ⟨hf, hl, hm⟩ <;> rcases hq with hr' | ⟨hf', hl', hm'⟩
  · exact h.assigned.functional w p q hr hr'
  · exact hcross hr hf' hl' hm'
  · exact (hcross hr' hf hl hm).symm
  · exact Option.some.inj (hm.symm.trans hm')

/-- A version that is found stable has its writer's record. -/
theorem written_of_stable (h : Executing W R e row latest m wp rp) (hw : w ∈ W)
    (ho : Owns W R e row wp w v) (hst : (row.heap.version v).status = .stable) :
    wp w = .done ∧ row.heap.version v = ⟨some (.written e w), .stable⟩ := by
  have hpending : ∀ q r, Owns W R e row wp w q ∧ row.heap.version q = ⟨r, .pending⟩ → False := by
    intro q r ⟨hq, hver⟩
    rw [← h.owns_functional hq ho, hver] at hst
    cases hst
  have hok := h.writers w hw
  cases hpc : wp w <;> rw [hpc] at hok <;> try exact hok.elim
  case start => exact (hpending v _ ⟨ho, hok v ho⟩).elim
  case identifyWrite => exact (hpending v _ ⟨ho, hok v ho⟩).elim
  case unlockWrite version =>
    cases version with
    | none => exact absurd ho (hok v)
    | some q => exact (hpending q _ hok).elim
  case storeRec q => exact (hpending q _ hok).elim
  case storeStable q => exact (hpending q _ hok).elim
  case done => exact ⟨rfl, hok v ho⟩

/-- A read past its loop has a stable version. -/
theorem stable_of_past (h : Executing W R e row latest m wp rp) (hs : s ∈ R)
    (hpast : rp s ≠ .start) (hp : row.pending e s = some v) :
    (row.heap.version v).status = .stable := by
  have hok := h.readers s hs
  have hone : ∀ q, row.pending e s = some q → (row.heap.version q).status = .stable →
      (row.heap.version v).status = .stable := by
    intro q hq hst
    rw [hp, Option.some.injEq] at hq
    rw [hq]
    exact hst
  cases hpc : rp s <;> rw [hpc] at hok <;> try exact hok.elim
  case start => exact absurd hpc hpast
  case fetch q => exact hone q hok.1 hok.2
  case done =>
    obtain ⟨q, hq, hst⟩ := hok
    exact hone q hq hst
  all_goals
    obtain ⟨q, hq, hst, _⟩ := hok
    exact hone q hq hst

/-- Once no read holds a reference, the writers that were read are done. -/
theorem done_of_released (h : Executing W R e row latest m wp rp) (hW : W.Pairwise (· < ·))
    (hz : tally Pc.reading R rp = 0) (hr : Resolved W R e row w v) :
    wp w = .done ∧ row.heap.version v = ⟨some (.written e w), .stable⟩ := by
  have hw := hr.mem hW
  obtain ⟨s, hs, hg, hp⟩ := hr
  have hpast : rp s ≠ .start := by
    intro he
    have := tally_eq_zero.mp hz s hs
    rw [he] at this
    cases this
  exact h.written_of_stable hw (Or.inl ⟨s, hs, hg, hp⟩) (h.stable_of_past hs hpast hp)

/-- A step of a read that leaves the row's versions and places alone. -/
theorem read_move (h : Executing W R e row latest m wp rp) {n : Int} {l : RWLock}
    (hh : row'.heap = row.heap) (hp : row'.pending = row.pending)
    (hb : row'.wBitmap = { row.wBitmap with refCnt := n, lock := l })
    (hz : n = 0 ↔ row.wBitmap.refCnt = 0)
    (hc : Held n (tally Pc.reading R (Function.update rp s pc))
      (tally Pc.closing R (Function.update rp s pc)))
    (hok : ReaderOk e row s pc) : Executing W R e row' latest m wp (Function.update rp s pc) := by
  obtain ⟨b', heap', pending'⟩ := row'
  subst hh hp hb
  refine ⟨h.kept.of_eq rfl rfl, h.assigned.of_eq rfl (Nat.le_refl _) rfl, hc, ?_, ?_, ?_, ?_, ?_⟩
  · intro hf
    exact ⟨(h.before hf).marked.of_eq rfl rfl, (h.before hf).master, (h.before hf).previous⟩
  · intro hf
    have ha := h.after hf
    refine ⟨ha.coreBitmap, ha.txBitmaps, ?_, ha.master⟩
    simp only [hz]
    exact ha.previous
  · intro w v
    simp only [ne_eq, hz]
    exact h.placeholders w v
  · intro w hw
    exact (h.writers w hw).mono (fun _ => Iff.rfl) (fun _ _ => rfl)
  · intro s' hs'
    by_cases he : s' = s
    · subst he
      rw [Function.update_self]
      exact hok.mono rfl (fun _ _ _ => rfl)
    · rw [Function.update_of_ne he]
      exact (h.readers s' hs').mono rfl (fun _ _ _ => rfl)

/-- Steps between two places that count alike keep the count. -/
theorem held_move (h : Executing W R e row latest m wp rp) (hR : R.Nodup) (hs : s ∈ R)
    (hr : (rp s).reading = pc.reading) (hc : (rp s).closing = pc.closing) :
    Held row.wBitmap.refCnt (tally Pc.reading R (Function.update rp s pc))
      (tally Pc.closing R (Function.update rp s pc)) := by
  have h1 := tally_update hR hs Pc.reading rp pc
  have h2 := tally_update hR hs Pc.closing rp pc
  rw [hr] at h1
  rw [hc] at h2
  rw [Nat.add_right_cancel h1, Nat.add_right_cancel h2]
  exact h.held

/-- The decrement: the read that leaves one behind must close. -/
theorem decrement_step (h : Executing W R e row latest m wp rp) (hR : R.Nodup) (hs : s ∈ R)
    {r : Option Rec} (hpc : rp s = .decrement r) :
    Executing W R e (row.addRefCnt (-1)) latest m wp (Function.update rp s
      (if (row.addRefCnt (-1)).wBitmap.refCnt = 1 then .lastLock r else .returning r)) := by
  have hok := h.readers s hs
  rw [hpc] at hok
  have hpos : 0 < tally Pc.reading R rp := tally_pos hs (by rw [hpc]; rfl)
  obtain ⟨hc0, href⟩ : tally Pc.closing R rp = 0 ∧
      row.wBitmap.refCnt = tally Pc.reading R rp + 1 := by
    have hh := h.held
    unfold Held at hh
    omega
  have hnew : (row.addRefCnt (-1)).wBitmap.refCnt = row.wBitmap.refCnt + -1 := rfl
  rw [hnew]
  refine h.read_move rfl rfl rfl (by omega) ?_ (by split <;> exact hok)
  split
  · rename_i h1
    have hr := tally_update hR hs Pc.reading rp (.lastLock r)
    have hc := tally_update hR hs Pc.closing rp (.lastLock r)
    simp only [hpc, Pc.reading, Pc.closing, Bool.toNat_false, Bool.toNat_true] at hr hc
    unfold Held
    omega
  · rename_i h1
    have hr := tally_update hR hs Pc.reading rp (.returning r)
    have hc := tally_update hR hs Pc.closing rp (.returning r)
    simp only [hpc, Pc.reading, Pc.closing, Bool.toNat_false, Bool.toNat_true] at hr hc
    unfold Held
    omega

/-- The final reader's section: nothing it deletes can still be fetched. -/
theorem close_step (h : Executing W R e row latest m wp rp) (hW : W.Pairwise (· < ·))
    (hR : R.Nodup) (hs : s ∈ R) {r : Option Rec} (hpc : rp s = .lastBody r) :
    Executing W R e row.closeReads latest m wp (Function.update rp s (.lastUnlock r)) := by
  have hok := h.readers s hs
  rw [hpc] at hok
  have hpos : 0 < tally Pc.closing R rp := tally_pos hs (by rw [hpc]; rfl)
  obtain ⟨hr0, hc1, href⟩ : tally Pc.reading R rp = 0 ∧ tally Pc.closing R rp = 1 ∧
      row.wBitmap.refCnt = 1 := by
    have hh := h.held
    unfold Held at hh
    omega
  have hprev : ∀ q, row.wBitmap.previousMaster = some q → row.heap.Finished q := by
    intro q hq
    cases hf : finalized W wp with
    | false =>
      rw [(h.before hf).previous] at hq
      cases hq
    | true =>
      rw [(h.after hf).previous, href] at hq
      simp only [one_ne_zero, if_false, Option.some.injEq] at hq
      subst hq
      unfold Heap.Finished
      rw [h.assigned.old.2]
      exact ⟨rfl, Option.some_ne_none _⟩
  have hplace : ∀ q ∈ row.wBitmap.placeholders.values, row.heap.Finished q := by
    intro q hq
    obtain ⟨w, hw⟩ := UnorderedMap.mem_values.mp hq
    have hres := ((h.placeholders w q).mp (UnorderedMap.find_eq_some.mpr hw)).2.1
    unfold Heap.Finished
    rw [(h.done_of_released hW hr0 hres).2]
    exact ⟨rfl, Option.some_ne_none _⟩
  refine ⟨⟨?_, ?_⟩, h.assigned.of_eq rfl ?_ ?_, ?_, ?_, ?_, ?_, ?_, ?_⟩
  · have hplaces := h.kept.places
    unfold live at hplaces ⊢
    simp only [Row.closeReads, Heap.deleteAll_freed, Heap.deleteAll_next, ← hplaces,
      ← Multiset.coe_add, UnorderedMap.values_empty, Option.toList_none, Multiset.coe_nil]
    abel
  · exact (h.kept.clean.deleteAll (by simpa using hprev)).deleteAll
      (by simpa [Heap.Finished] using hplace)
  · simp [Row.closeReads]
  · simp [Row.closeReads]
  · have hr := tally_update hR hs Pc.reading rp (.lastUnlock r)
    have hc := tally_update hR hs Pc.closing rp (.lastUnlock r)
    simp only [hpc, Pc.reading, Pc.closing, Bool.toNat_false, Bool.toNat_true] at hr hc
    unfold Held
    simp only [Row.closeReads, href]
    omega
  · intro hf
    exact ⟨(h.before hf).marked.of_eq rfl rfl, (h.before hf).master, rfl⟩
  · intro hf
    refine ⟨(h.after hf).coreBitmap, (h.after hf).txBitmaps, ?_, (h.after hf).master⟩
    simp [Row.closeReads, href]
  · intro w v
    simp [Row.closeReads, href]
  · intro w hw
    refine (h.writers w hw).mono (fun _ => Iff.rfl) (fun _ _ => ?_)
    simp [Row.closeReads]
  · intro s' hs'
    have hver : row.closeReads.heap.version = row.heap.version := by simp [Row.closeReads]
    by_cases he : s' = s
    · subst he
      rw [Function.update_self]
      have hlast : ReaderOk e row s' (.lastUnlock r) := hok
      exact hlast.mono rfl (fun v _ _ => congrFun hver v)
    · rw [Function.update_of_ne he]
      exact (h.readers s' hs').mono rfl (fun v _ _ => congrFun hver v)

/-- Every step of a read. -/
theorem read_step (h : Executing W R e row latest m wp rp) (hW : W.Pairwise (· < ·))
    (hR : R.Nodup) (hs : s ∈ R) {core : Nat}
    (hstep : executionStep e core s .read (rp s) row = some (pc, row')) :
    Executing W R e row' latest m wp (Function.update rp s pc) := by
  have hok := h.readers s hs
  cases hpc : rp s <;> rw [hpc] at hstep hok <;> try exact hok.elim
  case start =>
    obtain ⟨v, hv⟩ := h.assigned.exists_pending hs
    simp only [executionStep, hv, Option.some.injEq, Prod.mk.injEq] at hstep
    obtain ⟨rfl, rfl⟩ := hstep
    refine h.read_move rfl rfl rfl Iff.rfl (h.held_move hR hs ?_ ?_) ?_
    · rw [hpc]
      split <;> rfl
    · rw [hpc]
      split <;> rfl
    · split
      · trivial
      · rename_i hst
        refine ⟨hv, ?_⟩
        cases hs : (row.heap.version v).status with
        | pending => exact absurd hs hst
        | stable => rfl
  case fetch v =>
    simp only [executionStep, Option.some.injEq, Prod.mk.injEq] at hstep
    obtain ⟨rfl, rfl⟩ := hstep
    exact h.read_move rfl rfl rfl Iff.rfl (h.held_move hR hs (by rw [hpc]; rfl) (by rw [hpc]; rfl))
      ⟨v, hok.1, hok.2, rfl⟩
  case decrement r =>
    simp only [executionStep, Option.some.injEq, Prod.mk.injEq] at hstep
    obtain ⟨rfl, rfl⟩ := hstep
    exact h.decrement_step hR hs hpc
  case lastLock r =>
    obtain ⟨l, _, rfl, rfl⟩ := Row.lock_step hstep
    exact h.read_move rfl rfl rfl Iff.rfl (h.held_move hR hs (by rw [hpc]; rfl) (by rw [hpc]; rfl))
      hok
  case lastBody r =>
    simp only [executionStep, Option.some.injEq, Prod.mk.injEq] at hstep
    obtain ⟨rfl, rfl⟩ := hstep
    exact h.close_step hW hR hs hpc
  case lastUnlock r =>
    simp only [executionStep, Option.some.injEq, Prod.mk.injEq] at hstep
    obtain ⟨rfl, rfl⟩ := hstep
    exact h.read_move rfl rfl rfl Iff.rfl (h.held_move hR hs (by rw [hpc]; rfl) (by rw [hpc]; rfl))
      hok
  case returning r =>
    simp only [executionStep, Option.some.injEq, Prod.mk.injEq] at hstep
    obtain ⟨rfl, rfl⟩ := hstep
    obtain ⟨v, hv, hst, _⟩ := hok
    exact h.read_move rfl rfl rfl Iff.rfl (h.held_move hR hs (by rw [hpc]; rfl) (by rw [hpc]; rfl))
      ⟨v, hv, hst⟩
  case done => cases hstep

end Executing
end Execution
end Mvdcc.Cheetah
