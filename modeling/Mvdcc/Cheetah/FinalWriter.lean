import Mvdcc.Cheetah.Execution

namespace Mvdcc.Cheetah
open Library Bitmap

section FinalWriter
variable {W R : List Nat} {e w : Nat} {row row' : Row} {latest : Option Stamp} {m : Ptr}
variable {wp rp : Nat → Pc} {pc : Pc} {v p : Ptr}

namespace Executing

/-- A step of a write that stays on its side of the locked section and touches
no version but its own pending one. -/
theorem write_move (h : Executing W R e row latest m wp rp) {l : RWLock} (hw : w ∈ W)
    (hwr : (wp w).written = pc.written)
    (hb : row'.wBitmap = { row.wBitmap with lock := l }) (hp : row'.pending = row.pending)
    (hn : row'.heap.next = row.heap.next) (hr : row'.heap.reclaimed = row.heap.reclaimed)
    (hv : ∀ q, row'.heap.version q = row.heap.version q ∨
      (Owns W R e row wp w q ∧ (row.heap.version q).status = .pending))
    (hok : (∀ q, Owns W R e row' (Function.update wp w pc) w q ↔ Owns W R e row wp w q) →
      WriterOk W R e row' (Function.update wp w pc) w pc) :
    Executing W R e row' latest m (Function.update wp w pc) rp := by
  obtain ⟨b', heap', pending'⟩ := row'
  subst hb hp
  have hfin := finalized_update (W := W) hwr
  have howns : ∀ w' q, Owns W R e ⟨{ row.wBitmap with lock := l }, heap', row.pending⟩
      (Function.update wp w pc) w' q ↔ Owns W R e row wp w' q := by
    intro w' q
    unfold Owns
    rw [hfin]
    rfl
  have hfreed : heap'.freed = row.heap.freed := congrArg (List.map Reclaimed.ptr) hr
  have hstable : ∀ q, (row.heap.version q).status = .stable →
      heap'.version q = row.heap.version q := by
    intro q hst
    rcases hv q with he | ⟨_, hpend⟩
    · exact he
    · rw [hst] at hpend
      cases hpend
  refine ⟨⟨?_, ?_⟩, h.assigned.of_eq rfl (Nat.le_of_eq hn.symm) (hstable m ?_), h.held, ?_, ?_, ?_,
    ?_, ?_⟩
  · have hplaces := h.kept.places
    unfold live at hplaces ⊢
    simp only at hn hfreed ⊢
    rw [hn, hfreed]
    exact hplaces
  · intro x hx
    exact h.kept.clean x (hr ▸ hx)
  · rw [h.assigned.old.2]
  · intro hf
    rw [hfin] at hf
    exact ⟨(h.before hf).marked.of_eq rfl rfl, (h.before hf).master, (h.before hf).previous⟩
  · intro hf
    rw [hfin] at hf
    have ha := h.after hf
    exact ⟨ha.coreBitmap, ha.txBitmaps, ha.previous, ha.master⟩
  · intro w' q
    rw [hfin]
    exact h.placeholders w' q
  · intro w' hw'
    by_cases he : w' = w
    · subst he
      rw [Function.update_self]
      exact hok (howns w')
    · rw [Function.update_of_ne he]
      refine (h.writers w' hw').mono (howns w') ?_
      intro q hq
      rcases hv q with hsame | ⟨hown, _⟩
      · exact hsame
      · exact absurd (h.owns_unique hq hown) he
  · intro s hs
    exact (h.readers s hs).mono rfl (fun q _ hst => hstable q hst)

/-- Before its section a writer that has been read finds its placeholder. -/
theorem find_iff (h : Executing W R e row latest m wp rp) (hW : W.Pairwise (· < ·))
    (hpc : (wp w).written = false) :
    row.wBitmap.placeholders.find w = some v ↔ Resolved W R e row w v := by
  rw [h.placeholders]
  constructor
  · exact fun hf => hf.2.1
  · intro hr
    refine ⟨?_, hr, ?_⟩
    · intro hz
      have hz' := (h.held.refCnt_eq_zero.mp hz).1
      rw [(h.done_of_released hW hz' hr).1] at hpc
      cases hpc
    · intro ⟨hf, hl⟩
      rw [finalized_eq hl, hpc] at hf
      cases hf

theorem isFinalState_iff (h : Executing W R e row latest m wp rp) (hW : W.Pairwise (· < ·))
    (hpc : (wp w).written = false) :
    row.wBitmap.isFinalState (getCoreSerial w) (getTxSerial w) = true ↔ W.getLast? = some w := by
  cases hf : finalized W wp with
  | false => exact (h.before hf).marked.isFinalState_iff hW
  | true =>
    have hz := (h.after hf).coreBitmap
    simp only [WriteBitmap.isFinalState, hz, ne_eq, not_true_eq_false, if_false, Bool.false_eq_true,
      false_iff]
    intro hl
    rw [finalized_eq hl, hpc] at hf
    cases hf

/-- A writer that is not the final one only looks its placeholder up. -/
theorem lookup_step (h : Executing W R e row latest m wp rp) (hW : W.Pairwise (· < ·))
    (hw : w ∈ W) (hpc : wp w = .identifyWrite) (hl : W.getLast? ≠ some w) :
    Executing W R e row latest m
      (Function.update wp w (.unlockWrite (row.wBitmap.placeholders.find w))) rp := by
  have hwr : (wp w).written = false := by rw [hpc]; rfl
  have hok := h.writers w hw
  rw [hpc] at hok
  have hfin : finalized W (Function.update wp w
      (.unlockWrite (row.wBitmap.placeholders.find w))) = finalized W wp :=
    finalized_update_other hl
  have howns : ∀ w' q, Owns W R e row (Function.update wp w
      (.unlockWrite (row.wBitmap.placeholders.find w))) w' q ↔ Owns W R e row wp w' q := by
    intro w' q
    unfold Owns
    rw [hfin]
  have hres : ∀ q, Owns W R e row wp w q ↔ Resolved W R e row w q := by
    intro q
    simp [Owns, hl]
  refine ⟨h.kept, h.assigned, h.held, ?_, ?_, ?_, ?_, h.readers⟩
  · rw [hfin]
    exact h.before
  · rw [hfin]
    exact h.after
  · rw [hfin]
    exact h.placeholders
  · intro w' hw'
    by_cases he : w' = w
    · subst he
      rw [Function.update_self]
      cases hf : row.wBitmap.placeholders.find w' with
      | none =>
        intro q hq
        rw [← hf, howns, hres, ← h.find_iff hW hwr, hf] at hq
        cases hq
      | some q =>
        have hq := (hres q).mpr ((h.find_iff hW hwr).mp hf)
        exact ⟨by rw [← hf, howns]; exact hq, hok q hq⟩
    · rw [Function.update_of_ne he]
      exact (h.writers w' hw').mono (howns w') (fun _ _ => rfl)

/-- The row after the final writer's section. -/
def publishFinal (row : Row) (w : Nat) (heap : Heap) (p m : Ptr) : Row :=
  { row with
    heap
    wBitmap := { row.wBitmap with
      coreBitmap := 0
      txBitmaps := []
      placeholders := row.wBitmap.placeholders.erase w
      previousMaster := if row.wBitmap.refCnt = 0 then none else some m
      master := some p } }

theorem publish_step (h : Executing W R e row latest m wp rp) (hpc : wp w = .identifyWrite)
    (hl : W.getLast? = some w) {heap' : Heap}
    (hk : Kept (publishFinal row w heap' p m)) (hn : row.heap.next ≤ heap'.next)
    (hold : ∀ q, q < row.heap.next → heap'.version q = row.heap.version q)
    (hp : heap'.version p = ⟨none, .pending⟩) (hpm : p ≠ m)
    (hpr : ∀ w', Resolved W R e row w' p → w' = w)
    (hfun : ∀ v, Resolved W R e row w v → v = p) :
    Executing W R e (publishFinal row w heap' p m) latest m
      (Function.update wp w (.unlockWrite (some p))) rp := by
  have hnf : finalized W wp = false := by rw [finalized_eq hl, hpc]; rfl
  have hfin : finalized W (Function.update wp w (.unlockWrite (some p))) = true := by
    rw [finalized_eq hl, Function.update_self]
    rfl
  refine ⟨hk, h.assigned.of_eq rfl hn (hold m h.assigned.old.1), h.held, ?_, ?_, ?_, ?_, ?_⟩
  · intro hf
    rw [hfin] at hf
    cases hf
  · intro _
    refine ⟨rfl, rfl, rfl, p, rfl, hpm, ?_, ?_⟩
    · exact fun w' hr => (hpr w' hr) ▸ hl
    · intro w' v hl' hr
      rw [hl, Option.some.injEq] at hl'
      exact hfun v (hl' ▸ hr)
  · intro w' v
    have hfind := row.wBitmap.placeholders.find_erase w w'
    change (row.wBitmap.placeholders.erase w).find w' = some v ↔ _
    rw [hfind, hfin, hl]
    have hp' := h.placeholders w' v
    rw [hnf] at hp'
    simp only [Bool.false_eq_true, false_and, not_false_eq_true, and_true] at hp'
    by_cases he : w' = w
    · simp [he]
    · rw [if_neg he, hp']
      simp only [Option.some.injEq, true_and]
      exact ⟨fun hr => ⟨hr.1, hr.2, fun hww => he hww.symm⟩, fun hr => ⟨hr.1, hr.2.1⟩⟩
  · intro w' hw'
    by_cases he : w' = w
    · subst he
      rw [Function.update_self]
      exact ⟨Or.inr ⟨hfin, hl, rfl⟩, hp⟩
    · rw [Function.update_of_ne he]
      have hres : ∀ q, Owns W R e row wp w' q ↔ Resolved W R e row w' q := by
        intro q
        simp [Owns, hnf]
      refine (h.writers w' hw').mono ?_ ?_
      · intro q
        rw [hres]
        unfold Owns
        rw [hl, Option.some.injEq]
        constructor
        · rintro (hr | ⟨_, hww, _⟩)
          · exact hr
          · exact absurd hww.symm he
        · exact Or.inl
      · intro q hq
        exact hold q (h.assigned.apart w' q ((hres q).mp hq)).1
  · intro s hs
    exact (h.readers s hs).mono rfl
      (fun q hq _ => hold q (h.assigned.pending_lt hs hq))

/-- The final writer's section: its version becomes the master, and the old one
is deleted or stashed for the reads to come. -/
theorem final_step (h : Executing W R e row latest m wp rp) (hW : W.Pairwise (· < ·))
    (hw : w ∈ W) (hpc : wp w = .identifyWrite) (hl : W.getLast? = some w) :
    Executing W R e (row.identifyWriteVersion (getCoreSerial w) (getTxSerial w)).2 latest m
      (Function.update wp w
        (.unlockWrite (row.identifyWriteVersion (getCoreSerial w) (getTxSerial w)).1)) rp := by
  have hwr : (wp w).written = false := by rw [hpc]; rfl
  have hfinal := (h.isFinalState_iff hW hwr).mpr hl
  have hnf : finalized W wp = false := by rw [finalized_eq hl, hwr]
  obtain ⟨hmarked, hmaster, hprev⟩ := h.before hnf
  have hcore : ¬ row.wBitmap.coreBitmap = 0#64 := by
    intro hz
    rw [hmarked.coreBitmap_eq_zero.mp hz] at hl
    cases hl
  have hok := h.writers w hw
  rw [hpc] at hok
  have hplaces := h.kept.places
  unfold live at hplaces
  rw [hmaster, hprev] at hplaces
  have hm := h.assigned.old
  cases hf : row.wBitmap.placeholders.find w with
  | some v =>
    have hr := (h.find_iff hW hwr).mp hf
    have hz : row.wBitmap.refCnt ≠ 0 := ((h.placeholders w v).mp hf).1
    have hresult : row.identifyWriteVersion (getCoreSerial w) (getTxSerial w) =
        (some v, publishFinal row w row.heap v m) := by
      simp [Row.identifyWriteVersion, publishFinal, hfinal, hf, hz, hcore, hmaster,
        WriteBitmap.clearBitmaps]
    rw [hresult]
    refine h.publish_step hpc hl ⟨?_, h.kept.clean⟩ (Nat.le_refl _) (fun _ _ => rfl)
      (hok v (Or.inl hr)) (h.assigned.apart w v hr).2
      (fun w' hr' => h.assigned.injective w' w v hr' hr)
      (fun v' hr' => h.assigned.functional w v' v hr' hr)
    have hvalues : (row.wBitmap.placeholders.values : Multiset Ptr) =
        {v} + ((row.wBitmap.placeholders.erase w).values : Multiset Ptr) := by
      rw [Multiset.singleton_add, Multiset.cons_coe, Multiset.coe_eq_coe]
      exact UnorderedMap.values_erase (UnorderedMap.find_eq_some.mp hf)
    unfold live publishFinal
    simp only [if_neg hz, ← hplaces, hvalues, Option.toList_some, Option.toList_none,
      Multiset.coe_singleton, Multiset.coe_nil]
    abel
  | none =>
    have hnone : ∀ v, ¬ Resolved W R e row w v := by
      intro v hr
      rw [(h.find_iff hW hwr).mpr hr] at hf
      cases hf
    have hvalues := UnorderedMap.erase_of_find_none hf
    have hfresh : ∀ w', ¬ Resolved W R e row w' row.heap.next :=
      fun w' hr => Nat.lt_irrefl _ (h.assigned.apart w' _ hr).1
    by_cases hz : row.wBitmap.refCnt = 0
    · have hresult : row.identifyWriteVersion (getCoreSerial w) (getTxSerial w) =
          (some row.heap.next,
            publishFinal row w (row.heap.createPendingVersion.2.delete m) row.heap.next m) := by
        simp [Row.identifyWriteVersion, publishFinal, hfinal, hf, hz, hcore, hmaster, hprev,
          WriteBitmap.clearBitmaps, Heap.deleteAll]
      rw [hresult]
      refine h.publish_step hpc hl ⟨?_, ?_⟩ ?_ ?_ ?_ (Nat.ne_of_gt hm.1)
        (fun w' hr => absurd hr (hfresh w')) (fun v hr => absurd hr (hnone v))
      · unfold live publishFinal
        simp only [if_pos hz, hvalues, Heap.delete_freed, Heap.delete_next,
          Heap.createPendingVersion_freed, Heap.createPendingVersion_next, Multiset.range_succ,
          ← hplaces, ← Multiset.singleton_add, ← Multiset.coe_add, Option.toList_some,
          Option.toList_none, Multiset.coe_singleton, Multiset.coe_nil]
        abel
      · have hclean : row.heap.createPendingVersion.2.CleanLog := h.kept.clean
        refine hclean.delete ?_
        unfold Heap.Finished
        rw [Heap.createPendingVersion_old hm.1, hm.2]
        exact ⟨rfl, Option.some_ne_none _⟩
      · simp
      · intro q hq
        rw [Heap.delete_version, Heap.createPendingVersion_old hq]
      · simp [Heap.createPendingVersion_version]
    · have hresult : row.identifyWriteVersion (getCoreSerial w) (getTxSerial w) =
          (some row.heap.next,
            publishFinal row w row.heap.createPendingVersion.2 row.heap.next m) := by
        simp [Row.identifyWriteVersion, publishFinal, hfinal, hf, hz, hcore, hmaster,
          WriteBitmap.clearBitmaps]
      rw [hresult]
      refine h.publish_step hpc hl ⟨?_, h.kept.clean⟩ ?_ ?_ ?_ (Nat.ne_of_gt hm.1)
        (fun w' hr => absurd hr (hfresh w')) (fun v hr => absurd hr (hnone v))
      · unfold live publishFinal
        simp only [if_neg hz, hvalues, Heap.createPendingVersion_freed,
          Heap.createPendingVersion_next, Multiset.range_succ, ← hplaces,
          ← Multiset.singleton_add, Option.toList_some, Option.toList_none, Multiset.coe_singleton,
          Multiset.coe_nil]
        abel
      · simp
      · exact fun q hq => Heap.createPendingVersion_old hq
      · simp [Heap.createPendingVersion_version]

/-- Every step of a write. -/
theorem write_step (h : Executing W R e row latest m wp rp) (hW : W.Pairwise (· < ·))
    (hw : w ∈ W)
    (hstep : executionStep e (getCoreSerial w) w .update (wp w) row = some (pc, row')) :
    Executing W R e row' latest m (Function.update wp w pc) rp := by
  have hok := h.writers w hw
  cases hpc : wp w <;> rw [hpc] at hstep hok <;> try exact hok.elim
  case start =>
    obtain ⟨l, _, rfl, rfl⟩ := Row.lock_step hstep
    refine h.write_move hw (by rw [hpc]; rfl) rfl rfl rfl rfl (fun _ => Or.inl rfl) ?_
    intro ho q hq
    exact hok q ((ho q).mp hq)
  case identifyWrite =>
    simp only [executionStep, Option.some.injEq, Prod.mk.injEq] at hstep
    obtain ⟨rfl, rfl⟩ := hstep
    have hwr : (wp w).written = false := by rw [hpc]; rfl
    by_cases hl : W.getLast? = some w
    · exact h.final_step hW hw hpc hl
    · have hnfinal : row.wBitmap.isFinalState (getCoreSerial w) (getTxSerial w) = false := by
        rw [← Bool.not_eq_true, h.isFinalState_iff hW hwr]
        exact hl
      simp only [Row.identifyWriteVersion, hnfinal, getSerialId_split, Bool.false_eq_true, if_false]
      exact h.lookup_step hW hw hpc hl
  case unlockWrite version =>
    cases version with
    | none =>
      simp only [executionStep, Option.some.injEq, Prod.mk.injEq] at hstep
      obtain ⟨rfl, rfl⟩ := hstep
      refine h.write_move hw (by rw [hpc]; rfl) rfl rfl rfl rfl (fun _ => Or.inl rfl) ?_
      intro ho q hq
      exact absurd ((ho q).mp hq) (hok q)
    | some p =>
      simp only [executionStep, Option.some.injEq, Prod.mk.injEq] at hstep
      obtain ⟨rfl, rfl⟩ := hstep
      refine h.write_move hw (by rw [hpc]; rfl) rfl rfl rfl rfl (fun _ => Or.inl rfl) ?_
      intro ho
      exact ⟨(ho p).mpr hok.1, hok.2⟩
  case storeRec p =>
    simp only [executionStep, Option.some.injEq, Prod.mk.injEq] at hstep
    obtain ⟨rfl, rfl⟩ := hstep
    refine h.write_move (l := row.wBitmap.lock) hw (by rw [hpc]; rfl) rfl rfl rfl rfl ?_ ?_
    · intro q
      by_cases he : q = p
      · exact Or.inr ⟨he ▸ hok.1, by rw [he, hok.2]⟩
      · exact Or.inl (by rw [Heap.storeRec_version, if_neg he])
    · intro ho
      refine ⟨(ho p).mpr hok.1, ?_⟩
      rw [Heap.storeRec_version, if_pos rfl, hok.2]
  case storeStable p =>
    simp only [executionStep, Option.some.injEq, Prod.mk.injEq] at hstep
    obtain ⟨rfl, rfl⟩ := hstep
    refine h.write_move (l := row.wBitmap.lock) hw (by rw [hpc]; rfl) rfl rfl rfl rfl ?_ ?_
    · intro q
      by_cases he : q = p
      · exact Or.inr ⟨he ▸ hok.1, by rw [he, hok.2]⟩
      · exact Or.inl (by rw [Heap.storeStable_version, if_neg he])
    · intro ho q hq
      have he := h.owns_functional ((ho q).mp hq) hok.1
      rw [he, Heap.storeStable_version, if_pos rfl, hok.2]
  case done => cases hstep

end Executing
end FinalWriter
end Mvdcc.Cheetah
