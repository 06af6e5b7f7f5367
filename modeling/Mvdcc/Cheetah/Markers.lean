import Mvdcc.Cheetah.Inv

namespace Mvdcc.Cheetah
open Library Bitmap

section Markers
variable {Key : Type u}

theorem Marker.ne_idle_of_pass {m : Marker Key} {x : Key × BitVec 64}
    {rest : List (Key × BitVec 64)} (h : m.pass = x :: rest) : m ≠ .idle := by
  rintro rfl
  cases h

theorem Marker.ne_idle_of_pc {m : Marker Key} (h : m.pc ≠ .scan) : m ≠ .idle := by
  rintro rfl
  exact h rfl

variable [DecidableEq Key] {wl : Workload Key}
variable {s s' : State Key} {w position : Nat} {c : Call Key} {rest : List (Call Key)}

/-- The map after `update_write_bitmaps` differs at the row of the call only. -/
theorem find_updateWriteBitmaps (s : State Key) (w position : Nat) (c : Call Key) (k : Key) :
    ((s.updateWriteBitmaps w position c).markers w).bitmaps.find k =
      if k = c.index then
        some (setBitOfBitmapAtTheGivenLocation (s.bits c.index w) (getTxSerial c.serial))
      else (s.markers w).bitmaps.find k := by
  simp only [State.updateWriteBitmaps, Function.update_self, UnorderedMap.find_modify,
    UnorderedMap.find_emplace]
  split
  · rfl
  · rfl

theorem setBit_ne_zero (b : BitVec 64) (serial : Nat) :
    setBitOfBitmapAtTheGivenLocation b (getTxSerial serial) ≠ 0 := by
  intro hz
  have hb := (getMsbD_setBitOfBitmap (getTxSerial_lt serial) b (getTxSerial serial)).mpr (Or.inl rfl)
  rw [hz] at hb
  simp at hb

theorem markers_updateWriteBitmaps_other {w' : Nat} (hw : w' ≠ w) :
    (s.updateWriteBitmaps w position c).markers w' = s.markers w' :=
  Function.update_of_ne hw _ _

/-- One more bit at the row of the call, in the worker's own bitmap. -/
theorem bits_updateWriteBitmaps : (s.updateWriteBitmaps w position c).bits c.index =
    Function.update (s.bits c.index) w
      (setBitOfBitmapAtTheGivenLocation (s.bits c.index w) (getTxSerial c.serial)) := by
  funext w'
  by_cases hw : w' = w
  · subst hw
    rw [Function.update_self, State.bits, find_updateWriteBitmaps, if_pos rfl]
    rfl
  · rw [Function.update_of_ne hw, State.bits, markers_updateWriteBitmaps_other hw]
    rfl

theorem bits_updateWriteBitmaps_other {k : Key} (hk : k ≠ c.index) :
    (s.updateWriteBitmaps w position c).bits k = s.bits k := by
  funext w'
  by_cases hw : w' = w
  · subst hw
    rw [State.bits, find_updateWriteBitmaps, if_neg hk]
    rfl
  · rw [State.bits, markers_updateWriteBitmaps_other hw]
    rfl

/-- A worker that still has calls has not begun to finalize, so its map may grow. -/
theorem MarkerOk.remember (hm : MarkerOk s w) (hlt : w < 64) (hne : (s.workers w).todo ≠ []) :
    MarkerOk (s.updateWriteBitmaps w position c) w := by
  have hpass : ((s.updateWriteBitmaps w position c).markers w).pass = [] := by
    simpa [State.updateWriteBitmaps] using (hm.busy hne).1
  have hscan : ((s.updateWriteBitmaps w position c).markers w).pc = .scan := by
    simpa [State.updateWriteBitmaps] using (hm.busy hne).2
  refine ⟨fun hge => absurd hlt (Nat.not_lt.mpr hge), fun _ => ⟨hpass, hscan⟩, ?_, ?_, ?_, ?_, ?_⟩
  · intro k b hb
    rw [find_updateWriteBitmaps] at hb
    split at hb
    · rw [← Option.some.inj hb]
      exact setBit_ne_zero _ _
    · exact hm.nonzero k b hb
  · intro k hk
    exact absurd (hm.marked k hk).1 hne
  · rw [hpass]
    exact fun _ he => absurd he List.not_mem_nil
  · rw [hpass]
    exact List.nodup_nil
  · rw [hscan]
    trivial

theorem Inv.mark_step (h : Inv wl s) (hphase : s.phase = .write)
    (htodo : (s.workers w).todo = c :: rest) :
    Inv wl (s.updateWriteBitmaps w position c) := by
  have hasg := program_assigned wl s.phase s.epoch
  have hmem := h.remaining.mem htodo
  have hw := hasg.owned w c hmem
  have hc := hmem
  rw [← hw, mem_program] at hc
  have hope := hc.2.2.1 hphase
  have hW : c.serial ∈ wl.writers c.index s.epoch := by
    rw [wl.mem_writers, ← hope]
    exact ⟨hc.1, hc.2.1⟩
  have hcore : getCoreSerial c.serial = w := by
    rw [← hw, hphase]
    rfl
  have hlt : w < 64 := by
    rw [← hcore]
    exact getCoreSerial_lt hc.1
  have hne : (s.workers w).todo ≠ [] := by
    rw [htodo]
    exact List.cons_ne_nil _ _
  have htodos : ∀ w', ((s.updateWriteBitmaps w position c).workers w').todo = (s.workers w').todo := by
    intro w'
    by_cases hw' : w' = w
    · simp [State.updateWriteBitmaps, hw']
    · simp [State.updateWriteBitmaps, hw']
  have hat : (s.updateWriteBitmaps w position c).at = Function.update s.at c .done :=
    view_advance hasg h.remaining htodo .done
  refine ⟨h.epoch, h.remaining.advance w .done, fun _ w' => ?_, fun hn => absurd hphase hn,
    fun k => ?_⟩
  · have hm := h.marking hphase w'
    by_cases hw' : w' = w
    · subst hw'
      exact hm.remember hlt hne
    · obtain ⟨h1, h2, h3, h4, h5, h6, h7⟩ := hm
      refine ⟨?_, ?_, ?_, ?_, ?_, ?_, ?_⟩ <;>
        simp only [markers_updateWriteBitmaps_other hw', htodos] <;> assumption
  · have hrow := (rowInv_write k hphase).mp (h.rows k)
    have hphase' : (s.updateWriteBitmaps w position c).phase = .write := hphase
    rw [rowInv_write k hphase']
    unfold State.place at hrow ⊢
    rw [hat]
    by_cases hk : k = c.index
    · subst hk
      have hop : c.operation = ⟨.update, c.index⟩ := by
        rw [← hope]
        rfl
      have hplace := update_place s.at c .done
      rw [hop] at hplace
      rw [bits_updateWriteBitmaps, hplace]
      exact hrow.remember hW hcore
    · have hop : (⟨.update, k⟩ : Operation Key) ≠ c.operation :=
        fun he => hk (congrArg Operation.index he)
      rw [bits_updateWriteBitmaps_other hk,
        funext (fun serial => update_place_other s.at c .done hop serial)]
      exact hrow

/-- Another worker sees of a step at most the core bits, and not its own. -/
theorem MarkerOk.other {w' : Nat} (h : MarkerOk s w') (hm : s'.markers w' = s.markers w')
    (ht : s'.workers w' = s.workers w')
    (hb : ∀ k, (s'.rows k).wBitmap.coreBitmap.getMsbD w' =
      (s.rows k).wBitmap.coreBitmap.getMsbD w') : MarkerOk s' w' := by
  obtain ⟨h1, h2, h3, h4, h5, h6, h7⟩ := h
  refine ⟨?_, ?_, ?_, ?_, ?_, ?_, ?_⟩ <;> simp only [hm, ht, hb] <;> assumption

/-- A step of `finalize_update_write_bitmaps` moves one worker and one row. -/
theorem Inv.remark (h : Inv wl s) (hphase : s.phase = .write) {m : Marker Key} (rows : Key → Row)
    (hs' : s' = { s with markers := Function.update s.markers w m, rows })
    (hown : MarkerOk s' w)
    (hother : ∀ w', w' ≠ w → ∀ k, (rows k).wBitmap.coreBitmap.getMsbD w' =
      (s.rows k).wBitmap.coreBitmap.getMsbD w')
    (hrows : ∀ k, Marking (wl.writers k s.epoch) (rows k) (wl.trailOf k s.epoch).latest
      (Function.update (s.bits k) w ((m.bitmaps.find k).getD 0)) (s.place k .update)) :
    Inv wl s' := by
  subst hs'
  refine ⟨h.epoch, h.remaining, fun _ w' => ?_, fun hn => absurd hphase hn, fun k => ?_⟩
  · by_cases hw : w' = w
    · exact hw ▸ hown
    · exact (h.marking hphase w').other (Function.update_of_ne hw _ _) rfl (hother w' hw)
  · have hbits : State.bits { s with markers := Function.update s.markers w m, rows } k =
        Function.update (s.bits k) w ((m.bitmaps.find k).getD 0) := by
      funext w'
      by_cases hw : w' = w
      · subst hw
        simp [State.bits]
      · simp [State.bits, hw]
    have hk := hrows k
    rw [← hbits] at hk
    exact (rowInv_write (s := { s with markers := Function.update s.markers w m, rows }) k
      hphase).mpr hk

section Finalize
variable {k : Key} {b : BitVec 64}

/-- A worker that finalizes is one of the 64. -/
theorem MarkerOk.lt (hm : MarkerOk s w) (hne : s.markers w ≠ .idle) : w < 64 := by
  by_contra hge
  exact hne (hm.limit (Nat.not_lt.mp hge))

/-- The worker's own entry of its bitmaps of a row. -/
theorem bits_update_self (s : State Key) (w : Nat) (k : Key) :
    Function.update (s.bits k) w (((s.markers w).bitmaps.find k).getD 0) = s.bits k :=
  Function.update_eq_self w (s.bits k)

/-- A marker step that changes no row and no map. -/
theorem Inv.pass_step (h : Inv wl s) (hphase : s.phase = .write) (htodo : (s.workers w).todo = [])
    (hpc : (s.markers w).pc = .scan) (hne : s.markers w ≠ .idle) {pass : List (Key × BitVec 64)}
    (hpass : ∀ e ∈ pass, (s.markers w).bitmaps.find e.1 = some e.2)
    (hkeys : (pass.map Prod.fst).Nodup) :
    Inv wl { s with markers := Function.update s.markers w { s.markers w with pass } } := by
  have hm := h.marking hphase w
  have hlt := hm.lt hne
  refine h.remark hphase s.rows rfl ?_ (fun _ _ _ => rfl) ?_
  · refine ⟨fun hge => absurd hlt (Nat.not_lt.mpr hge), fun hn => absurd htodo hn, ?_, ?_, ?_, ?_,
      ?_⟩ <;> simp only [Function.update_self]
    · exact hm.nonzero
    · exact hm.marked
    · exact hpass
    · exact hkeys
    · rw [hpc]
      trivial
  · intro k
    have hk := (rowInv_write k hphase).mp (h.rows k)
    rw [bits_update_self]
    exact hk

/-- Writing one row, seen from any row. -/
theorem coreBitmap_update {row : Row} (k' : Key) :
    (Function.update s.rows k row k').wBitmap.coreBitmap =
      if k' = k then row.wBitmap.coreBitmap else (s.rows k').wBitmap.coreBitmap := by
  by_cases hk : k' = k
  · rw [if_pos hk, hk, Function.update_self]
  · rw [if_neg hk, Function.update_of_ne hk]

/-- The lock of a row apart, nothing in any row. -/
theorem coreBitmap_setLock (s : State Key) (k k' : Key) (l : RWLock) :
    (Function.update s.rows k ((s.rows k).setLock l) k').wBitmap.coreBitmap =
      (s.rows k').wBitmap.coreBitmap := by
  rw [coreBitmap_update]
  split
  · rename_i he
    rw [he]
    rfl
  · rfl

theorem Inv.lock_step (h : Inv wl s) (hphase : s.phase = .write) (htodo : (s.workers w).todo = [])
    (hpc : (s.markers w).pc = .scan) {rest : List (Key × BitVec 64)}
    (hcons : (s.markers w).pass = (k, b) :: rest) (l : RWLock) :
    Inv wl { s with
      markers := Function.update s.markers w { s.markers w with pass := rest, pc := .update k b }
      rows := Function.update s.rows k ((s.rows k).setLock l) } := by
  have hm := h.marking hphase w
  have hlt := hm.lt (Marker.ne_idle_of_pass hcons)
  have hpass := hm.pass
  have hkeys := hm.passKeys
  rw [hcons] at hpass hkeys
  obtain ⟨hnot, hkeys⟩ := List.nodup_cons.mp hkeys
  have hcore := fun k' => coreBitmap_setLock s k k' l
  refine h.remark hphase _ rfl ?_ (fun w' _ k' => by rw [hcore]) ?_
  · refine ⟨fun hge => absurd hlt (Nat.not_lt.mpr hge), fun hn => absurd htodo hn, ?_, ?_, ?_, ?_,
      ?_⟩ <;> simp only [Function.update_self, hcore]
    · exact hm.nonzero
    · intro k' hk'
      obtain ⟨hnil, hnone | hunlock⟩ := hm.marked k' hk'
      · exact ⟨hnil, Or.inl hnone⟩
      · rw [hpc] at hunlock
        cases hunlock
    · exact fun e he => hpass e (List.mem_cons_of_mem _ he)
    · exact hkeys
    · exact ⟨hpass (k, b) List.mem_cons_self, hnot⟩
  · intro k'
    have hk' := (rowInv_write k' hphase).mp (h.rows k')
    rw [bits_update_self]
    by_cases he : k' = k
    · subst he
      rw [Function.update_self]
      exact hk'.setLock l
    · rw [Function.update_of_ne he]
      exact hk'

theorem Inv.update_step (h : Inv wl s) (hphase : s.phase = .write)
    (htodo : (s.workers w).todo = []) (hpc : (s.markers w).pc = .update k b) :
    Inv wl { s with
      markers := Function.update s.markers w { s.markers w with pc := .unlock k }
      rows := Function.update s.rows k
        { s.rows k with wBitmap := (s.rows k).wBitmap.updateBitmap w b } } := by
  have hm := h.marking hphase w
  have hlt := hm.lt (Marker.ne_idle_of_pc (by simp [hpc]))
  have hhold := hm.holding
  rw [hpc] at hhold
  obtain ⟨hfind, hnot⟩ := hhold
  have hclear : (s.rows k).wBitmap.coreBitmap.getMsbD w = false := by
    by_contra hset
    rw [Bool.not_eq_false] at hset
    rcases (hm.marked k hset).2 with hnone | hunlock
    · rw [hfind] at hnone
      cases hnone
    · rw [hpc] at hunlock
      cases hunlock
  have hcore : ∀ k' c, (Function.update s.rows k
      { s.rows k with wBitmap := (s.rows k).wBitmap.updateBitmap w b } k').wBitmap.coreBitmap.getMsbD c
        = true ↔ (k' = k ∧ c = w) ∨ (s.rows k').wBitmap.coreBitmap.getMsbD c = true := by
    intro k' c
    rw [coreBitmap_update]
    split
    · rename_i he
      rw [WriteBitmap.updateBitmap_core _ hlt, he]
      simp
    · rename_i he
      simp [he]
  refine h.remark hphase _ rfl ?_ ?_ ?_
  · refine ⟨fun hge => absurd hlt (Nat.not_lt.mpr hge), fun hn => absurd htodo hn, ?_, ?_, ?_, ?_,
      ?_⟩ <;> simp only [Function.update_self]
    · exact hm.nonzero
    · intro k' hk'
      rw [hcore] at hk'
      rcases hk' with ⟨rfl, _⟩ | hk'
      · exact ⟨htodo, Or.inr rfl⟩
      · obtain ⟨hnil, hnone | hunlock⟩ := hm.marked k' hk'
        · exact ⟨hnil, Or.inl hnone⟩
        · rw [hpc] at hunlock
          cases hunlock
    · exact hm.pass
    · exact hm.passKeys
    · exact ⟨(WriteBitmap.updateBitmap_core _ hlt w).mpr (Or.inl rfl), hnot⟩
  · intro w' hw' k'
    apply Bool.eq_iff_iff.mpr
    rw [hcore]
    simp [hw']
  · intro k'
    have hk' := (rowInv_write k' hphase).mp (h.rows k')
    rw [bits_update_self]
    by_cases he : k' = k
    · subst he
      rw [Function.update_self]
      have hbits : s.bits k' w = b := by rw [State.bits, hfind]; rfl
      have hpub := hk'.publish hlt hclear (by rw [hbits]; exact hm.nonzero k' b hfind) ?_
      · rw [hbits] at hpub
        exact hpub
      · intro serial _ hserial
        apply view_finished
        have howner : owner s.phase serial = w := by
          rw [← hserial, hphase]
          rfl
        rw [howner]
        exact htodo
    · rw [Function.update_of_ne he]
      exact hk'

theorem Inv.unlock_step (h : Inv wl s) (hphase : s.phase = .write)
    (htodo : (s.workers w).todo = []) (hpc : (s.markers w).pc = .unlock k) :
    Inv wl { s with
      markers := Function.update s.markers w
        { s.markers w with bitmaps := (s.markers w).bitmaps.erase k, pc := .scan }
      rows := Function.update s.rows k (s.rows k).unlock } := by
  have hm := h.marking hphase w
  have hlt := hm.lt (Marker.ne_idle_of_pc (by simp [hpc]))
  have hhold := hm.holding
  rw [hpc] at hhold
  obtain ⟨hset, hnot⟩ := hhold
  have hcore : ∀ k', (Function.update s.rows k (s.rows k).unlock k').wBitmap.coreBitmap =
      (s.rows k').wBitmap.coreBitmap := fun k' => coreBitmap_setLock s k k' _
  refine h.remark hphase _ rfl ?_ (fun w' _ k' => by rw [hcore]) ?_
  · refine ⟨fun hge => absurd hlt (Nat.not_lt.mpr hge), fun hn => absurd htodo hn, ?_, ?_, ?_, ?_,
      ?_⟩ <;> simp only [Function.update_self, hcore, UnorderedMap.find_erase]
    · intro k' b hb
      split at hb
      · cases hb
      · exact hm.nonzero k' b hb
    · intro k' hk'
      refine ⟨htodo, Or.inl ?_⟩
      split
      · rfl
      · rename_i he
        rcases (hm.marked k' hk').2 with hnone | hunlock
        · exact hnone
        · rw [hpc, FinalizePc.unlock.injEq] at hunlock
          exact absurd hunlock.symm he
    · intro e he
      have hne : e.1 ≠ k := fun hk => hnot (hk ▸ List.mem_map_of_mem he)
      rw [if_neg hne]
      exact hm.pass e he
    · exact hm.passKeys
  · intro k'
    have hk' := (rowInv_write k' hphase).mp (h.rows k')
    rw [UnorderedMap.find_erase]
    by_cases he : k' = k
    · subst he
      rw [Function.update_self, if_pos rfl]
      exact (hk'.forget 0 hset).setLock _
    · rw [Function.update_of_ne he, if_neg he]
      rw [bits_update_self]
      exact hk'

/-- Every step of `finalize_update_write_bitmaps`. -/
theorem Inv.finalize_step (h : Inv wl s) (hphase : s.phase = .write)
    (htodo : (s.workers w).todo = []) (hstep : s.finalize w = some s') : Inv wl s' := by
  have hm := h.marking hphase w
  unfold State.finalize at hstep
  simp only at hstep
  split at hstep
  · rename_i hpc
    split at hstep
    · split at hstep
      · cases hstep
      · rename_i hne
        rw [← Option.some.inj hstep]
        refine h.pass_step hphase htodo hpc ?_ ?_ (s.markers w).bitmaps.unique
        · intro hidle
          rw [hidle] at hne
          exact hne rfl
        · exact fun e he => UnorderedMap.find_eq_some.mpr he
    · rename_i k b rest hcons
      split at hstep
      · rw [← Option.some.inj hstep]
        have hpass := hm.pass
        have hkeys := hm.passKeys
        rw [hcons] at hpass hkeys
        exact h.pass_step hphase htodo hpc (Marker.ne_idle_of_pass hcons)
          (fun e he => hpass e (List.mem_cons_of_mem _ he)) (List.nodup_cons.mp hkeys).2
      · rename_i row hlock
        obtain ⟨l, _, rfl⟩ := Option.map_eq_some_iff.mp hlock
        rw [← Option.some.inj hstep]
        exact h.lock_step hphase htodo hpc hcons l
  · rename_i k b hpc
    rw [← Option.some.inj hstep]
    exact h.update_step hphase htodo hpc
  · rename_i k hpc
    rw [← Option.some.inj hstep]
    exact h.unlock_step hphase htodo hpc

end Finalize
end Markers
end Mvdcc.Cheetah
