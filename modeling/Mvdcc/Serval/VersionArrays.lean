import Mvdcc.Serval.RowRegion

namespace Mvdcc.Serval
open Library Bitmap

def getCoreSerial (serialId : Nat) : Nat := serialId / 64
def getTxSerial (serialId : Nat) : Nat := serialId % 64

/-- The loop of `move_global_array_to_row_region`. -/
def moveVersions : List (Int × Ptr) → RowRegion × Heap → RowRegion × Heap
  | [], acc => acc
  | (serialId, version) :: rest, (region, heap) =>
    moveVersions rest (region.append (getCoreSerial serialId.toNat) version
      (getTxSerial serialId.toNat) heap)

/-- Append the array's versions to the region in order, then clear the array. -/
def moveGlobalArrayToRowRegion (g : GlobalVersionArray) (region : RowRegion) (heap : Heap) :
    GlobalVersionArray × RowRegion × Heap :=
  let (region, heap) := moveVersions g.idsSlots (region, heap)
  (⟨[]⟩, region, heap)

theorem GlobalVersionArray.search_eq (g : GlobalVersionArray) (h : Ascending g.idsSlots)
    (serialId : Int) : g.searchVisibleVersion serialId = entryBelow serialId g.idsSlots := by
  unfold searchVisibleVersion
  split
  · rename_i he
    simp [he, entryBelow]
  · rename_i first rest he
    split
    · rename_i hle
      symm
      rw [entryBelow_eq_none, he]
      rw [he] at h
      intro e hm
      rcases List.mem_cons.mp hm with rfl | hm
      · exact hle
      · exact le_of_lt (lt_of_le_of_lt hle ((List.pairwise_cons.mp h).1 e hm))
    · rename_i hnle
      apply h.getElem_findIdx
      rw [he, List.findIdx_cons]
      simp [hnle]

namespace RowRegion
variable {r : RowRegion} {core tx : Nat} {version : Ptr} {heap : Heap}

/-- A region between operations: every core that wrote has its slots, at least one. -/
structure Populated (r : RowRegion) : Prop where
  wellFormed : r.WellFormed
  nonempty : ∀ c, r.coreBitmap.getMsbD c = true → (r.arrays c).slots ≠ []

theorem Populated.bitmap_ne_zero (h : r.Populated) {c : Nat}
    (hc : r.coreBitmap.getMsbD c = true) : (r.arrays c).transactionBitmap ≠ 0 := by
  intro he
  apply h.nonempty c hc
  have := h.wellFormed c hc
  rw [positions_eq_nil.mpr he] at this
  exact List.eq_nil_of_length_eq_zero this.symm

theorem get_eq {a : PerCoreVersionArray} {t : Nat} {p : Ptr}
    (h : (t, p) ∈ aligned a.transactionBitmap a.slots) : a.get t = some p := by
  have hb := getMsbD_of_mem_aligned h
  have hlen : builtinPopcountll (a.transactionBitmap &&& fillTheLeftSideUntilTheGivenPosition t) =
      rank (positions a.transactionBitmap) t + 1 := by
    rw [popcount_eq, positions_and_fillUntil]
    have hs : (positions a.transactionBitmap).filter (· ≤ t) =
        (positions a.transactionBitmap).filter (· < t) ++ [t] := by
      have hp := positions_pairwise a.transactionBitmap
      apply pairwise_lt_ext (hp.sublist List.filter_sublist)
      · refine List.pairwise_append.mpr ⟨hp.sublist List.filter_sublist,
          List.pairwise_singleton _ _, ?_⟩
        intro i hi j hj
        rw [List.mem_singleton.mp hj]
        simpa using (List.mem_filter.mp hi).2
      · intro i
        simp only [List.mem_filter, mem_positions, decide_eq_true_eq, List.mem_append,
          List.mem_singleton]
        constructor
        · rintro ⟨hi, hle⟩
          rcases Nat.lt_or_eq_of_le hle with h | h
          · exact Or.inl ⟨hi, h⟩
          · exact Or.inr h
        · rintro (⟨hi, hlt⟩ | rfl)
          · exact ⟨hi, Nat.le_of_lt hlt⟩
          · exact ⟨hb, Nat.le_refl _⟩
    rw [hs]
    simp [rank]
  unfold PerCoreVersionArray.get
  simp only [hlen, Nat.add_sub_cancel]
  exact getElem_rank h

theorem recorded_iff (hw : r.WellFormed) {c t : Nat} :
    Recorded r.coreBitmap (fun c => (r.arrays c).transactionBitmap) c t ↔
      ∃ p, (((c * 64 + t : Nat) : Int), p) ∈ r.entries ∧ t < 64 ∧
        (t, p) ∈ aligned (r.arrays c).transactionBitmap (r.arrays c).slots := by
  constructor
  · rintro ⟨hc, ht⟩
    obtain ⟨p, hp⟩ := mem_aligned_fst (hw c hc) ht
    exact ⟨p, mem_entries.mpr ⟨c, t, hc, hp, rfl⟩, lt_of_getMsbD ht, hp⟩
  · rintro ⟨p, hm, ht, ha⟩
    obtain ⟨c', t', hc', ha', he⟩ := mem_entries.mp hm
    have ht' := lt_of_getMsbD (getMsbD_of_mem_aligned ha')
    simp only [Nat.cast_inj] at he
    have : c' = c := by omega
    subst this
    exact ⟨hc', getMsbD_of_mem_aligned ha⟩

/-- The two bitmap levels find the greatest entry below the reader's serial id,
and the array hands out exactly its version. -/
theorem identify_spec (h : r.Populated) (htx : tx < 64) :
    match r.identifyVisibleVersion core tx with
    | some (c, t) => ∃ p, (r.arrays c).get t = some p ∧
        entryBelow ((core * 64 + tx : Nat) : Int) r.entries =
          some (((c * 64 + t : Nat) : Int), p)
    | none => entryBelow ((core * 64 + tx : Nat) : Int) r.entries = none := by
  have hs := identifyVisible_spec core (fun c hc => h.bitmap_ne_zero hc) htx
  unfold identifyVisibleVersion
  split
  · rename_i c t he
    rw [he] at hs
    obtain ⟨hr, hlt, hmax⟩ := hs
    obtain ⟨p, hp, _, ha⟩ := (recorded_iff h.wellFormed).mp hr
    refine ⟨p, get_eq ha, ?_⟩
    rw [(entries_ascending r).entryBelow_eq_some]
    refine ⟨hp, Nat.cast_lt.mpr hlt, ?_⟩
    rintro ⟨i, q⟩ hm hi
    obtain ⟨c', t', hc', ha', rfl⟩ := mem_entries.mp hm
    exact Nat.cast_le.mpr (hmax c' t' ⟨hc', getMsbD_of_mem_aligned ha'⟩ (Nat.cast_lt.mp hi))
  · rename_i he
    rw [he] at hs
    rw [entryBelow_eq_none]
    rintro ⟨i, q⟩ hm
    obtain ⟨c', t', hc', ha', rfl⟩ := mem_entries.mp hm
    have := hs c' t' ⟨hc', getMsbD_of_mem_aligned ha'⟩
    simp only [Nat.cast_le]
    omega

/-- Popping takes the last entry out of its core's slots. -/
theorem popFinalState_spec (h : r.Populated) (hd : r.isDirty = true) :
    ∃ i p, r.entries.getLast? = some (i, p) ∧ r.popFinalState.1.2 = some p ∧
      r.popFinalState.2.owned + {p} = r.owned ∧
      ∀ c, ∀ q ∈ (r.popFinalState.2.arrays c).slots, q ∈ (r.arrays c).slots := by
  have hne : r.coreBitmap ≠ 0 := by simpa [isDirty] using hd
  obtain ⟨m, hm, hbit, hmax⟩ := largest_of_ne_zero hne
  have hlen := h.wellFormed m hbit
  obtain ⟨init, p, hslots⟩ := List.eq_nil_or_concat (r.arrays m).slots |>.resolve_left
    (h.nonempty m hbit)
  rw [List.concat_eq_append] at hslots
  have hpos : positions (r.arrays m).transactionBitmap ≠ [] := by
    intro he
    rw [he, hslots] at hlen
    simp at hlen
  obtain ⟨pinit, t, hps⟩ := (List.eq_nil_or_concat _).resolve_left hpos
  rw [List.concat_eq_append] at hps
  have hal : aligned (r.arrays m).transactionBitmap (r.arrays m).slots =
      pinit.zip init ++ [(t, p)] := by
    unfold aligned
    rw [hps, hslots] at hlen ⊢
    simp only [List.length_append, List.length_singleton] at hlen
    rw [List.zip_append (by omega)]
    rfl
  have htmem : (t, p) ∈ aligned (r.arrays m).transactionBitmap (r.arrays m).slots := by
    rw [hal]
    simp
  have hlast : (aligned (r.arrays m).transactionBitmap (r.arrays m).slots).getLast? =
      some (t, p) := by
    rw [hal]
    simp
  refine ⟨((m * 64 + t : Nat) : Int), p, ?_, ?_, ?_, ?_⟩
  · apply (entries_ascending r).getLast_of_max (mem_entries.mpr ⟨m, t, hbit, htmem, rfl⟩)
    rintro ⟨i, q⟩ hq
    obtain ⟨c', t', hc', ha', rfl⟩ := mem_entries.mp hq
    have ht' := lt_of_getMsbD (getMsbD_of_mem_aligned ha')
    have hle := hmax c' hc'
    simp only [Nat.cast_le]
    rcases Nat.lt_or_eq_of_le hle with hlt | rfl
    · omega
    · have : t' ≤ t := (aligned_ascending _ _).le_getLast hlast ha'
      omega
  · simp [popFinalState, PerCoreVersionArray.popLatest, hm, hslots]
  · have ho := r.owned_update (lt_of_getMsbD hbit) ⟨(r.arrays m).transactionBitmap, init⟩
      r.coreBitmap
    rw [hslots, ← Multiset.coe_add, ← add_assoc, add_right_comm] at ho
    have he : r.popFinalState.2 = ⟨r.coreBitmap, Function.update r.arrays m
        ⟨(r.arrays m).transactionBitmap, init⟩⟩ := by
      simp [popFinalState, PerCoreVersionArray.popLatest, hm, hslots]
    rw [he]
    exact add_right_cancel ho
  · intro c q hq
    simp only [popFinalState, PerCoreVersionArray.popLatest, hm, Int.toNat_natCast] at hq
    by_cases hcm : c = m
    · subst hcm
      rw [Function.update_self] at hq
      exact List.mem_of_mem_dropLast hq
    · rwa [Function.update_of_ne hcm] at hq

/-- The slots that the first write of a core throws away. -/
def stale (r : RowRegion) (core : Nat) : List Ptr :=
  if r.isFirstWrite core then (r.arrays core).slots else []

/-- One append: its version is held under its serial id, every other core is
untouched, and only the core's own stale slots are collected. -/
structure Appended (r : RowRegion) (core : Nat) (version : Ptr) (tx : Nat) (heap : Heap)
    (r' : RowRegion) (heap' : Heap) : Prop where
  wellFormed : r'.WellFormed
  entries : r'.entries = insertEntry ((core * 64 + tx : Nat) : Int) version r.entries
  owned : r'.owned + (r.stale core : Multiset Ptr) = r.owned + {version}
  collected : heap' = heap.deleteAll (r.stale core)
  cores : ∀ j, r'.coreBitmap.getMsbD j = true ↔ j = core ∨ r.coreBitmap.getMsbD j = true
  others : ∀ c, c ≠ core → r'.arrays c = r.arrays c
  slots : ∃ old, (r'.arrays core).slots = old ++ [version]

theorem append_spec (version : Ptr) (heap : Heap) (hw : r.WellFormed) (hc : core < 64)
    (htx : tx < 64)
    (hlt : r.coreBitmap.getMsbD core = true →
      ∀ t, (r.arrays core).transactionBitmap.getMsbD t = true → t < tx) :
    Appended r core version tx heap (r.append core version tx heap).1
      (r.append core version tx heap).2 := by
  cases hb : r.coreBitmap.getMsbD core with
  | true =>
    have hf : r.isFirstWrite core = false := by simp [isFirstWrite, isBitSet_eq hc, hb]
    have hs : r.stale core = [] := by simp [stale, hf]
    have ha : r.append core version tx heap = (r.appendSlot core version tx, heap) := by
      simp [append, hf]
    rw [ha]
    refine ⟨appendSlot_wellFormed hw hb htx (hlt hb), appendSlot_entries hw hb htx (hlt hb),
      ?_, ?_, ?_, ?_, ⟨(r.arrays core).slots, ?_⟩⟩
    · rw [hs, Multiset.coe_nil, add_zero, appendSlot_owned hw hb]
    · rw [hs]
      rfl
    · intro j
      rw [appendSlot_core]
      constructor
      · exact Or.inr
      · rintro (rfl | h)
        · exact hb
        · exact h
    · intro c hne
      rw [appendSlot_arrays, Function.update_of_ne hne]
    · rw [appendSlot_arrays, Function.update_self]
      exact append_slots hw hb
  | false =>
    have hf : r.isFirstWrite core = true := by simp [isFirstWrite, isBitSet_eq hc, hb]
    have hs : r.stale core = (r.arrays core).slots := by simp [stale, hf]
    have ha : r.append core version tx heap =
        ((r.firstWrite core heap).1.appendSlot core version tx, (r.firstWrite core heap).2) := by
      simp [append, hf]
    have hw' := r.firstWrite_wellFormed heap hc hw
    have hb' : (r.firstWrite core heap).1.coreBitmap.getMsbD core = true :=
      (r.firstWrite_core heap hc core).mpr (Or.inl rfl)
    have hlt' : ∀ t, ((r.firstWrite core heap).1.arrays core).transactionBitmap.getMsbD t = true →
        t < tx := by
      intro t ht
      rw [firstWrite_arrays, Function.update_self] at ht
      simp at ht
    rw [ha]
    refine ⟨appendSlot_wellFormed hw' hb' htx hlt', ?_, ?_, ?_, ?_, ?_,
      ⟨((r.firstWrite core heap).1.arrays core).slots, ?_⟩⟩
    · rw [appendSlot_entries hw' hb' htx hlt', r.firstWrite_entries heap hc hb]
    · have ho := r.firstWrite_owned heap hc
      rw [hs, appendSlot_owned hw' hb', ← ho, add_right_comm]
    · rw [hs, firstWrite_heap]
    · intro j
      rw [appendSlot_core]
      exact r.firstWrite_core heap hc j
    · intro c hne
      rw [appendSlot_arrays, Function.update_of_ne hne, firstWrite_arrays,
        Function.update_of_ne hne]
    · rw [appendSlot_arrays, Function.update_self]
      exact append_slots hw' hb'

theorem Populated.append {r' : RowRegion} {heap' : Heap} (h : r.Populated)
    (ha : Appended r core version tx heap r' heap') : r'.Populated := by
  refine ⟨ha.wellFormed, ?_⟩
  intro c hc
  by_cases hcc : c = core
  · obtain ⟨old, ho⟩ := ha.slots
    rw [hcc, ho]
    simp
  · rw [ha.others c hcc]
    exact h.nonempty c (((ha.cores c).mp hc).resolve_left hcc)

/-- Entries bound the transactions recorded for a core that has written. -/
theorem tx_lt_of_entries (tx : Nat) (hw : r.WellFormed) (hc : r.coreBitmap.getMsbD core = true)
    (hlt : ∀ e ∈ r.entries, e.1 / 64 = (core : Int) → e.1 < ((core * 64 + tx : Nat) : Int)) :
    ∀ t, (r.arrays core).transactionBitmap.getMsbD t = true → t < tx := by
  intro t ht
  obtain ⟨p, hp, h64, _⟩ := (recorded_iff hw).mp ⟨hc, ht⟩
  have := hlt _ hp (by simp only; omega)
  simp only at this
  omega

end RowRegion

/-- A region that holds nothing but what was appended to it. -/
def RowRegion.Unused (r : RowRegion) : Prop :=
  ∀ c, r.coreBitmap.getMsbD c = false → (r.arrays c).slots = []

/-- Moving ascending entries into a region above what it already holds. -/
theorem moveVersions_spec (ids : List (Int × Ptr)) (r : RowRegion) (heap : Heap)
    (hp : r.Populated) (hu : r.Unused) (hasc : Ascending (r.entries ++ ids))
    (hr : ∀ e ∈ ids, 0 ≤ e.1 ∧ e.1 < 4096) :
    (moveVersions ids (r, heap)).1.Populated ∧ (moveVersions ids (r, heap)).1.Unused ∧
      (moveVersions ids (r, heap)).1.entries = r.entries ++ ids ∧
      (moveVersions ids (r, heap)).1.owned = r.owned + (ids.map Prod.snd : Multiset Ptr) ∧
      (moveVersions ids (r, heap)).2 = heap := by
  induction ids generalizing r heap with
  | nil => exact ⟨hp, hu, by simp [moveVersions], by simp [moveVersions], rfl⟩
  | cons e ids ih =>
    obtain ⟨serialId, version⟩ := e
    obtain ⟨h0, h4096⟩ := hr (serialId, version) List.mem_cons_self
    simp only at h0 h4096
    have hid : ((getCoreSerial serialId.toNat * 64 + getTxSerial serialId.toNat : Nat) : Int) =
        serialId := by
      unfold getCoreSerial getTxSerial
      omega
    have hbelow : ∀ x ∈ r.entries, x.1 < serialId := by
      intro x hx
      exact (List.pairwise_append.mp hasc).2.2 x hx (serialId, version) List.mem_cons_self
    have hc : getCoreSerial serialId.toNat < 64 := by
      unfold getCoreSerial
      omega
    have ht : getTxSerial serialId.toNat < 64 := Nat.mod_lt _ (by omega)
    have hlt := fun hb => RowRegion.tx_lt_of_entries (getTxSerial serialId.toNat)
      hp.wellFormed hb (fun x hx _ => by rw [hid]; exact hbelow x hx)
    have ha := RowRegion.append_spec version heap hp.wellFormed hc ht hlt
    have hst : r.stale (getCoreSerial serialId.toNat) = [] := by
      unfold RowRegion.stale
      split
      · rename_i hf
        apply hu
        simpa [RowRegion.isFirstWrite, isBitSet_eq hc] using hf
      · rfl
    rw [moveVersions]
    generalize r.append (getCoreSerial serialId.toNat) version (getTxSerial serialId.toNat)
      heap = next at ha ⊢
    obtain ⟨r', heap'⟩ := next
    have hent : r'.entries = r.entries ++ [(serialId, version)] := by
      rw [ha.entries, hid, insertEntry_last _ hbelow]
    have hheap : heap' = heap := by
      have h := ha.collected
      rw [hst] at h
      exact h
    have hown := ha.owned
    rw [hst, Multiset.coe_nil, add_zero] at hown
    have hp' : r'.Populated := hp.append ha
    have hu' : r'.Unused := by
      intro c hcb
      have hn : ¬ (c = getCoreSerial serialId.toNat ∨ r.coreBitmap.getMsbD c = true) := by
        intro h
        rw [(ha.cores c).mpr h] at hcb
        cases hcb
      rw [not_or] at hn
      rw [ha.others c hn.1]
      exact hu c (by simpa using hn.2)
    obtain ⟨h1, h2, h3, h4, h5⟩ := ih r' heap' hp' hu'
      (by rw [hent, List.append_assoc]; exact hasc)
      (fun x hx => hr x (List.mem_cons_of_mem _ hx))
    refine ⟨h1, h2, ?_, ?_, h5.trans hheap⟩
    · rw [h3, hent, List.append_assoc]
      rfl
    · rw [h4, hown, List.map_cons, ← Multiset.cons_coe, ← Multiset.singleton_add, add_assoc]

/-- A fresh region takes over exactly the array's versions; nothing is collected. -/
theorem move_spec {g : GlobalVersionArray} {heap : Heap} (hasc : Ascending g.idsSlots)
    (hr : ∀ e ∈ g.idsSlots, 0 ≤ e.1 ∧ e.1 < 4096) :
    ∃ region, moveGlobalArrayToRowRegion g RowRegion.fresh heap = (⟨[]⟩, region, heap) ∧
      region.Populated ∧ region.Unused ∧ region.entries = g.idsSlots ∧
      region.owned = (g.idsSlots.map Prod.snd : Multiset Ptr) := by
  obtain ⟨h1, h2, h3, h4, h5⟩ := moveVersions_spec g.idsSlots RowRegion.fresh heap
    ⟨RowRegion.wellFormed_fresh, by intro c hc; simp [RowRegion.fresh] at hc⟩
    (fun _ _ => rfl) (by rwa [RowRegion.entries_fresh]) hr
  rw [RowRegion.entries_fresh, List.nil_append] at h3
  rw [RowRegion.owned_fresh, zero_add] at h4
  refine ⟨(moveVersions g.idsSlots (RowRegion.fresh, heap)).1, ?_, h1, h2, h3, h4⟩
  unfold moveGlobalArrayToRowRegion
  rw [← h5]
  simp only [h5]

end Mvdcc.Serval
