import Mvdcc.Serval.RowInvariant

namespace Mvdcc.Serval
open Library Bitmap

/-- What step 1 of `initialize_the_row` does to a settled row: the final version
becomes the master, every other version held is collected. -/
structure Refreshed (m m' : Memory) (q : Ptr) : Prop where
  kept : Kept m'.toRow m'.own 0
  empty : contents m'.toRow m'.own = []
  unset : m'.own.coreBitmap = 0
  master : m'.value.master = some q
  version : m'.heap.version = m.heap.version
  pending : m'.pending = m.pending
  rowRegion : m'.value.rowRegion = m.value.rowRegion
  leftovers : ∀ c, ∀ p ∈ (m'.own.arrays c).slots, p ∈ (m.own.arrays c).slots
  regions : ∀ i, m.value.rowRegion ≠ some i → m'.controller.regions i = m.controller.regions i
  used : m'.controller.used = m.controller.used

theorem Memory.own_of_none {m : Memory} (h : m.value.rowRegion = none) :
    m.own = RowRegion.fresh := by
  simp [own, h]

theorem Memory.own_of_some {m : Memory} {region : Nat} (h : m.value.rowRegion = some region) :
    m.own = m.controller.regions region := by
  simp [own, h]

theorem RowRegion.isDirty_of_entries {r : RowRegion} (h : r.entries ≠ []) : r.isDirty = true := by
  rw [isDirty, bne_iff_ne]
  intro he
  apply h
  rw [entries, positions_eq_nil.mpr he]
  rfl

theorem refresh_global {m : Memory} (hk : Kept m.toRow m.own 0)
    (hf : ∀ p ∈ live m.toRow m.own, m.heap.Finished p) {i : Int} {q : Ptr}
    (hl : m.value.globalArray.idsSlots.getLast? = some (i, q)) :
    Refreshed m m.storeFinalState q := by
  obtain ⟨init, hids⟩ := List.getLast?_eq_some_iff.mp hl
  have hr : m.value.rowRegion = none := by
    by_contra hn
    have := hk.shape hn
    rw [this] at hids
    simp at hids
  have hown := m.own_of_none hr
  have hm : m.storeFinalState = { m with
      heap := (m.heap.deleteAll (init.map Prod.snd)).deleteAll m.value.master.toList
      value := { m.value with globalArray := ⟨[]⟩, master := some q } } := by
    simp [Memory.storeFinalState, GlobalVersionArray.isDirty, GlobalVersionArray.popFinalState,
      GlobalVersionArray.gc, GlobalVersionArray.minorGc, Memory.gcMasterVersion, hids]
  have hown' : m.storeFinalState.own = RowRegion.fresh := Memory.own_of_none (by rw [hm]; exact hr)
  have hlive : live m.storeFinalState.toRow m.storeFinalState.own = {q} := by
    rw [hown', hm]
    simp [live]
  refine ⟨⟨?_, fun _ => hown', ?_, ?_, ?_, ?_⟩, ?_, ?_, ?_, ?_, ?_, ?_, ?_, ?_, ?_⟩
  · rw [hm]
    exact fun _ => rfl
  · rw [hm]
    exact .nil
  · rw [hown']
    exact RowRegion.wellFormed_fresh
  · have hp := hk.places
    rw [hlive]
    simp only [live, hown, RowRegion.owned_fresh, hids, List.map_append, List.map_singleton] at hp
    rw [hm]
    simp only [Heap.deleteAll_freed, Heap.deleteAll_next]
    rw [← hp]
    simp only [← Multiset.coe_add, ← Multiset.coe_singleton]
    abel
  · rw [hm]
    refine (hk.clean.deleteAll ?_).deleteAll ?_
    · intro p hp
      obtain ⟨e, he, rfl⟩ := List.mem_map.mp hp
      exact hf _ (mem_live.mpr (Or.inr (Or.inl ⟨e.1, by rw [hids]; simp [he]⟩)))
    · intro p hp
      have := hf p (mem_live.mpr (Or.inl (Option.mem_toList.mp hp)))
      simpa [Heap.Finished] using this
  · rw [contents, hown', hm, RowRegion.entries_fresh]
    rfl
  · rw [hown']
    rfl
  · rw [hm]
  · rw [hm]
    simp
  · rw [hm]
  · rw [hm]
  · rw [hown']
    simp [RowRegion.fresh]
  · rw [hm]
    exact fun _ _ => rfl
  · rw [hm]

theorem refresh_region {m : Memory} (hk : Kept m.toRow m.own 0)
    (hf : ∀ p ∈ live m.toRow m.own, m.heap.Finished p) (hp : m.own.Populated) {i : Int} {q : Ptr}
    {region : Nat} (hr : m.value.rowRegion = some region)
    (hl : m.own.entries.getLast? = some (i, q)) :
    Refreshed m m.storeFinalState q := by
  have hids := hk.shape (by simp [hr])
  have hown := m.own_of_some hr
  have hd : m.own.isDirty = true := RowRegion.isDirty_of_entries (by
    intro he
    rw [he] at hl
    simp at hl)
  obtain ⟨i', q', hlast, hpop, hsum, hslots⟩ := RowRegion.popFinalState_spec hp hd
  obtain ⟨rfl, rfl⟩ : i' = i ∧ q' = q := by simpa [hl] using hlast.symm
  have hm : m.storeFinalState = { m with
      heap := m.heap.deleteAll m.value.master.toList
      value := { m.value with master := some q' }
      controller := m.controller.setRegion region m.own.popFinalState.2.initializeCoreBitmap } := by
    rw [hown] at hd hpop ⊢
    simp [Memory.storeFinalState, GlobalVersionArray.isDirty, Memory.gcMasterVersion, hids, hr, hd,
      hpop]
  have hown' : m.storeFinalState.own = m.own.popFinalState.2.initializeCoreBitmap := by
    rw [Memory.own_of_some (by rw [hm]; exact hr), hm]
    simp [RowRegionController.setRegion]
  have howned : m.storeFinalState.own.owned = m.own.popFinalState.2.owned := by
    rw [hown']
    rfl
  refine ⟨⟨?_, ?_, ?_, ?_, ?_, ?_⟩, ?_, ?_, ?_, ?_, ?_, ?_, ?_, ?_, ?_⟩
  · rw [hm]
    exact fun _ => hids
  · rw [hm]
    intro hn
    simp [hr] at hn
  · rw [hm]
    exact hk.ascending
  · rw [hown']
    exact RowRegion.wellFormed_initializeCoreBitmap _
  · have hpl := hk.places
    simp only [live, ← hsum] at hpl
    simp only [live, howned]
    rw [hm]
    simp only [Heap.deleteAll_freed, Heap.deleteAll_next]
    rw [← hpl]
    simp only [← Multiset.coe_add, ← Multiset.coe_singleton, Option.toList]
    abel
  · rw [hm]
    apply hk.clean.deleteAll
    intro p hp
    exact hf p (mem_live.mpr (Or.inl (Option.mem_toList.mp hp)))
  · rw [contents, hown', hm, RowRegion.entries_initializeCoreBitmap]
    simp [hids]
  · rw [hown']
    rfl
  · rw [hm]
  · rw [hm]
    simp
  · rw [hm]
  · rw [hm]
  · rw [hown']
    exact hslots
  · rw [hm]
    intro j hj
    have : j ≠ region := by
      rintro rfl
      exact hj hr
    simp [RowRegionController.setRegion, Function.update_of_ne this]
  · rw [hm]
    rfl

/-- Whichever container was in use, its last version becomes the master. -/
theorem refresh {m : Memory} {t : Trail} (h : Settled m.toRow m.own t) :
    ∃ q, IsVersionOf m.toRow t.latest q ∧ Refreshed m m.storeFinalState q := by
  obtain ⟨i, q, hl, hq⟩ := h.last
  refine ⟨q, hq, ?_⟩
  rw [contents] at hl
  cases hr : m.value.rowRegion with
  | none =>
    rw [h.kept.installed hr, RowRegion.entries_fresh, List.append_nil] at hl
    exact refresh_global h.kept h.finished hl
  | some region =>
    rw [h.kept.shape (by simp [hr]), List.nil_append] at hl
    exact refresh_region h.kept h.finished h.populated hr hl

end Mvdcc.Serval
