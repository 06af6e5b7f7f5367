import Mvdcc.Serval.Opened

namespace Mvdcc.Serval
open Library Bitmap

namespace Memory

@[simp] theorem setPending_value (m : Memory) (e s : Nat) (v : Ptr) :
    (m.setPending e s v).value = m.value := rfl
@[simp] theorem setPending_heap (m : Memory) (e s : Nat) (v : Ptr) :
    (m.setPending e s v).heap = m.heap := rfl
@[simp] theorem setPending_controller (m : Memory) (e s : Nat) (v : Ptr) :
    (m.setPending e s v).controller = m.controller := rfl
@[simp] theorem setPending_own (m : Memory) (e s : Nat) (v : Ptr) :
    (m.setPending e s v).own = m.own := rfl

@[simp] theorem setPending_self (m : Memory) (e s : Nat) (v : Ptr) :
    (m.setPending e s v).pending e s = some v := by
  simp [setPending]

theorem setPending_other (m : Memory) {e s e' s' : Nat} (v : Ptr) (h : e' ≠ e ∨ s' ≠ s) :
    (m.setPending e s v).pending e' s' = m.pending e' s' := by
  simp only [setPending]
  by_cases he : e' = e
  · rcases h with h | h
    · exact absurd he h
    · rw [he, Function.update_self, Function.update_of_ne h]
  · rw [Function.update_of_ne he]

end Memory

/-- How one step on a row may touch the region pool. -/
structure PoolStep (m m' : Memory) : Prop where
  regions : ∀ i, m'.value.rowRegion ≠ some i → m'.controller.regions i = m.controller.regions i
  pool : (m'.value.rowRegion = m.value.rowRegion ∧ m'.controller.used = m.controller.used) ∨
    (m.value.rowRegion = none ∧ m'.value.rowRegion = some m.controller.used ∧
      m'.controller.used = m.controller.used + 1)

theorem PoolStep.same {m m' : Memory} (hr : m'.value.rowRegion = m.value.rowRegion)
    (hc : m'.controller = m.controller) : PoolStep m m' :=
  ⟨fun _ _ => by rw [hc], Or.inl ⟨hr, by rw [hc]⟩⟩

theorem PoolStep.own {m m' : Memory} {region : Nat} {r : RowRegion}
    (hr : m.value.rowRegion = some region) (hr' : m'.value.rowRegion = m.value.rowRegion)
    (hc : m'.controller = m.controller.setRegion region r) : PoolStep m m' ∧ m'.own = r := by
  refine ⟨⟨?_, Or.inl ⟨hr', by rw [hc]; rfl⟩⟩, ?_⟩
  · intro i hi
    rw [hr', hr] at hi
    rw [hc]
    exact Function.update_of_ne (fun he => hi (by rw [he])) _ _
  · rw [Memory.own_of_some (hr'.trans hr), hc]
    exact Function.update_self _ _ _

section Append
variable {W : List Nat} {e : Nat} {t : Trail} {m m' : Memory}
variable {pcs : Nat → Pc} {s : Nat}

theorem insertEntry_snd {i : Int} {v : Ptr} (l : List (Int × Ptr)) :
    ((insertEntry i v l).map Prod.snd : Multiset Ptr) = {v} + (l.map Prod.snd : Multiset Ptr) := by
  have hp : (insertEntry i v l).Perm ((i, v) :: l) :=
    List.perm_insertIdx _ _ List.findIdx_le_length
  rw [Multiset.coe_eq_coe.mpr (hp.map Prod.snd), List.map_cons, ← Multiset.cons_coe,
    ← Multiset.singleton_add]

/-- A version just created is in no place yet. -/
theorem next_not_live (h : Opened W e t m.toRow m.own pcs) : m.heap.next ∉ live m.toRow m.own :=
  fun hl => Nat.lt_irrefl _ (h.kept.lt_next hl)

/-- The serial id of a call that has not appended is not held. -/
theorem not_held (h : Opened W e t m.toRow m.own pcs) (hnone : m.pending e s = none) :
    ∀ x ∈ contents m.toRow m.own, x.1 ≠ s := by
  rintro ⟨i, p⟩ hx hi
  obtain ⟨s', hi', hp⟩ := (h.contents i p).mp hx
  simp only at hi
  have : s' = s := by omega
  rw [this, hnone] at hp
  cases hp

/-- `append_to_unconted_row`. -/
theorem append_global (h : Opened W e t m.toRow m.own pcs) (turn : Turn W e t pcs s)
    (hpc : pcs s = .locked) (hr : m.value.rowRegion = none) :
    let version := m.heap.next
    let m' := Memory.setPending { m with
      heap := m.heap.createPendingVersion.2
      value := { m.value with globalArray := m.value.globalArray.append version s } } e s version
    Opened W e t m'.toRow m'.own (Function.update pcs s .unlock) ∧ PoolStep m m' := by
  intro version m'
  have hnone : m.pending e s = none := by
    have := h.calls s turn.member
    rwa [hpc] at this
  have hown := m.own_of_none hr
  have hown' : m'.own = RowRegion.fresh := Memory.own_of_none hr
  have hcon : contents m.toRow m.own = m.value.globalArray.idsSlots := by
    rw [contents, hown, RowRegion.entries_fresh, List.append_nil]
  have hcon' : contents m'.toRow m'.own =
      insertEntry (s : Int) version m.value.globalArray.idsSlots := by
    rw [contents, hown', RowRegion.entries_fresh, List.append_nil]
    rfl
  have hself : m'.pending e s = some version := Memory.setPending_self _ _ _ _
  refine ⟨h.step turn ⟨?_, ?_, ?_, ?_, rfl, rfl⟩ hnone ⟨?_, fun _ => hown', ?_, ?_, ?_, ?_⟩
    ?_ ?_ ?_ ?_ ?_, .same rfl rfl⟩
  · exact fun p hp => Heap.createPendingVersion_old hp
  · exact fun e' s' hne => Memory.setPending_other _ _ hne
  · exact fun r hr' => hr'
  · exact fun hn => absurd hr hn
  · exact fun hn => absurd hr hn
  · exact h.kept.ascending.insertEntry version (hcon ▸ not_held h hnone)
  · rw [hown']
    exact RowRegion.wellFormed_fresh
  · have hp := h.kept.places
    rw [held_same turn.lt (by rw [hpc]; rfl)]
    simp only [live, hown] at hp
    simp only [live, hown']
    change ↑m.heap.freed + (↑m.value.master.toList +
      ↑((insertEntry (s : Int) version m.value.globalArray.idsSlots).map Prod.snd) +
        RowRegion.fresh.owned) + _ = Multiset.range (m.heap.next + 1)
    rw [Multiset.range_succ, ← hp, insertEntry_snd, ← Multiset.singleton_add]
    abel
  · exact h.kept.clean
  · intro i p
    rw [hcon, hcon', mem_insertEntry, hself, Prod.mk.injEq, Option.some.injEq, eq_comm (a := p)]
  · intro p hp
    rw [hself, Option.some.injEq] at hp
    subst hp
    refine ⟨?_, next_not_live h⟩
    change m.heap.createPendingVersion.2.version m.heap.next = _
    rw [Heap.createPendingVersion_version, if_pos rfl]
  · simp [AppendOk, hself]
  · rw [hown']
    intro c hc
    simp [RowRegion.fresh] at hc
  · rw [hown']
    intro c _ _ p hp
    simp [RowRegion.fresh] at hp

/-- The transactions already recorded for a worker's core come before its own. -/
theorem tx_below (h : Opened W e t m.toRow m.own pcs) (turn : Turn W e t pcs s)
    (hnone : m.pending e s = none) (hc : m.own.coreBitmap.getMsbD (s / 64) = true) :
    ∀ tx, (m.own.arrays (s / 64)).transactionBitmap.getMsbD tx = true → tx < getTxSerial s := by
  apply RowRegion.tx_lt_of_entries _ h.kept.wellFormed hc
  rintro ⟨i, p⟩ hm hi
  obtain ⟨s', hi', hp⟩ := (h.contents i p).mp (List.mem_append_right _ hm)
  simp only [getTxSerial] at hi ⊢
  subst hi'
  have hne : s' ≠ s := by
    rintro rfl
    rw [hnone] at hp
    cases hp
  have hs' := h.members s' (by rw [hp]; exact Option.some_ne_none p)
  rcases turn.ordered s' hs' (by omega) hne with ⟨_, hlt⟩ | ⟨hst, _⟩
  · omega
  · have := h.calls s' hs'
    rw [hst] at this
    rw [this] at hp
    cases hp

/-- In a row with a region only the region holds versions. -/
theorem contents_region (h : Kept m.toRow m.own held) (hr : m.value.rowRegion ≠ none) :
    contents m.toRow m.own = m.own.entries := by
  rw [contents, h.shape hr, List.nil_append]

theorem entry_id (s : Nat) : ((s / 64 * 64 + getTxSerial s : Nat) : Int) = s := by
  unfold getTxSerial
  omega

/-- `append_to_contented_row` by the worker that holds the lock. -/
theorem append_region (h : Opened W e t m.toRow m.own pcs) (turn : Turn W e t pcs s)
    (hpc : pcs s = .locked) {region : Nat} (hr : m.value.rowRegion = some region) :
    let version := m.heap.next
    let appended := (m.controller.regions region).append (s / 64) version (getTxSerial s)
      m.heap.createPendingVersion.2
    let m' := Memory.setPending { m with
      heap := appended.2
      controller := m.controller.setRegion region appended.1 } e s version
    Opened W e t m'.toRow m'.own (Function.update pcs s .unlock) ∧ PoolStep m m' := by
  intro version appended m'
  have hnone : m.pending e s = none := by
    have := h.calls s turn.member
    rwa [hpc] at this
  have hsome : m.value.rowRegion ≠ none := by simp [hr]
  have ha : RowRegion.Appended m.own (s / 64) version (getTxSerial s)
      m.heap.createPendingVersion.2 appended.1 appended.2 := by
    have := RowRegion.append_spec version m.heap.createPendingVersion.2 h.kept.wellFormed
      turn.core_lt (Nat.mod_lt s (by omega)) (tx_below h turn hnone)
    rwa [m.own_of_some hr] at this ⊢
  obtain ⟨hpool, hown'⟩ : PoolStep m m' ∧ m'.own = appended.1 := PoolStep.own hr rfl rfl
  have hheap : m'.heap = m.heap.createPendingVersion.2.deleteAll (m.own.stale (s / 64)) :=
    ha.collected
  have hself : m'.pending e s = some version := Memory.setPending_self _ _ _ _
  have hcon' : contents m'.toRow m'.own = insertEntry (s : Int) version m.own.entries := by
    rw [contents, hown', ha.entries, entry_id]
    change m.value.globalArray.idsSlots ++ _ = _
    rw [h.kept.shape hsome, List.nil_append]
  have hstale : ∀ p ∈ m.own.stale (s / 64), m.heap.Finished p ∧ p < m.heap.next := by
    intro p hp
    unfold RowRegion.stale at hp
    split at hp
    · rename_i hf
      rw [RowRegion.isFirstWrite, isBitSet_eq turn.core_lt, Bool.not_eq_true'] at hf
      exact ⟨h.leftovers _ turn.core_lt hf p hp,
        h.kept.lt_next (mem_live_of_slots turn.core_lt hp)⟩
    · cases hp
  have x : Extends e s m.toRow m'.toRow m.own m'.own := by
    refine ⟨?_, ?_, fun r hr' => hr', ?_, rfl, rfl⟩
    · intro p hp
      rw [hheap, Heap.deleteAll_version]
      exact Heap.createPendingVersion_old hp
    · exact fun e' s' hne => Memory.setPending_other _ _ hne
    · intro _ c hc
      rw [hown']
      refine ⟨Bool.eq_iff_iff.mpr ((ha.cores c).trans ?_), ha.others c hc⟩
      simp [hc]
  obtain ⟨old, hold⟩ := ha.slots
  refine ⟨h.step turn x hnone ⟨?_, ?_, ?_, ?_, ?_, ?_⟩ ?_ ?_ ?_
    (h.populated_of x turn.member hsome ?_) (h.leftovers_of x hsome ?_), hpool⟩
  · exact h.kept.shape
  · exact fun hn => absurd hn hsome
  · exact h.kept.ascending
  · rw [hown']
    exact ha.wellFormed
  · have hp := h.kept.places
    rw [held_same turn.lt (by rw [hpc]; rfl)]
    simp only [live] at hp ⊢
    rw [hown', hheap, Heap.deleteAll_freed, Heap.deleteAll_next, Heap.createPendingVersion_next,
      Multiset.range_succ, ← hp, ← Multiset.coe_add, ← Multiset.singleton_add]
    have ho := ha.owned
    change ↑m.heap.freed + ↑(m.own.stale (s / 64)) + (↑m.value.master.toList +
      ↑(m.value.globalArray.idsSlots.map Prod.snd) + appended.1.owned) + _ = _
    calc ↑m.heap.freed + ↑(m.own.stale (s / 64)) + (↑m.value.master.toList +
          ↑(m.value.globalArray.idsSlots.map Prod.snd) + appended.1.owned) +
            ∑ x ∈ serials, (pcs x).hands
        = ↑m.heap.freed + (↑m.value.master.toList +
          ↑(m.value.globalArray.idsSlots.map Prod.snd) + (appended.1.owned +
            ↑(m.own.stale (s / 64)))) + ∑ x ∈ serials, (pcs x).hands := by abel
      _ = _ := by
        rw [ho]
        abel
  · rw [hheap]
    have hclean : m.heap.createPendingVersion.2.CleanLog := h.kept.clean
    apply hclean.deleteAll
    intro p hp
    obtain ⟨hf, hlt⟩ := hstale p hp
    unfold Heap.Finished
    rw [Heap.createPendingVersion_old hlt]
    exact hf
  · intro i p
    rw [hcon', contents_region h.kept hsome, mem_insertEntry, hself, Prod.mk.injEq,
      Option.some.injEq, eq_comm (a := p)]
  · intro p hp
    rw [hself, Option.some.injEq] at hp
    subst hp
    refine ⟨?_, next_not_live h⟩
    rw [hheap, Heap.deleteAll_version, Heap.createPendingVersion_version, if_pos rfl]
  · simp [AppendOk, hself]
  · intro _
    rw [hown', hold]
    exact Or.inl (by simp)
  · intro hc
    rw [hown', (ha.cores (s / 64)).mpr (Or.inl rfl)] at hc
    cases hc

/-- Creating the version before an append without the lock. -/
theorem create_contended (h : Opened W e t m.toRow m.own pcs) (turn : Turn W e t pcs s)
    {region : Nat} (hpc : pcs s = .contended region) {pc' : Pc}
    (hpc' : pc' = if (m.controller.regions region).isFirstWrite (s / 64)
      then .firstWrite region m.heap.next else .appendSlot region m.heap.next) :
    let m' := { m with heap := m.heap.createPendingVersion.2 }
    Opened W e t m'.toRow m'.own (Function.update pcs s pc') ∧ PoolStep m m' := by
  intro m'
  obtain ⟨hnone, hr⟩ : m.pending e s = none ∧ m.value.rowRegion = some region := by
    have := h.calls s turn.member
    rwa [hpc] at this
  have hsome : m.value.rowRegion ≠ none := by simp [hr]
  have hhands : pc'.hands = {m.heap.next} := by
    rw [hpc']
    split <;> rfl
  have hfirst : (m.controller.regions region).isFirstWrite (s / 64) =
      !m.own.coreBitmap.getMsbD (s / 64) := by
    rw [m.own_of_some hr, RowRegion.isFirstWrite, isBitSet_eq turn.core_lt]
  have hver : m'.heap.version m.heap.next = ⟨none, .pending⟩ := by
    rw [Heap.createPendingVersion_version, if_pos rfl]
  have x : Extends e s m.toRow m'.toRow m.own m'.own :=
    ⟨fun p hp => Heap.createPendingVersion_old hp, fun _ _ _ => rfl, fun _ hr' => hr',
      fun _ _ _ => ⟨rfl, rfl⟩, rfl, rfl⟩
  refine ⟨h.step turn x hnone ⟨h.kept.shape, h.kept.installed, h.kept.ascending, h.kept.wellFormed,
    ?_, h.kept.clean⟩ ?_ ?_ ?_ (h.populated_of x turn.member hsome ?_)
    (h.leftovers_of x hsome ?_), .same rfl rfl⟩
  · have hp := h.kept.places
    have hu := held_update turn.lt pcs pc'
    have hz : (pcs s).hands = 0 := by rw [hpc]; rfl
    rw [hhands, hz, add_zero] at hu
    rw [hu]
    change ↑m.heap.freed + live m.toRow m.own + _ = Multiset.range (m.heap.next + 1)
    rw [Multiset.range_succ, ← hp, ← Multiset.singleton_add]
    abel
  · intro i p
    change (i, p) ∈ contents m.toRow m.own ↔ _ ∨ (i, p) ∈ contents m.toRow m.own
    change _ ↔ (i = s ∧ m.pending e s = some p) ∨ _
    rw [hnone]
    simp
  · intro p hp
    change m.pending e s = some p at hp
    rw [hnone] at hp
    cases hp
  · rw [hpc', hfirst]
    cases hb : m.own.coreBitmap.getMsbD (s / 64) with
    | false => exact ⟨hnone, hr, hb, hver⟩
    | true => exact ⟨hnone, hr, hb, hver⟩
  · intro hc
    change m.own.coreBitmap.getMsbD (s / 64) = true at hc
    exact Or.inr ⟨region, m.heap.next, by rw [hpc', hfirst, hc]; rfl⟩
  · intro hc p hp
    unfold Heap.Finished
    rw [x.version p (h.kept.lt_next (mem_live_of_slots turn.core_lt hp))]
    exact h.leftovers _ turn.core_lt hc p hp

/-- The first write of a core in the epoch collects what the core left behind. -/
theorem first_write (h : Opened W e t m.toRow m.own pcs) (turn : Turn W e t pcs s)
    {region : Nat} {v : Ptr} (hpc : pcs s = .firstWrite region v) :
    let first := (m.controller.regions region).firstWrite (s / 64) m.heap
    let m' := { m with heap := first.2, controller := m.controller.setRegion region first.1 }
    Opened W e t m'.toRow m'.own (Function.update pcs s (.appendSlot region v)) ∧
      PoolStep m m' := by
  intro first m'
  obtain ⟨hnone, hr, hbit, hv⟩ : m.pending e s = none ∧ m.value.rowRegion = some region ∧
      m.own.coreBitmap.getMsbD (s / 64) = false ∧ m.heap.version v = ⟨none, .pending⟩ := by
    have := h.calls s turn.member
    rwa [hpc] at this
  have hsome : m.value.rowRegion ≠ none := by simp [hr]
  have hfirst : first = m.own.firstWrite (s / 64) m.heap := by
    rw [m.own_of_some hr]
  obtain ⟨hpool, hown'⟩ : PoolStep m m' ∧ m'.own = first.1 := PoolStep.own hr rfl rfl
  rw [hfirst] at hown'
  have hheap : m'.heap = m.heap.deleteAll (m.own.arrays (s / 64)).slots := by
    change first.2 = _
    rw [hfirst]
    rfl
  have hcores := m.own.firstWrite_core m.heap turn.core_lt
  have hself : m'.own.coreBitmap.getMsbD (s / 64) = true := by
    rw [hown']
    exact (hcores _).mpr (Or.inl rfl)
  have x : Extends e s m.toRow m'.toRow m.own m'.own := by
    refine ⟨?_, fun _ _ _ => rfl, fun _ hr' => hr', ?_, rfl, rfl⟩
    · intro p _
      rw [hheap, Heap.deleteAll_version]
    · intro _ c hc
      rw [hown', RowRegion.firstWrite_arrays]
      refine ⟨Bool.eq_iff_iff.mpr ((hcores c).trans ?_), Function.update_of_ne hc _ _⟩
      simp [hc]
  refine ⟨h.step turn x hnone ⟨h.kept.shape, fun hn => absurd hn hsome, h.kept.ascending, ?_,
    ?_, ?_⟩ ?_ ?_ ⟨hnone, hr, hself, ?_⟩ (h.populated_of x turn.member hsome ?_)
    (h.leftovers_of x hsome ?_), hpool⟩
  · rw [hown']
    exact m.own.firstWrite_wellFormed m.heap turn.core_lt h.kept.wellFormed
  · have hp := h.kept.places
    have ho := m.own.firstWrite_owned m.heap turn.core_lt
    rw [held_same turn.lt (by rw [hpc]; rfl)]
    simp only [live] at hp ⊢
    have hvalue : m'.value = m.value := rfl
    rw [hown', hheap, hvalue, Heap.deleteAll_freed, Heap.deleteAll_next, ← hp, ← ho,
      ← Multiset.coe_add]
    abel
  · rw [hheap]
    apply h.kept.clean.deleteAll
    exact h.leftovers _ turn.core_lt hbit
  · intro i p
    have he : contents m'.toRow m'.own = contents m.toRow m.own := by
      unfold contents
      rw [hown', m.own.firstWrite_entries m.heap turn.core_lt hbit]
    rw [he]
    change _ ↔ (i = s ∧ m.pending e s = some p) ∨ _
    rw [hnone]
    simp
  · intro p hp
    change m.pending e s = some p at hp
    rw [hnone] at hp
    cases hp
  · rw [hheap, Heap.deleteAll_version]
    exact hv
  · exact fun _ => Or.inr ⟨region, v, rfl⟩
  · intro hc
    rw [hself] at hc
    cases hc

/-- The append itself, without the lock. -/
theorem append_slot (h : Opened W e t m.toRow m.own pcs) (turn : Turn W e t pcs s)
    {region : Nat} {v : Ptr} (hpc : pcs s = .appendSlot region v) :
    let appended := (m.controller.regions region).appendSlot (s / 64) v (getTxSerial s)
    let m' := Memory.setPending { m with controller := m.controller.setRegion region appended }
      e s v
    Opened W e t m'.toRow m'.own (Function.update pcs s .done) ∧ PoolStep m m' := by
  intro appended m'
  obtain ⟨hnone, hr, hbit, hv⟩ : m.pending e s = none ∧ m.value.rowRegion = some region ∧
      m.own.coreBitmap.getMsbD (s / 64) = true ∧ m.heap.version v = ⟨none, .pending⟩ := by
    have := h.calls s turn.member
    rwa [hpc] at this
  have hsome : m.value.rowRegion ≠ none := by simp [hr]
  have htx : getTxSerial s < 64 := Nat.mod_lt s (by omega)
  have hbelow := tx_below h turn hnone hbit
  have happ : appended = m.own.appendSlot (s / 64) v (getTxSerial s) := by
    rw [m.own_of_some hr]
  obtain ⟨hpool, hown'⟩ : PoolStep m m' ∧ m'.own = appended := PoolStep.own hr rfl rfl
  rw [happ] at hown'
  have hself : m'.pending e s = some v := Memory.setPending_self _ _ _ _
  have hslots : (m'.own.arrays (s / 64)).slots = (m.own.arrays (s / 64)).slots ++ [v] := by
    rw [hown', RowRegion.appendSlot_arrays, Function.update_self,
      RowRegion.append_slots h.kept.wellFormed hbit]
  have x : Extends e s m.toRow m'.toRow m.own m'.own := by
    refine ⟨fun _ _ => rfl, ?_, fun _ hr' => hr', ?_, rfl, rfl⟩
    · exact fun e' s' hne => Memory.setPending_other _ _ hne
    · intro _ c hc
      rw [hown', RowRegion.appendSlot_arrays]
      exact ⟨rfl, Function.update_of_ne hc _ _⟩
  refine ⟨h.step turn x hnone ⟨h.kept.shape, fun hn => absurd hn hsome, h.kept.ascending, ?_,
    ?_, h.kept.clean⟩ ?_ ?_ ?_ (h.populated_of x turn.member hsome ?_)
    (h.leftovers_of x hsome ?_), hpool⟩
  · rw [hown']
    exact RowRegion.appendSlot_wellFormed h.kept.wellFormed hbit htx hbelow
  · have hp := h.kept.places
    have hu := held_update turn.lt pcs .done
    have hz : (pcs s).hands = {v} := by rw [hpc]; rfl
    have hz' : Pc.done.hands = 0 := rfl
    have hheap : m'.heap = m.heap := rfl
    have hvalue : m'.value = m.value := rfl
    rw [hz, hz', add_zero] at hu
    rw [← hu] at hp
    simp only [live] at hp ⊢
    rw [hown', hheap, hvalue, RowRegion.appendSlot_owned h.kept.wellFormed hbit, ← hp]
    abel
  · intro i p
    rw [contents_region h.kept hsome, hself, Option.some.injEq]
    have he : contents m'.toRow m'.own = insertEntry (s : Int) v m.own.entries := by
      rw [contents, hown', RowRegion.appendSlot_entries h.kept.wellFormed hbit htx hbelow, entry_id]
      change m.value.globalArray.idsSlots ++ _ = _
      rw [h.kept.shape hsome, List.nil_append]
    rw [he, mem_insertEntry, Prod.mk.injEq, eq_comm (a := p)]
  · intro p hp
    rw [hself, Option.some.injEq] at hp
    subst hp
    refine ⟨hv, h.kept.not_live (mem_held turn.lt ?_)⟩
    rw [hpc]
    exact Multiset.mem_singleton_self v
  · simp [AppendOk, hself]
  · intro _
    rw [hslots]
    exact Or.inl (by simp)
  · intro hc
    rw [hown', RowRegion.appendSlot_core, hbit] at hc
    cases hc

/-- The installation of a region: it takes over the array's versions before any
other worker can see it. -/
theorem install (h : Opened W e t m.toRow m.own pcs) (turn : Turn W e t pcs s)
    (hpc : pcs s = .waitLocked) (hr : m.value.rowRegion = none)
    (hfresh : m.controller.regions m.controller.used = RowRegion.fresh) :
    let moved := moveGlobalArrayToRowRegion m.value.globalArray
      (m.controller.regions m.controller.used) m.heap
    let m' : Memory := { m with
      heap := moved.2.2
      value := { m.value with globalArray := moved.1, rowRegion := some m.controller.used }
      controller := RowRegionController.setRegion
        { m.controller with used := m.controller.used + 1 } m.controller.used moved.2.1 }
    Opened W e t m'.toRow m'.own (Function.update pcs s (.waitUnlock m.controller.used)) ∧
      PoolStep m m' := by
  intro moved m'
  have hnone : m.pending e s = none := by
    have := h.calls s turn.member
    rwa [hpc] at this
  have hown := m.own_of_none hr
  have hcon : contents m.toRow m.own = m.value.globalArray.idsSlots := by
    rw [contents, hown, RowRegion.entries_fresh, List.append_nil]
  have hrange : ∀ x ∈ m.value.globalArray.idsSlots, 0 ≤ x.1 ∧ x.1 < 4096 := by
    rintro ⟨i, p⟩ hx
    rw [← hcon] at hx
    obtain ⟨s', rfl, hp⟩ := (h.contents i p).mp hx
    have := turn.bound s' (h.members s' (by rw [hp]; exact Option.some_ne_none p))
    unfold numTxsInOneEpoch at this
    simp only
    omega
  obtain ⟨region, hmoved, hpop, hunused, hent, howned⟩ := @move_spec m.value.globalArray m.heap
    h.kept.ascending hrange
  have hm : moved = (⟨[]⟩, region, m.heap) := by
    rw [← hmoved, ← hfresh]
  have hown' : m'.own = region := by
    rw [Memory.own_of_some rfl]
    exact (Function.update_self _ _ _).trans (by rw [hm])
  have hheap : m'.heap = m.heap := by
    change moved.2.2 = _
    rw [hm]
  have hids : m'.value.globalArray.idsSlots = [] := by
    change moved.1.idsSlots = _
    rw [hm]
  have hcon' : contents m'.toRow m'.own = contents m.toRow m.own := by
    rw [contents, hown', hids, hent, hcon, List.nil_append]
  refine ⟨h.step turn ⟨?_, fun _ _ _ => rfl, ?_, fun hn => absurd hr hn, rfl, rfl⟩ hnone
    ⟨fun _ => hids, ?_, ?_, ?_, ?_, ?_⟩ ?_ ?_ ⟨hnone, rfl⟩ ?_ ?_, ⟨?_, Or.inr ⟨hr, rfl, rfl⟩⟩⟩
  · intro p _
    rw [hheap]
  · intro r hr'
    rw [hr] at hr'
    cases hr'
  · intro hn
    cases hn
  · rw [hids]
    exact .nil
  · rw [hown']
    exact hpop.wellFormed
  · have hp := h.kept.places
    rw [held_same turn.lt (by rw [hpc]; rfl)]
    simp only [live, hown, RowRegion.owned_fresh, add_zero] at hp
    simp only [live]
    rw [hown', hids, hheap, howned, ← hp]
    simp only [List.map_nil, Multiset.coe_nil, add_zero]
    rfl
  · rw [hheap]
    exact h.kept.clean
  · intro i p
    rw [hcon']
    change _ ↔ (i = s ∧ m.pending e s = some p) ∨ _
    rw [hnone]
    simp
  · intro p hp
    change m.pending e s = some p at hp
    rw [hnone] at hp
    cases hp
  · rw [hown']
    exact fun c hc => Or.inl (hpop.nonempty c hc)
  · rw [hown']
    intro c _ hc p hp
    rw [hunused c hc] at hp
    cases hp
  · intro i hi
    have hne : i ≠ m.controller.used := fun he => hi (by rw [he])
    exact Function.update_of_ne hne _ _

end Append
end Mvdcc.Serval
