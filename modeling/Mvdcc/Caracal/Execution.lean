import Mvdcc.Caracal.Appending

namespace Mvdcc.Caracal
open Library

/-- Where the write of transaction `s` has got with its version. -/
def WriterOk (row : Row) (e s : Nat) (pc : Pc) : Prop :=
  ∃ p, row.pending e s = some p ∧
    match pc with
    | .start => row.heap.version p = ⟨none, .pending⟩
    | .storeStable q => q = p ∧ row.heap.version p = ⟨some (.written e s), .pending⟩
    | .done => row.heap.version p = ⟨some (.written e s), .stable⟩
    | _ => False

/-- The version a read resolves to. -/
def Resolves (row : Row) (e s : Nat) (v : Ptr) : Prop :=
  ∃ i, row.globalArray.searchVisibleVersion e s = some (i, v)

/-- Where the read of transaction `s` has got with the version it resolved to. -/
def ReaderOk (row : Row) (e s : Nat) : Pc → Prop
  | .start | .done => True
  | .waitStable v => Resolves row e s v
  | .fetchRec v => Resolves row e s v ∧ (row.heap.version v).status = .stable
  | .returning r => ∃ v, Resolves row e s v ∧ (row.heap.version v).status = .stable ∧
      r = (row.heap.version v).record
  | _ => False

/-- A row in the execution phase: finished versions of before the epoch, the last of
them `x`, and one version for each write of the epoch. -/
structure Executing (W : List Nat) (e : Nat) (x : Version) (row : Row) (pcs : Nat → Pc) : Prop where
  ascending : Ascending row.globalArray.idsSlots
  base : ∃ last ∈ row.globalArray.idsSlots, last.1 < convertToSerialIdWithEpoch e 0 ∧
    (∀ y ∈ row.globalArray.idsSlots, y.1 < convertToSerialIdWithEpoch e 0 → y.1 ≤ last.1) ∧
    row.heap.version last.2 = x
  finished : ∀ y ∈ row.globalArray.idsSlots, y.1 < convertToSerialIdWithEpoch e 0 →
    row.heap.Finished y.2
  entries : ∀ y, y ∈ row.globalArray.idsSlots ∧ convertToSerialIdWithEpoch e 0 ≤ y.1 ↔
    ∃ s ∈ W, row.pending e s = some y.2 ∧ y.1 = convertToSerialIdWithEpoch e s
  places : (row.heap.freed : Multiset Ptr) +
    (row.globalArray.idsSlots.map Prod.snd : Multiset Ptr) = Multiset.range row.heap.next
  clean : row.heap.CleanLog
  writers : ∀ s ∈ W, WriterOk row e s (pcs s)

section Row
variable {W : List Nat} {e s : Nat} {x : Version} {row row' : Row} {pcs : Nat → Pc} {pc pc' : Pc}
variable {before : List (Nat × Ptr)} {slices : Nat → List (Nat × Ptr)} {held : Nat → Option Ptr}

theorem homeOf_nil (slots : List (Nat × Ptr)) :
    homeOf slots (fun _ => []) = (slots.map Prod.snd : Multiset Ptr) := by
  simp [homeOf]

/-- When everything is appended, the row is ready to execute. -/
theorem Appending.executing (h : Appending W e before row.globalArray.idsSlots (fun _ => []) held)
    (hst : Storing W before (homeOf row.globalArray.idsSlots (fun _ => [])) held row.heap x)
    (hr : Ready e before) (hheld : ∀ s ∈ W, row.pending e s = held s)
    (hset : ∀ s ∈ W, held s ≠ none) (hs : ∀ s ∈ W, pcs s = .start) :
    Executing W e x row pcs := by
  obtain ⟨last, hlast, hlt⟩ := hr.last_mem
  have hentries := h.entries
  simp only [Multiset.coe_nil, Finset.sum_const_zero, add_zero, Multiset.coe_eq_coe] at hentries
  -- below the epoch there is nothing but what was there before, its last entry included
  have hold : ∀ y ∈ row.globalArray.idsSlots, y.1 < convertToSerialIdWithEpoch e 0 → y ∈ before := by
    intro y hy hlow
    rcases h.array with hsame | ⟨_, last', hlast', hcons⟩
    · rwa [hsame] at hy
    · rw [hcons] at hy
      rcases List.mem_cons.mp hy with rfl | hy
      · exact List.mem_of_getLast? hlast'
      · exact absurd (mem_ofEpoch.mp hy).2 (Nat.not_le.mpr hlow)
  have hmem : last ∈ row.globalArray.idsSlots := by
    rcases h.array with hsame | ⟨_, last', hlast', hcons⟩
    · rw [hsame]
      exact List.mem_of_getLast? hlast
    · rw [hcons, Option.some.inj (hlast.symm.trans hlast')]
      exact List.mem_cons_self
  refine ⟨h.ascending, ⟨last, hmem, hlt, ?_, hst.base last hlast⟩, ?_, ?_, ?_, hst.clean, ?_⟩
  · exact fun y hy hlow => hr.ascending.le_getLast hlast (hold y hy hlow)
  · exact fun y hy hlow => (hst.old y (hold y hy hlow)).2
  · intro y
    rw [← mem_ofEpoch, hentries.mem_iff, mem_createdEntries]
    constructor
    · rintro ⟨s, hs, hv, hi⟩
      exact ⟨s, hs, (hheld s hs).trans hv, hi⟩
    · rintro ⟨s, hs, hv, hi⟩
      exact ⟨s, hs, (hheld s hs).symm.trans hv, hi⟩
  · rw [← homeOf_nil]
    exact hst.places
  · intro s hsW
    obtain ⟨p, hp⟩ := Option.ne_none_iff_exists'.mp (hset s hsW)
    refine ⟨p, (hheld s hsW).trans hp, ?_⟩
    rw [hs s hsW]
    exact (hst.pending s hsW p hp).2

namespace Executing

theorem places_nodup (h : Executing W e x row pcs) : ((row.heap.freed : Multiset Ptr) +
    (row.globalArray.idsSlots.map Prod.snd : Multiset Ptr)).Nodup := by
  rw [h.places]
  exact Multiset.nodup_range _

/-- A version has one entry only. -/
theorem versions_nodup (h : Executing W e x row pcs) :
    (row.globalArray.idsSlots.map Prod.snd).Nodup :=
  Multiset.coe_nodup.mp (Multiset.nodup_add.mp h.places_nodup).2.1

/-- A version in the array has not been reclaimed. -/
theorem not_freed (h : Executing W e x row pcs) {y : Nat × Ptr}
    (hy : y ∈ row.globalArray.idsSlots) : y.2 ∉ row.heap.freed := by
  intro hf
  exact Multiset.disjoint_left.mp (Multiset.nodup_add.mp h.places_nodup).2.2 hf
    (List.mem_map_of_mem hy)

theorem mem_of_writer (h : Executing W e x row pcs) (hs : s ∈ W) {p : Ptr}
    (hp : row.pending e s = some p) :
    (convertToSerialIdWithEpoch e s, p) ∈ row.globalArray.idsSlots ∧
      convertToSerialIdWithEpoch e 0 ≤ convertToSerialIdWithEpoch e s :=
  (h.entries (convertToSerialIdWithEpoch e s, p)).mpr ⟨s, hs, hp, rfl⟩

theorem injective (h : Executing W e x row pcs) (hlt : ∀ s ∈ W, s < numTxsInOneEpoch) {s' : Nat}
    {p : Ptr} (hs : s ∈ W) (hs' : s' ∈ W) (hp : row.pending e s = some p)
    (hp' : row.pending e s' = some p) : s = s' := by
  have he := List.inj_on_of_nodup_map h.versions_nodup (h.mem_of_writer hs hp).1
    (h.mem_of_writer hs' hp').1 rfl
  have hid := congrArg Prod.fst he
  simp only at hid
  rw [convert_add (serial_lt_word (hlt s hs)), convert_add (serial_lt_word (hlt s' hs'))] at hid
  omega

/-- A writer filling its own version. -/
theorem fill (h : Executing W e x row pcs) (hlt : ∀ s ∈ W, s < numTxsInOneEpoch) (hs : s ∈ W)
    {p : Ptr} (hp : row.pending e s = some p) {heap' : Heap} (f : Fills row.heap heap' p)
    (hx : x.status = .stable) (hok : WriterOk { row with heap := heap' } e s pc') :
    Executing W e x { row with heap := heap' } (Function.update pcs s pc') := by
  refine ⟨h.ascending, ?_, fun y hy hlow => f.finished (h.finished y hy hlow), h.entries, ?_, ?_, ?_⟩
  · obtain ⟨last, hm, hlow, hmax, hver⟩ := h.base
    refine ⟨last, hm, hlow, hmax, ?_⟩
    rw [← hver]
    exact f.stable (by rw [hver, hx])
  · have hfreed : heap'.freed = row.heap.freed := congrArg (List.map Reclaimed.ptr) f.reclaimed
    change (heap'.freed : Multiset Ptr) + _ = Multiset.range heap'.next
    rw [hfreed, f.next]
    exact h.places
  · intro r hr
    change r ∈ heap'.reclaimed at hr
    rw [f.reclaimed] at hr
    exact h.clean r hr
  · intro s' hs'
    by_cases he : s' = s
    · subst he
      rw [Function.update_self]
      exact hok
    · rw [Function.update_of_ne he]
      obtain ⟨p', hp', hv⟩ := h.writers s' hs'
      have hne : p' ≠ p := by
        rintro rfl
        exact he (h.injective hlt hs' hs hp' hp)
      refine ⟨p', hp', ?_⟩
      simp only [f.others p' hne]
      exact hv

end Executing

theorem ReaderOk.fills (h : ReaderOk row e s pc) {p : Ptr} {heap' : Heap}
    (f : Fills row.heap heap' p) : ReaderOk { row with heap := heap' } e s pc := by
  unfold ReaderOk at h ⊢
  split at h
  · trivial
  · trivial
  · exact h
  · obtain ⟨hv, hst⟩ := h
    refine ⟨hv, ?_⟩
    rw [f.stable hst]
    exact hst
  · obtain ⟨v, hv, hst, hr⟩ := h
    refine ⟨v, hv, ?_⟩
    rw [f.stable hst]
    exact ⟨hst, hr⟩
  · exact h.elim

namespace Executing

theorem write_step (h : Executing W e x row pcs) (hlt : ∀ s ∈ W, s < numTxsInOneEpoch)
    (hx : x.status = .stable) (hs : s ∈ W)
    (hstep : executionStep e s .update (pcs s) row = some (pc', row')) :
    Executing W e x row' (Function.update pcs s pc') ∧
      ∀ s' pc, ReaderOk row e s' pc → ReaderOk row' e s' pc := by
  obtain ⟨p, hp, hv⟩ := h.writers s hs
  cases hpc : pcs s <;> rw [hpc] at hv hstep <;> try exact hv.elim
  case start =>
    simp only at hv
    simp only [executionStep, hp, Option.some.injEq, Prod.mk.injEq] at hstep
    obtain ⟨rfl, rfl⟩ := hstep
    have f : Fills row.heap (row.heap.storeRec p (.written e s)) p := fills_storeRec (by rw [hv])
    refine ⟨h.fill hlt hs hp f hx ⟨p, hp, rfl, ?_⟩, fun _ _ hr => hr.fills f⟩
    rw [Heap.storeRec_version, if_pos rfl, hv]
  case storeStable q =>
    obtain ⟨rfl, hv⟩ := hv
    simp only [executionStep, Option.some.injEq, Prod.mk.injEq] at hstep
    obtain ⟨rfl, rfl⟩ := hstep
    have f : Fills row.heap (row.heap.storeStable q) q := fills_storeStable (by rw [hv])
    refine ⟨h.fill hlt hs hp f hx ⟨q, hp, ?_⟩, fun _ _ hr => hr.fills f⟩
    simp only [Heap.storeStable_version, if_true, hv]
  case done => simp [executionStep] at hstep

/-- A search ends at the greatest entry below the reader. -/
theorem search (h : Executing W e x row pcs) (hs : s < numTxsInOneEpoch) :
    ∃ y, row.globalArray.searchVisibleVersion e s = some y ∧ y ∈ row.globalArray.idsSlots ∧
      y.1 < convertToSerialIdWithEpoch e s ∧ ∀ z ∈ row.globalArray.idsSlots,
        z.1 < convertToSerialIdWithEpoch e s → z.1 ≤ y.1 := by
  obtain ⟨last, hm, hlow, _, _⟩ := h.base
  have hbelow : last.1 < convertToSerialIdWithEpoch e s := by
    rw [convert_add (serial_lt_word hs)]
    omega
  rw [GlobalVersionArray.search_eq h.ascending hm hbelow]
  cases hb : entryBelow (convertToSerialIdWithEpoch e s) row.globalArray.idsSlots with
  | none =>
    have := entryBelow_eq_none.mp hb last hm
    omega
  | some y => exact ⟨y, rfl, h.ascending.entryBelow_eq_some.mp hb⟩

theorem read_step (h : ReaderOk row e s pc)
    (hstep : executionStep e s .read pc row = some (pc', row')) :
    row' = row ∧ ReaderOk row e s pc' := by
  cases pc <;> simp only [ReaderOk] at h
  case start =>
    simp only [executionStep] at hstep
    obtain ⟨⟨i, v⟩, hsearch, he⟩ := Option.map_eq_some_iff.mp hstep
    simp only [Prod.mk.injEq] at he
    obtain ⟨rfl, rfl⟩ := he
    exact ⟨rfl, i, hsearch⟩
  case waitStable v =>
    simp only [executionStep, Option.some.injEq, Prod.mk.injEq] at hstep
    obtain ⟨rfl, rfl⟩ := hstep
    refine ⟨rfl, ?_⟩
    split
    · exact h
    · rename_i hst
      refine ⟨h, ?_⟩
      cases hs : (row.heap.version v).status with
      | pending => exact absurd hs hst
      | stable => rfl
  case fetchRec v =>
    simp only [executionStep, Option.some.injEq, Prod.mk.injEq] at hstep
    obtain ⟨rfl, rfl⟩ := hstep
    exact ⟨rfl, v, h.1, h.2, rfl⟩
  case returning r =>
    simp only [executionStep, Option.some.injEq, Prod.mk.injEq] at hstep
    obtain ⟨rfl, rfl⟩ := hstep
    exact ⟨rfl, trivial⟩
  case done => simp [executionStep] at hstep

end Executing
end Row

section Epoch
variable {Key : Type u} [DecidableEq Key] {wl : Workload Key} {k : Key} {W : List Nat} {e s : Nat}
variable {x : Version} {row : Row} {pcs : Nat → Pc} {v : Ptr}

/-- What the first read of an epoch must find. -/
def baseOf (wl : Workload Key) (k : Key) (e : Nat) : Version :=
  ⟨some (recOf (wl.trailOf k e).latest), .stable⟩

namespace Executing

/-- A writer whose version is stable has finished. -/
theorem written (h : Executing W e x row pcs) (hs : s ∈ W) {p : Ptr} (hp : row.pending e s = some p)
    (hst : (row.heap.version p).status = .stable) :
    pcs s = .done ∧ (row.heap.version p).record = some (.written e s) := by
  obtain ⟨q, hq, hv⟩ := h.writers s hs
  rw [hp, Option.some.injEq] at hq
  subst hq
  cases hpc : pcs s <;> rw [hpc] at hv <;> try exact hv.elim
  · simp only at hv
    rw [hv] at hst
    cases hst
  · rw [hv.2] at hst
    cases hst
  · simp only at hv
    exact ⟨rfl, by rw [hv]⟩

/-- A version at hand is the last one serialized before its reader, and is not reclaimed. -/
theorem reads_last (h : Executing (wl.writers k e) e (baseOf wl k e) row pcs) (he : 1 ≤ e)
    (hs : s < numTxsInOneEpoch) (hv : Resolves row e s v)
    (hst : (row.heap.version v).status = .stable) :
    v ∉ row.heap.freed ∧ ∃ r, (row.heap.version v).record = some r ∧ wl.ReadsLast k e s r := by
  obtain ⟨y, hsearch, hy, hbelow, hmax⟩ := h.search hs
  obtain ⟨i, hv⟩ := hv
  rw [hsearch, Option.some.injEq] at hv
  subst hv
  refine ⟨h.not_freed hy, ?_⟩
  -- writers below the reader have entries, and none lies above the one found
  have hwriter : ∀ s', wl.Writes k e s' → s' < s →
      convertToSerialIdWithEpoch e s' ≤ i := by
    intro s' hs' hlt
    have hm := (wl.writes_iff.mp hs').2
    obtain ⟨p, hp, _⟩ := h.writers s' hm
    refine hmax _ (h.mem_of_writer hm hp).1 ?_
    simp only
    rw [convert_add (serial_lt_word hs), convert_add (serial_lt_word (wl.mem_writers.mp hm).1)]
    omega
  by_cases hlow : i < convertToSerialIdWithEpoch e 0
  · obtain ⟨last, hm, hlast, hle, hver⟩ := h.base
    have heq : last = (i, v) := by
      refine h.ascending.unique hm hy (Nat.le_antisymm ?_ (hle _ hy hlow))
      refine hmax last hm ?_
      rw [convert_add (serial_lt_word hs)]
      omega
    rw [heq] at hver
    refine ⟨recOf (wl.trailOf k e).latest, by rw [hver]; rfl, ?_⟩
    refine wl.readsLast_start ?_ (wl.readsLast_latest k e)
    intro s' hs' hlt
    have hle' := hwriter s' hs' hlt
    rw [convert_add (serial_lt_word (wl.mem_writers.mp (wl.writes_iff.mp hs').2).1)] at hle'
    omega
  · obtain ⟨s', hm, hp, hi⟩ := (h.entries (i, v)).mp ⟨hy, Nat.not_lt.mp hlow⟩
    simp only at hp hi hbelow
    have hlt := (wl.mem_writers.mp hm).1
    refine ⟨.written e s', (h.written hm hp hst).2, ?_⟩
    rw [hi, convert_add (serial_lt_word hs), convert_add (serial_lt_word hlt)] at hbelow
    refine isLastWrite_same (wl.writes_iff.mpr ⟨he, hm⟩) (by omega) ?_
    intro s'' hs'' hlt'
    have hle := hwriter s'' hs'' hlt'
    rw [hi, convert_add (serial_lt_word hlt),
      convert_add (serial_lt_word (wl.mem_writers.mp (wl.writes_iff.mp hs'').2).1)] at hle
    omega

/-- Every entry is of an epoch before the next. -/
theorem below_next (h : Executing (wl.writers k e) e x row pcs) (hnext : e + 1 < 2 ^ 32)
    {y : Nat × Ptr} (hy : y ∈ row.globalArray.idsSlots) :
    y.1 < convertToSerialIdWithEpoch (e + 1) 0 := by
  by_cases hlow : y.1 < convertToSerialIdWithEpoch e 0
  · exact Nat.lt_of_lt_of_le hlow (convert_start_le (Nat.le_succ e) hnext (by decide))
  · obtain ⟨s, hs, _, hi⟩ := (h.entries y).mp ⟨hy, Nat.not_lt.mp hlow⟩
    rw [hi]
    refine (convert_lt (by omega) (serial_lt_word (wl.mem_writers.mp hs).1) hnext (by decide)).mpr ?_
    exact Or.inl (Nat.lt_succ_self e)

/-- The last entry of an executed row holds what the next epoch's first read must find. -/
theorem last_version (h : Executing (wl.writers k e) e (baseOf wl k e) row pcs) (he : 1 ≤ e)
    (hdone : ∀ s, pcs s = .done) {last : Nat × Ptr}
    (hlast : row.globalArray.idsSlots.getLast? = some last) :
    row.heap.version last.2 = baseOf wl k (e + 1) := by
  have hmem := List.mem_of_getLast? hlast
  by_cases hlow : last.1 < convertToSerialIdWithEpoch e 0
  · have hnil : wl.writers k e = [] := by
      apply List.eq_nil_iff_forall_not_mem.mpr
      intro s hs
      obtain ⟨p, hp, _⟩ := h.writers s hs
      obtain ⟨hm, hle⟩ := h.mem_of_writer hs hp
      have := h.ascending.le_getLast hlast hm
      simp only at this
      omega
    obtain ⟨first, hm, _, hmax, hver⟩ := h.base
    have heq : first = last :=
      h.ascending.unique hm hmem (Nat.le_antisymm (h.ascending.le_getLast hlast hm) (hmax _ hmem hlow))
    rw [← heq, hver]
    unfold baseOf Workload.trailOf
    rw [trail_succ_none (wl.finalWriter_none hnil)]
  · obtain ⟨s, hs, hp, hi⟩ := (h.entries last).mp ⟨hmem, Nat.not_lt.mp hlow⟩
    obtain ⟨w, hw, hm, hmax⟩ := wl.finalWriter_some he (List.ne_nil_of_mem hs)
    have hsw : s = w := by
      refine Nat.le_antisymm (hmax s hs) ?_
      obtain ⟨p, hp', _⟩ := h.writers w hm
      have hle := h.ascending.le_getLast hlast (h.mem_of_writer hm hp').1
      simp only at hle
      rw [hi, convert_add (serial_lt_word (wl.mem_writers.mp hs).1),
        convert_add (serial_lt_word (wl.mem_writers.mp hm).1)] at hle
      omega
    obtain ⟨q, hq, hv⟩ := h.writers s hs
    rw [hp, Option.some.injEq] at hq
    rw [hdone s] at hv
    rw [hq, hv, hsw]
    unfold baseOf Workload.trailOf
    rw [trail_succ_some hw]
    rfl

/-- Between the epochs: a row that was executed is ready for the next initialization phase. -/
theorem settle (h : Executing (wl.writers k e) e (baseOf wl k e) row pcs) (he : 1 ≤ e)
    (hnext : e + 1 < 2 ^ 32) (hdone : ∀ s, pcs s = .done) {held : Nat → Option Ptr}
    (hheld : ∀ s ∈ W, held s = none) : Ready (e + 1) row.globalArray.idsSlots ∧
      Storing W row.globalArray.idsSlots (homeOf row.globalArray.idsSlots (fun _ => [])) held
        row.heap (baseOf wl k (e + 1)) := by
  obtain ⟨first, hfirst, _, _, _⟩ := h.base
  refine ⟨⟨List.ne_nil_of_mem hfirst, h.ascending, fun y hy => h.below_next hnext hy⟩, ?_, h.clean,
    ?_, fun last hlast => h.last_version he hdone hlast, ?_⟩
  · rw [homeOf_nil]
    exact h.places
  · intro y hy
    have hlt : y.2 < row.heap.next := by
      have hm : y.2 ∈ Multiset.range row.heap.next := by
        rw [← h.places]
        exact Multiset.mem_add.mpr (Or.inr (Multiset.mem_coe.mpr (List.mem_map_of_mem hy)))
      exact Multiset.mem_range.mp hm
    refine ⟨hlt, ?_⟩
    by_cases hlow : y.1 < convertToSerialIdWithEpoch e 0
    · exact h.finished y hy hlow
    · obtain ⟨s, hs, hp, _⟩ := (h.entries y).mp ⟨hy, Nat.not_lt.mp hlow⟩
      obtain ⟨q, hq, hv⟩ := h.writers s hs
      rw [hp, Option.some.injEq] at hq
      rw [hdone s] at hv
      simp only at hv
      rw [Heap.Finished, hq, hv]
      exact ⟨rfl, Option.some_ne_none _⟩
  · intro s hs v hv
    rw [hheld s hs] at hv
    cases hv

end Executing
end Epoch
end Mvdcc.Caracal
