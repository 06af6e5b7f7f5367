import Mvdcc.Serval.Initialization

namespace Mvdcc.Serval
open Library Bitmap

/-- What a read resolves to: the entry below its serial id if the row was written
in its epoch, and the master version otherwise. -/
def visibleOf (row : Row) (own : RowRegion) (e s : Nat) : Option Ptr × Bool :=
  if row.value.epoch ≠ e then (row.value.master, false)
  else
    match entryBelow (s : Int) (contents row own) with
    | some (_, p) => (some p, true)
    | none => (row.value.master, false)

/-- Where the write of transaction `s` has got with its version. -/
def WriterOk (row : Row) (e s : Nat) (pc : Pc) : Prop :=
  ∃ p, row.pending e s = some p ∧
    match pc with
    | .start => row.heap.version p = ⟨none, .pending⟩
    | .storeStable q => q = p ∧ row.heap.version p = ⟨some (.written e s), .pending⟩
    | .done => row.heap.version p = ⟨some (.written e s), .stable⟩
    | _ => False

/-- Where the read of transaction `s` has got with the version it resolved to. -/
def ReaderOk (row : Row) (own : RowRegion) (e s : Nat) : Pc → Prop
  | .start | .done => True
  | .waitStable v => visibleOf row own e s = (some v, true)
  | .fetch v => ∃ b, visibleOf row own e s = (some v, b) ∧ (row.heap.version v).status = .stable
  | .returning r => ∃ v b, visibleOf row own e s = (some v, b) ∧
      (row.heap.version v).status = .stable ∧ r = (row.heap.version v).record
  | _ => False

/-- A row written in the epoch, in its execution phase. -/
structure Written (W : List Nat) (e : Nat) (t : Trail) (row : Row) (own : RowRegion)
    (pcs : Nat → Pc) : Prop where
  kept : Kept row own 0
  epoch : row.value.epoch = e
  master : ∃ q, row.value.master = some q ∧ IsVersionOf row t.latest q
  contents : ∀ i p, (i, p) ∈ contents row own ↔ ∃ s : Nat, i = s ∧ row.pending e s = some p
  members : ∀ s, row.pending e s ≠ none → s ∈ W
  injective : ∀ s s' p, row.pending e s = some p → row.pending e s' = some p → s = s'
  writers : ∀ s ∈ W, WriterOk row e s (pcs s)
  populated : own.Populated
  leftovers : ∀ c < 64, own.coreBitmap.getMsbD c = false →
    ∀ p ∈ (own.arrays c).slots, row.heap.Finished p
  future : ∀ e' s, e < e' → row.pending e' s = none

/-- A row at any point of the execution phase. -/
def Running (W : List Nat) (e : Nat) (t : Trail) (row : Row) (own : RowRegion)
    (pcs : Nat → Pc) : Prop :=
  (W = [] ∧ Settled row own t ∧ ∀ e' s, e ≤ e' → row.pending e' s = none) ∨
    (W ≠ [] ∧ Written W e t row own pcs)

section Execution
variable {W : List Nat} {e : Nat} {t : Trail} {m m' : Memory} {row : Row} {own : RowRegion}
variable {pcs : Nat → Pc} {s : Nat} {pc pc' : Pc}

/-- The four places `read` looks at amount to one search by serial id. -/
theorem readVisible_eq (hk : Kept m.toRow m.own held) (hp : m.own.Populated) (e s : Nat) :
    m.readVisible e (getCoreSerial s) s = visibleOf m.toRow m.own e s := by
  unfold Memory.readVisible visibleOf
  split
  · rfl
  · cases hd : m.value.globalArray.isDirty with
    | true =>
      have hr : m.value.rowRegion = none := by
        by_contra hn
        simp [GlobalVersionArray.isDirty, hk.shape hn] at hd
      rw [contents, hk.installed hr, RowRegion.entries_fresh, List.append_nil,
        ← m.value.globalArray.search_eq hk.ascending]
      rfl
    | false =>
      have hids : m.value.globalArray.idsSlots = [] := by
        simpa [GlobalVersionArray.isDirty] using hd
      rw [contents, hids, List.nil_append]
      cases hr : m.value.rowRegion with
      | none =>
        rw [m.own_of_none hr, RowRegion.entries_fresh]
        rfl
      | some region =>
        rw [m.own_of_some hr] at hp ⊢
        have hspec := @RowRegion.identify_spec _ (getCoreSerial s) (s % 64) hp
          (Nat.mod_lt s (by omega))
        have hid : ((getCoreSerial s * 64 + s % 64 : Nat) : Int) = s := by
          unfold getCoreSerial
          omega
        rw [hid] at hspec
        simp only [Bool.false_eq_true, if_false]
        cases hdirty : (m.controller.regions region).isDirty with
        | true =>
          simp only [if_true]
          cases hv : (m.controller.regions region).identifyVisibleVersion (getCoreSerial s)
              (s % 64) with
          | some x =>
            obtain ⟨c, tx⟩ := x
            rw [hv] at hspec
            obtain ⟨p, hget, hbelow⟩ := hspec
            simp only [getTxSerial, hv, hget, hbelow]
          | none =>
            rw [hv] at hspec
            simp only [getTxSerial, hv, hspec]
        | false =>
          have he : (m.controller.regions region).entries = [] := by
            by_contra hn
            rw [RowRegion.isDirty_of_entries hn] at hdirty
            cases hdirty
          simp only [Bool.false_eq_true, if_false, he]
          rfl

theorem Opened.populated_of_done (h : Opened W e t row own pcs)
    (hd : ∀ s, pcs s = .done) : own.Populated := by
  refine ⟨h.kept.wellFormed, ?_⟩
  intro c hc
  rcases h.populated c hc with hn | ⟨s, _, _, region, v, hp⟩
  · exact hn
  · rw [hd s] at hp
    cases hp

/-- Between the phases: what was appended is what will be written. -/
theorem Preparing.finish {pcs' : Nat → Pc} (h : Preparing W e t row own pcs)
    (hd : ∀ s, pcs s = .done) (hs : ∀ s ∈ W, pcs' s = .start) : Running W e t row own pcs' := by
  rcases h with h | h
  · refine Or.inl ⟨?_, h.settled, h.future⟩
    apply List.eq_nil_iff_forall_not_mem.mpr
    intro s hs
    have := h.calls s hs
    rw [hd s] at this
    exact this
  · refine Or.inr ⟨h.nonempty, ⟨?_, h.epoch, h.master, h.contents, h.members, h.injective, ?_,
      h.populated_of_done hd, h.leftovers, h.future⟩⟩
    · have hk := h.kept
      rwa [Finset.sum_eq_zero (fun s _ => by rw [hd s]; rfl)] at hk
    · intro s hsW
      have hok := h.calls s hsW
      rw [hd s] at hok
      obtain ⟨p, hp⟩ := Option.ne_none_iff_exists'.mp hok
      refine ⟨p, hp, ?_⟩
      rw [hs s hsW]
      exact h.versions s p hp

theorem Kept.fills {heap' : Heap} (h : Kept row own held) (f : Fills row.heap heap' p) :
    Kept { row with heap := heap' } own held := by
  refine ⟨h.shape, h.installed, h.ascending, h.wellFormed, ?_, ?_⟩
  · change ((heap'.reclaimed.map Reclaimed.ptr : List Ptr) : Multiset Ptr) + live row own + held =
      Multiset.range heap'.next
    rw [f.reclaimed, f.next]
    exact h.places
  · intro r hr
    change r ∈ heap'.reclaimed at hr
    rw [f.reclaimed] at hr
    exact h.clean r hr

theorem IsVersionOf.fills {heap' : Heap} {stamp : Option Stamp} {q : Ptr}
    (h : IsVersionOf row stamp q) (f : Fills row.heap heap' p) :
    IsVersionOf { row with heap := heap' } stamp q := by
  refine h.of_same (fun _ _ => rfl) (f.stable ?_)
  cases stamp with
  | none => rw [h.2]
  | some st => rw [h.2]

theorem ReaderOk.fills {heap' : Heap} (h : ReaderOk row own e s pc) (f : Fills row.heap heap' p) :
    ReaderOk { row with heap := heap' } own e s pc := by
  unfold ReaderOk at h ⊢
  split at h
  · trivial
  · trivial
  · exact h
  · obtain ⟨b, hv, hst⟩ := h
    refine ⟨b, hv, ?_⟩
    rw [f.stable hst]
    exact hst
  · obtain ⟨v, b, hv, hst, hr⟩ := h
    refine ⟨v, b, hv, ?_⟩
    rw [f.stable hst]
    exact ⟨hst, hr⟩
  · exact h.elim

/-- A writer filling its own version keeps the row written. -/
theorem Written.fill {heap' : Heap} {p : Ptr} (h : Written W e t row own pcs) (hs : s ∈ W)
    (hp : row.pending e s = some p) (f : Fills row.heap heap' p)
    (hok : WriterOk { row with heap := heap' } e s pc') :
    Written W e t { row with heap := heap' } own (Function.update pcs s pc') := by
  obtain ⟨q, hm, hq⟩ := h.master
  refine ⟨h.kept.fills f, h.epoch, ⟨q, hm, hq.fills f⟩, h.contents, h.members, h.injective, ?_,
    h.populated, fun c h64 hc p hp => f.finished (h.leftovers c h64 hc p hp), h.future⟩
  intro s' hs'
  by_cases he : s' = s
  · subst he
    rw [Function.update_self]
    exact hok
  · rw [Function.update_of_ne he]
    obtain ⟨p', hp', hv⟩ := h.writers s' hs'
    have hne : p' ≠ p := by
      rintro rfl
      exact he (h.injective s' s p' hp' hp)
    refine ⟨p', hp', ?_⟩
    simp only [f.others p' hne]
    exact hv

theorem Running.write_step (h : Running W e t m.toRow m.own pcs) (hs : s ∈ W)
    (hstep : executionStep e core s .update (pcs s) m = some (pc', m')) :
    Running W e t m'.toRow m'.own (Function.update pcs s pc') ∧ m'.value = m.value ∧
      m'.controller = m.controller ∧
      ∀ s' pc, ReaderOk m.toRow m.own e s' pc → ReaderOk m'.toRow m'.own e s' pc := by
  rcases h with ⟨hW, _⟩ | ⟨hW, h⟩
  · rw [hW] at hs
    cases hs
  · obtain ⟨p, hp, hv⟩ := h.writers s hs
    cases hpc : pcs s <;> rw [hpc] at hv hstep <;> try exact hv.elim
    case start =>
      simp only at hv
      simp only [executionStep, hp, Option.some.injEq, Prod.mk.injEq] at hstep
      obtain ⟨rfl, rfl⟩ := hstep
      have f : Fills m.heap (m.heap.storeRec p (.written e s)) p := fills_storeRec (by rw [hv])
      refine ⟨Or.inr ⟨hW, h.fill hs hp f ⟨p, hp, rfl, ?_⟩⟩, rfl, rfl, fun _ _ hr => hr.fills f⟩
      rw [Heap.storeRec_version, if_pos rfl, hv]
    case storeStable q =>
      obtain ⟨rfl, hv⟩ := hv
      simp only [executionStep, Option.some.injEq, Prod.mk.injEq] at hstep
      obtain ⟨rfl, rfl⟩ := hstep
      have f : Fills m.heap (m.heap.storeStable q) q := fills_storeStable (by rw [hv])
      refine ⟨Or.inr ⟨hW, h.fill hs hp f ⟨q, hp, ?_⟩⟩, rfl, rfl, fun _ _ hr => hr.fills f⟩
      simp only [Heap.storeStable_version, if_true, hv]
    case done => simp [executionStep] at hstep

theorem Running.kept (h : Running W e t row own pcs) : Kept row own 0 := by
  rcases h with ⟨_, h, _⟩ | ⟨_, h⟩
  · exact h.kept
  · exact h.kept

theorem Running.populated (h : Running W e t row own pcs) : own.Populated := by
  rcases h with ⟨_, h, _⟩ | ⟨_, h⟩
  · exact h.populated
  · exact h.populated

/-- The master version is there to be read without waiting. -/
theorem Running.master (h : Running W e t row own pcs) :
    ∃ q, row.value.master = some q ∧ (row.heap.version q).status = .stable := by
  rcases h with ⟨_, h, _⟩ | ⟨_, h⟩
  · obtain ⟨q, hm, _⟩ := h.master
    exact ⟨q, hm, (h.finished q (mem_live.mpr (Or.inl hm))).1⟩
  · obtain ⟨q, hm, hq⟩ := h.master
    refine ⟨q, hm, ?_⟩
    cases hl : t.latest with
    | none =>
      rw [hl] at hq
      rw [hq.2]
    | some st =>
      rw [hl] at hq
      rw [hq.2]

theorem visibleOf_cases (h : Running W e t row own pcs) (s : Nat) :
    (∃ v, visibleOf row own e s = (some v, true)) ∨
      ∃ v, visibleOf row own e s = (some v, false) ∧ (row.heap.version v).status = .stable := by
  obtain ⟨q, hm, hst⟩ := h.master
  unfold visibleOf
  split
  · exact Or.inr ⟨q, by rw [hm], hst⟩
  · split
    · exact Or.inl ⟨_, rfl⟩
    · exact Or.inr ⟨q, by rw [hm], hst⟩

theorem Running.read_step (h : Running W e t m.toRow m.own pcs)
    (hr : ReaderOk m.toRow m.own e s pc)
    (hstep : executionStep e (getCoreSerial s) s .read pc m = some (pc', m')) :
    m' = m ∧ ReaderOk m.toRow m.own e s pc' := by
  cases pc <;> simp only [ReaderOk] at hr
  case start =>
    simp only [executionStep, readVisible_eq h.kept h.populated] at hstep
    rcases visibleOf_cases h s with ⟨v, hv⟩ | ⟨v, hv, hst⟩
    · simp only [hv, Option.some.injEq, Prod.mk.injEq] at hstep
      obtain ⟨rfl, rfl⟩ := hstep
      exact ⟨rfl, hv⟩
    · simp only [hv, Option.some.injEq, Prod.mk.injEq] at hstep
      obtain ⟨rfl, rfl⟩ := hstep
      exact ⟨rfl, false, hv, hst⟩
  case waitStable v =>
    simp only [executionStep, Option.some.injEq, Prod.mk.injEq] at hstep
    obtain ⟨rfl, rfl⟩ := hstep
    refine ⟨rfl, ?_⟩
    split
    · exact hr
    · rename_i hst
      refine ⟨true, hr, ?_⟩
      cases hs : (m.heap.version v).status with
      | pending => exact absurd hs hst
      | stable => rfl
  case fetch v =>
    obtain ⟨b, hv, hst⟩ := hr
    simp only [executionStep, Option.some.injEq, Prod.mk.injEq] at hstep
    obtain ⟨rfl, rfl⟩ := hstep
    exact ⟨rfl, v, b, hv, hst, rfl⟩
  case returning r =>
    simp only [executionStep, Option.some.injEq, Prod.mk.injEq] at hstep
    obtain ⟨rfl, rfl⟩ := hstep
    exact ⟨rfl, trivial⟩
  case done => simp [executionStep] at hstep

end Execution
end Mvdcc.Serval
