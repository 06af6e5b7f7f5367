import Mvdcc.Caracal.AppendStep

namespace Mvdcc.Caracal
open Library

section Linked
variable {Key : Type u} {wl : Workload Key} {cfg : Config} {s s' : State Key}
variable {w serial : Nat} {k : Key} {c : Call Key} {rest : List (Call Key)} {pc : Pc}
variable {m : Memory Key}

/-- The pairs of row and buffer that a worker's finalization still has in hand. -/
def Finalizer.pairs (f : Finalizer Key) : List (Key × Nat) :=
  match f.pc with
  | .flush k b => (k, b) :: f.pass
  | _ => f.pass

theorem pairs_of_scan {f : Finalizer Key} (hpc : f.pc = .scan) : f.pairs = f.pass := by
  unfold Finalizer.pairs
  rw [hpc]

variable [DecidableEq Key]

def State.slices (s : State Key) (k : Key) : Nat → List (Nat × Ptr) :=
  slicesOf s.controller (s.rows k).rowBuffer

def State.heldBy (s : State Key) (k : Key) (serial : Nat) : Option Ptr :=
  (s.place k .update serial).heldBy ((s.rows k).pending s.epoch serial)

def State.data (s : State Key) (k : Key) : RowData :=
  ⟨(s.rows k).globalArray.idsSlots, (s.rows k).heap, s.slices k, s.heldBy k⟩

/-- A pair in a map or in a pass: a row that is written, and its row buffer. -/
def State.Leads (wl : Workload Key) (s : State Key) (x : Key × Nat) : Prop :=
  (s.rows x.1).rowBuffer = some x.2 ∧ wl.writers x.1 s.epoch ≠ []

/-- A call on the row whose slice is full. -/
def State.FullOn (s : State Key) (w : Nat) (k : Key) : Prop :=
  ∃ c rest, (s.workers w).todo = c :: rest ∧ c.index = k ∧ (s.workers w).pc.full = true

/-- What links calls, maps and finalizers to the row buffers in the initialization
phase. A slice with entries is registered for the end of the phase, or full and about
to be flushed. -/
structure Linked (wl : Workload Key) (s : State Key) : Prop where
  remaining : Remaining (program wl .initialization s.epoch) s.workers
  unowned : ∀ b, (∀ k, (s.rows k).rowBuffer ≠ some b) → ∀ c, (s.controller.slice b c).idsSlots = []
  target : ∀ w c rest, (s.workers w).todo = c :: rest →
    ∀ b, (s.workers w).pc.target = some b → (s.rows c.index).rowBuffer = some b
  mapped : ∀ w, ∀ x ∈ (s.own w).appendedCoreBuffers.entries, s.Leads wl x
  passed : ∀ w, ∀ x ∈ (s.finalizers w).pairs, s.Leads wl x
  flushed : ∀ w k, (s.finalizers w).pc = .unlock k →
    wl.writers k s.epoch ≠ [] ∧ s.slices k w = []
  registered : ∀ w k, s.slices k w ≠ [] →
    (∃ b, (k, b) ∈ (s.own w).appendedCoreBuffers.entries) ∨ s.FullOn w k
  handed : ∀ k, ∀ serial ∈ wl.writers k s.epoch, s.place k .update serial = .done →
    (s.rows k).pending s.epoch serial ≠ none
  outside : ∀ w, 64 ≤ w → (s.own w).appendedCoreBuffers = .empty

theorem rows_advance_self : (s.advance w k pc m).rows k = m.toRow :=
  Function.update_self _ _ _

theorem rows_advance_of_ne {k' : Key} (h : k' ≠ k) : (s.advance w k pc m).rows k' = s.rows k' :=
  Function.update_of_ne h _ _

section Advance

theorem data_advance_self (hr : Remaining (program wl .initialization s.epoch) s.workers)
    (htodo : (s.workers w).todo = c :: rest) (pc : Pc) (m : Memory Key)
    (hpending : ∀ e' s', e' ≠ s.epoch ∨ s' ≠ c.serial →
      m.pending e' s' = (s.rows c.index).pending e' s') :
    (s.advance w c.index pc m).data c.index = m.data (Function.update (s.heldBy c.index) c.serial
      (pc.heldBy (m.pending s.epoch c.serial))) := by
  have hope := (head_writer hr rfl htodo).1
  have hplace := place_advance_self hr htodo pc m
  rw [hope] at hplace
  have hheld : (s.advance w c.index pc m).heldBy c.index = Function.update (s.heldBy c.index)
      c.serial (pc.heldBy (m.pending s.epoch c.serial)) := by
    funext serial
    unfold State.heldBy
    rw [hplace, rows_advance_self]
    by_cases hs : serial = c.serial
    · subst hs
      rw [Function.update_self, Function.update_self]
      rfl
    · rw [Function.update_of_ne hs, Function.update_of_ne hs]
      congr 1
      exact hpending s.epoch serial (Or.inr hs)
  unfold State.data Memory.data State.slices
  rw [hheld, rows_advance_self]
  rfl

/-- A row keeps its slices while a step touches another row's buffer only. -/
theorem data_advance_other (hr : Remaining (program wl .initialization s.epoch) s.workers)
    (ho : Owned 64 (s.advance w c.index pc m)) (htodo : (s.workers w).todo = c :: rest)
    (hbuffers : ∀ b, m.rowBuffer ≠ some b → m.controller.buffers b = s.controller.buffers b)
    (hk : k ≠ c.index) : (s.advance w c.index pc m).data k = s.data k := by
  have hheld : (s.advance w c.index pc m).heldBy k = s.heldBy k := by
    funext serial
    unfold State.heldBy
    rw [place_advance_other hr htodo (fun he => hk (congrArg Operation.index he)),
      rows_advance_of_ne hk]
    rfl
  have hslices : (s.advance w c.index pc m).slices k = s.slices k := by
    unfold State.slices
    rw [rows_advance_of_ne hk]
    cases hb : (s.rows k).rowBuffer with
    | none => rfl
    | some b =>
      have hne : m.rowBuffer ≠ some b := by
        intro he
        refine hk (ho.row_unique (b := b) ?_ ?_)
        · rw [rows_advance_of_ne hk, hb]
        · rw [rows_advance_self, he]
      funext c'
      unfold slicesOf RowBufferController.slice
      simp only [State.advance]
      rw [hbuffers b hne]
  unfold State.data
  rw [hheld, hslices, rows_advance_of_ne hk]

/-- A step inside a call moves its own row, and no other. -/
theorem advance_moves (h : Linked wl s) (ho : Owned 64 (s.advance w c.index pc m))
    (htodo : (s.workers w).todo = c :: rest)
    (mv : AppendMove (wl.writers c.index s.epoch) s.epoch w c.serial c.index (s.heldBy c.index)
      (s.memory w c.index) m (s.workers w).pc pc) (k : Key) :
    RowMove (wl.writers k s.epoch) s.epoch w (s.data k) ((s.advance w c.index pc m).data k) := by
  by_cases hk : k = c.index
  · subst hk
    rw [data_advance_self h.remaining htodo pc m mv.pending]
    exact mv.move
  · rw [data_advance_other h.remaining ho htodo mv.buffers hk]
    exact .stay

theorem Linked.advance (h : Linked wl s) (ho : Owned 64 (s.advance w c.index pc m))
    (hidle : s.finalizers w = .idle) (hw : w < 64) (htodo : (s.workers w).todo = c :: rest)
    (hkeep : ∀ b, (s.rows c.index).rowBuffer = some b → m.rowBuffer = some b)
    (mv : AppendMove (wl.writers c.index s.epoch) s.epoch w c.serial c.index (s.heldBy c.index)
      (s.memory w c.index) m (s.workers w).pc pc) : Linked wl (s.advance w c.index pc m) := by
  have hself : (s.advance w c.index pc m).workers w = { s.workers w with pc } :=
    Function.update_self _ _ _
  have hother : ∀ w', w' ≠ w → (s.advance w c.index pc m).workers w' = s.workers w' :=
    fun w' hne => Function.update_of_ne hne _ _
  have hown : (s.advance w c.index pc m).own w = m.own := Function.update_self _ _ _
  have hown' : ∀ w', w' ≠ w → (s.advance w c.index pc m).own w' = s.own w' :=
    fun w' hne => Function.update_of_ne hne _ _
  have hbuffer : ∀ k b, (s.rows k).rowBuffer = some b →
      ((s.advance w c.index pc m).rows k).rowBuffer = some b := by
    intro k b hb
    by_cases hk : k = c.index
    · subst hk
      rw [rows_advance_self]
      exact hkeep b hb
    · rwa [rows_advance_of_ne hk]
  have hleads : ∀ x, s.Leads wl x → (s.advance w c.index pc m).Leads wl x :=
    fun x hx => ⟨hbuffer x.1 x.2 hx.1, hx.2⟩
  have hmoves := advance_moves h ho htodo mv
  have hW := (head_writer h.remaining rfl htodo).2
  refine ⟨h.remaining.advance w pc, ?_, ?_, ?_, fun w' x hx => hleads x (h.passed w' x hx), ?_, ?_,
    ?_, ?_⟩
  · intro b hb c'
    have hm : m.rowBuffer ≠ some b := by
      have := hb c.index
      rwa [rows_advance_self] at this
    have hold := h.unowned b (fun k he => hb k (hbuffer k b he)) c'
    unfold RowBufferController.slice at hold ⊢
    simp only [State.advance]
    rw [mv.buffers b hm]
    exact hold
  · intro w' c' rest' htodo' b hb
    by_cases hww : w' = w
    · subst hww
      rw [hself] at htodo' hb
      simp only [htodo, List.cons.injEq] at htodo'
      rw [← htodo'.1, rows_advance_self]
      exact mv.target b hb
    · rw [hother w' hww] at htodo' hb
      exact hbuffer _ _ (h.target w' c' rest' htodo' b hb)
  · intro w' x hx
    by_cases hww : w' = w
    · subst hww
      rw [hown] at hx
      rcases mv.mapped x hx with hx | ⟨hk, hb⟩
      · exact hleads x (h.mapped w' x hx)
      · unfold State.Leads
        rw [hk, rows_advance_self]
        exact ⟨hb, List.ne_nil_of_mem hW⟩
    · rw [hown' w' hww] at hx
      exact hleads x (h.mapped w' x hx)
  · intro w' k hpc
    have hww : w' ≠ w := by
      rintro rfl
      rw [show (s.advance w' c.index pc m).finalizers w' = .idle from hidle] at hpc
      cases hpc
    obtain ⟨hne, hnil⟩ := h.flushed w' k hpc
    exact ⟨hne, ((hmoves k).slices_of_ne hww).trans hnil⟩
  · intro w' k hne
    by_cases hww : w' = w
    · subst hww
      rw [hown]
      by_cases hk : k = c.index
      · subst hk
        unfold State.slices at hne
        rw [rows_advance_self] at hne
        rcases mv.registered hne with hb | hf | ⟨hold, hf⟩
        · exact Or.inl hb
        · exact Or.inr ⟨c, rest, by rw [hself]; exact htodo, rfl, by rw [hself]; exact hf⟩
        · rcases h.registered w' c.index hold with ⟨b, hb⟩ | ⟨c', rest', htodo', _, hf'⟩
          · exact Or.inl ⟨b, mv.kept _ hb⟩
          · rw [hf] at hf'
            cases hf'
      · have hold : s.slices k w' ≠ [] := by
          have hdata := data_advance_other h.remaining ho htodo mv.buffers hk
          rwa [show (s.advance w' c.index pc m).slices k = s.slices k from
            congrArg RowData.slices hdata] at hne
        rcases h.registered w' k hold with ⟨b, hb⟩ | ⟨c', rest', htodo', hk', _⟩
        · exact Or.inl ⟨b, mv.kept _ hb⟩
        · rw [htodo, List.cons.injEq] at htodo'
          exact absurd (htodo'.1 ▸ hk'.symm) hk
    · have hold : s.slices k w' ≠ [] := by
        rwa [show (s.advance w c.index pc m).slices k w' = s.slices k w' from
          (hmoves k).slices_of_ne hww] at hne
      unfold State.FullOn
      rw [hown' w' hww, hother w' hww]
      exact h.registered w' k hold
  · intro k serial hs
    by_cases hk : k = c.index
    · subst hk
      have hplace := place_advance_self h.remaining htodo pc m
      rw [(head_writer h.remaining rfl htodo).1] at hplace
      rw [hplace, rows_advance_self]
      by_cases he : serial = c.serial
      · subst he
        rw [Function.update_self]
        exact mv.handed
      · rw [Function.update_of_ne he, show (s.advance w c.index pc m).epoch = s.epoch from rfl,
          mv.pending s.epoch serial (Or.inr he)]
        exact h.handed c.index serial hs
    · rw [place_advance_other h.remaining htodo (fun he => hk (congrArg Operation.index he)),
        rows_advance_of_ne hk]
      exact h.handed k serial hs
  · intro w' hle
    rw [hown' w' (by omega)]
    exact h.outside w' hle

end Advance

section Finalize

/-- A step of a worker's finalization. -/
theorem Linked.refinalize (h : Linked wl s) {f : Finalizer Key} (hworkers : s'.workers = s.workers)
    (hepoch : s'.epoch = s.epoch) (hfinalizers : s'.finalizers = Function.update s.finalizers w f)
    (hother : ∀ w', w' ≠ w → s'.own w' = s.own w')
    (hrows : ∀ k, (s'.rows k).rowBuffer = (s.rows k).rowBuffer)
    (hpending : ∀ k, (s'.rows k).pending = (s.rows k).pending)
    (hunowned : ∀ b, (∀ k, (s.rows k).rowBuffer ≠ some b) →
      s'.controller.buffers b = s.controller.buffers b)
    (hslices : ∀ w' k, s'.slices k w' ≠ [] → s.slices k w' ≠ [])
    (hmapped : ∀ x ∈ (s'.own w).appendedCoreBuffers.entries,
      x ∈ (s.own w).appendedCoreBuffers.entries)
    (hkept : ∀ x ∈ (s.own w).appendedCoreBuffers.entries, s'.slices x.1 w ≠ [] →
      x ∈ (s'.own w).appendedCoreBuffers.entries)
    (hpassed : ∀ x ∈ f.pairs,
      x ∈ (s.finalizers w).pairs ∨ x ∈ (s.own w).appendedCoreBuffers.entries)
    (hflushed : ∀ k, f.pc = .unlock k → wl.writers k s.epoch ≠ [] ∧ s'.slices k w = []) :
    Linked wl s' := by
  have hleads : ∀ x, s.Leads wl x → s'.Leads wl x := by
    intro x hx
    unfold State.Leads
    rw [hrows, hepoch]
    exact hx
  refine ⟨?_, ?_, ?_, ?_, ?_, ?_, ?_, ?_, ?_⟩
  · rw [hworkers, hepoch]
    exact h.remaining
  · intro b hb c
    have hb' : ∀ k, (s.rows k).rowBuffer ≠ some b := fun k => hrows k ▸ hb k
    have hold := h.unowned b hb' c
    unfold RowBufferController.slice at hold ⊢
    rw [hunowned b hb']
    exact hold
  · intro w' c rest
    rw [hworkers]
    intro htodo b hb
    rw [hrows]
    exact h.target w' c rest htodo b hb
  · intro w' x hx
    by_cases hww : w' = w
    · subst hww
      exact hleads x (h.mapped w' x (hmapped x hx))
    · rw [hother w' hww] at hx
      exact hleads x (h.mapped w' x hx)
  · intro w' x hx
    rw [hfinalizers] at hx
    by_cases hww : w' = w
    · subst hww
      rw [Function.update_self] at hx
      rcases hpassed x hx with hx | hx
      · exact hleads x (h.passed w' x hx)
      · exact hleads x (h.mapped w' x hx)
    · rw [Function.update_of_ne hww] at hx
      exact hleads x (h.passed w' x hx)
  · intro w' k hpc
    rw [hfinalizers] at hpc
    by_cases hww : w' = w
    · subst hww
      rw [Function.update_self] at hpc
      rw [hepoch]
      exact hflushed k hpc
    · rw [Function.update_of_ne hww] at hpc
      obtain ⟨hW, hnil⟩ := h.flushed w' k hpc
      refine ⟨hepoch ▸ hW, ?_⟩
      by_contra hne
      exact hslices w' k hne hnil
  · intro w' k hne
    unfold State.FullOn
    rw [hworkers]
    rcases h.registered w' k (hslices w' k hne) with ⟨b, hb⟩ | hf
    · refine Or.inl ⟨b, ?_⟩
      by_cases hww : w' = w
      · subst hww
        exact hkept _ hb hne
      · rwa [hother w' hww]
    · exact Or.inr hf
  · intro k serial
    unfold State.place
    rw [hepoch, hworkers, hpending]
    exact h.handed k serial
  · intro w' hle
    by_cases hww : w' = w
    · subst hww
      apply UnorderedMap.eq_empty
      intro k
      apply UnorderedMap.find_eq_none.mpr
      intro v hv
      have hm := hmapped _ hv
      rw [h.outside w' hle] at hm
      cases hm
    · rw [hother w' hww]
      exact h.outside w' hle

theorem data_congr (hworkers : s'.workers = s.workers) (hepoch : s'.epoch = s.epoch)
    (hslots : (s'.rows k).globalArray.idsSlots = (s.rows k).globalArray.idsSlots)
    (hheap : (s'.rows k).heap = (s.rows k).heap) (hslices : s'.slices k = s.slices k)
    (hpending : (s'.rows k).pending = (s.rows k).pending) : s'.data k = s.data k := by
  have hheld : s'.heldBy k = s.heldBy k := by
    funext serial
    unfold State.heldBy State.place
    rw [hworkers, hepoch, hpending]
  unfold State.data
  rw [hslots, hheap, hslices, hheld]

/-- What a flush at the end of the phase does to the slices. -/
theorem slices_flush (ho : Owned 64 s) {b : Nat} (hb : (s.rows k).rowBuffer = some b)
    (hrows : ∀ k, (s'.rows k).rowBuffer = (s.rows k).rowBuffer)
    (hcontroller : s'.controller = s.controller.setSlice b w ⟨[]⟩) (k' : Key) :
    s'.slices k' = if k' = k then Function.update (s.slices k) w [] else s.slices k' := by
  unfold State.slices
  rw [hrows, hcontroller]
  split
  · rename_i hk
    subst hk
    exact slicesOf_setSlice _ hb w ⟨[]⟩
  · rename_i hk
    cases hb' : (s.rows k').rowBuffer with
    | none => rfl
    | some b' =>
      have hne : b' ≠ b := by
        rintro rfl
        exact hk (ho.row_unique hb' hb)
      funext c
      unfold slicesOf RowBufferController.slice
      simp only
      rw [buffers_setSlice hne]

theorem flush_moves {b : Nat} (hW : wl.writers k s.epoch ≠ []) (hworkers : s'.workers = s.workers)
    (hepoch : s'.epoch = s.epoch) (hb : (s.rows k).rowBuffer = some b)
    (hrows : s'.rows = Function.update s.rows k
      ((s.rows k).batchAppend (s.controller.slice b w) s.epoch).2)
    (hslices : ∀ k', s'.slices k' =
      if k' = k then Function.update (s.slices k) w [] else s.slices k') (k' : Key) :
    RowMove (wl.writers k' s.epoch) s.epoch w (s.data k') (s'.data k') := by
  by_cases hk : k' = k
  · subst hk
    have hdata : s'.data k' = ⟨insertAll (s.slices k' w) ((s.data k').minorGc s.epoch (s.rows k').heap).1,
        ((s.data k').minorGc s.epoch (s.rows k').heap).2, Function.update (s.slices k') w [],
        s.heldBy k'⟩ := by
      have hrow : s'.rows k' = ((s.rows k').batchAppend (s.controller.slice b w) s.epoch).2 := by
        rw [hrows, Function.update_self]
      have hheld : s'.heldBy k' = s.heldBy k' := by
        funext serial
        unfold State.heldBy State.place
        rw [hworkers, hepoch, hrow]
        rfl
      unfold State.data
      rw [hheld, hslices k', if_pos rfl, hrow]
      simp only [Row.batchAppend, GlobalVersionArray.batchAppend_eq, slice_eq_slicesOf hb]
      rfl
    rw [hdata]
    exact .flush hW
  · have hrow : s'.rows k' = s.rows k' := by
      rw [hrows, Function.update_of_ne hk]
    have hdata : s'.data k' = s.data k' :=
      data_congr hworkers hepoch (by rw [hrow]) (by rw [hrow])
        ((hslices k').trans (if_neg hk)) (by rw [hrow])
    rw [hdata]
    exact .stay

/-- A lock that is taken or given back changes no version. -/
theorem data_setLock {l : RWLock} (hworkers : s'.workers = s.workers)
    (hepoch : s'.epoch = s.epoch) (hcontroller : s'.controller = s.controller)
    (hrows : s'.rows = Function.update s.rows k ((s.rows k).setLock l)) (k' : Key) :
    s'.data k' = s.data k' := by
  have hrow : (s'.rows k').globalArray.idsSlots = (s.rows k').globalArray.idsSlots ∧
      (s'.rows k').heap = (s.rows k').heap ∧ (s'.rows k').rowBuffer = (s.rows k').rowBuffer ∧
      (s'.rows k').pending = (s.rows k').pending := by
    rw [hrows]
    by_cases hk : k' = k
    · subst hk
      rw [Function.update_self]
      exact ⟨rfl, rfl, rfl, rfl⟩
    · rw [Function.update_of_ne hk]
      exact ⟨rfl, rfl, rfl, rfl⟩
  refine data_congr hworkers hepoch hrow.1 hrow.2.1 ?_ hrow.2.2.2
  unfold State.slices
  rw [hcontroller, hrow.2.2.1]

/-- Steps change rows that the epoch writes. -/
theorem rows_unwritten {r : Row} (hW : wl.writers k s.epoch ≠ [])
    (hrows : s'.rows = Function.update s.rows k r) (k' : Key) (hnil : wl.writers k' s.epoch = []) :
    s'.rows k' = s.rows k' := by
  have hne : k' ≠ k := by
    rintro rfl
    exact hW hnil
  rw [hrows, Function.update_of_ne hne]

theorem Linked.finalize (h : Linked wl s) (ho : Owned 64 s) (hstep : s.finalize cfg w = some s') :
    Linked wl s' ∧ s'.epoch = s.epoch ∧
      (∀ k, wl.writers k s.epoch = [] → s'.rows k = s.rows k) ∧
      ∀ k, RowMove (wl.writers k s.epoch) s.epoch w (s.data k) (s'.data k) := by
  obtain ⟨hworkers, _, _, hbuffer, hpending⟩ := finalize_keeps hstep
  rcases finalize_cases hstep with ⟨f, hpc, hf, hfrom, rfl⟩ |
    ⟨k, b, rest, rwl, hpc, hfrom, hrest, _, hs⟩ | ⟨k, b, hpc, hs⟩ | ⟨k, hpc, hs⟩
  · refine ⟨h.refinalize rfl rfl rfl (fun _ _ => rfl) (fun _ => rfl) (fun _ => rfl)
      (fun _ _ => rfl) (fun _ _ hne => hne) (fun _ hx => hx) (fun _ hx _ => hx) ?_ ?_, rfl, fun _ _ => rfl,
      fun _ => .stay⟩
    · rw [pairs_of_scan hf, pairs_of_scan hpc]
      exact hfrom
    · intro k hk
      rw [hf] at hk
      cases hk
  · have hepoch : s'.epoch = s.epoch := by rw [hs]; rfl
    have hown : s'.own = s.own := by rw [hs]; rfl
    have hcontroller : s'.controller = s.controller := by rw [hs]; rfl
    have hdata := data_setLock (k := k) hworkers hepoch hcontroller (by rw [hs]; rfl)
    have hW : wl.writers k s.epoch ≠ [] := by
      rcases hfrom with hx | hx
      · exact (h.passed w (k, b) (by rw [pairs_of_scan hpc]; exact hx)).2
      · exact (h.mapped w (k, b) hx).2
    refine ⟨h.refinalize (f := ⟨rest, .flush k b⟩) hworkers hepoch (by rw [hs]; rfl)
      (fun _ _ => by rw [hown]) hbuffer hpending
      (fun _ _ => by rw [hcontroller]) ?_ ?_ ?_ ?_ (fun _ hk => by cases hk), hepoch,
      rows_unwritten hW (by rw [hs]; rfl), ?_⟩
    · intro w' k' hne
      rwa [show s'.slices k' = s.slices k' from congrArg RowData.slices (hdata k')] at hne
    · rw [hown]
      exact fun _ hx => hx
    · rw [hown]
      exact fun _ hx _ => hx
    · intro x hx
      rw [pairs_of_scan hpc]
      rcases List.mem_cons.mp hx with rfl | hx
      · exact hfrom
      · exact Or.inl (hrest x hx)
    · intro k'
      rw [hdata]
      exact .stay
  · have hpairs : (s.finalizers w).pairs = (k, b) :: (s.finalizers w).pass := by
      unfold Finalizer.pairs
      rw [hpc]
    obtain ⟨hb, hW⟩ : s.Leads wl (k, b) := h.passed w _ (by rw [hpairs]; exact List.mem_cons_self)
    have hepoch : s'.epoch = s.epoch := by rw [hs]; rfl
    have hown : s'.own = s.own := by rw [hs]; rfl
    have hcontroller : s'.controller = s.controller.setSlice b w ⟨[]⟩ := by
      rw [hs]
      simp only [Row.batchAppend, GlobalVersionArray.batchAppend_eq]
    have hslices := slices_flush ho hb hbuffer hcontroller
    refine ⟨h.refinalize (f := { s.finalizers w with pc := .unlock k }) hworkers hepoch
      (by rw [hs]; rfl) (fun _ _ => by rw [hown]) hbuffer hpending ?_ ?_ ?_ ?_ ?_ ?_, hepoch,
      rows_unwritten hW (by rw [hs]; rfl),
      flush_moves hW hworkers hepoch hb (by rw [hs]; rfl) hslices⟩
    · intro b' hb'
      have hne : b' ≠ b := by
        rintro rfl
        exact hb' k hb
      rw [hcontroller, buffers_setSlice hne]
    · intro w' k' hne
      rw [hslices] at hne
      split at hne
      · rename_i hk
        subst hk
        by_cases hww : w' = w
        · subst hww
          rw [Function.update_self] at hne
          exact absurd rfl hne
        · rwa [Function.update_of_ne hww] at hne
      · exact hne
    · rw [hown]
      exact fun _ hx => hx
    · rw [hown]
      exact fun _ hx _ => hx
    · intro x hx
      rw [hpairs]
      exact Or.inl (List.mem_cons_of_mem _ hx)
    · intro k' hk
      have hk' : k = k' := FinalizePc.unlock.inj hk
      rw [hslices, if_pos hk'.symm, Function.update_self]
      exact ⟨hk' ▸ hW, rfl⟩
  · have hepoch : s'.epoch = s.epoch := by rw [hs]; rfl
    have hcontroller : s'.controller = s.controller := by rw [hs]; rfl
    have hown : (s'.own w).appendedCoreBuffers = (s.own w).appendedCoreBuffers.erase k := by
      rw [hs]
      simp
    have hdata := data_setLock (k := k) hworkers hepoch hcontroller (by rw [hs]; rfl)
    have hslices : ∀ k', s'.slices k' = s.slices k' := fun k' => congrArg RowData.slices (hdata k')
    refine ⟨h.refinalize (f := { s.finalizers w with pc := .scan }) hworkers hepoch
      (by rw [hs]; rfl) ?_ hbuffer hpending
      (fun _ _ => by rw [hcontroller]) ?_ ?_ ?_ ?_ (fun _ hk => by cases hk), hepoch,
      rows_unwritten (h.flushed w k hpc).1 (by rw [hs]; rfl), ?_⟩
    · intro w' hww
      rw [hs]
      exact Function.update_of_ne hww _ _
    · intro w' k' hne
      rwa [hslices] at hne
    · intro x hx
      rw [hown, UnorderedMap.mem_erase] at hx
      exact hx.1
    · intro x hx hne
      rw [hown, UnorderedMap.mem_erase]
      refine ⟨hx, ?_⟩
      intro hk
      rw [hslices, hk] at hne
      exact hne (h.flushed w k hpc).2
    · intro x hx
      unfold Finalizer.pairs
      rw [hpc]
      exact Or.inl hx
    · intro k'
      rw [hdata]
      exact .stay

end Finalize
end Linked
end Mvdcc.Caracal
