import Mvdcc.Caracal.Appending
import Mvdcc.Common.Workers

namespace Mvdcc.Caracal
open Library

/-- The version that a call has created and not handed over yet. -/
def Pc.version : Pc → Option Ptr
  | .lockRow pending _ | .flush pending _ | .unlockRow pending => some pending
  | _ => none

/-- The row buffer a call has gone to. -/
def Pc.target : Pc → Option Nat
  | .contended buffer | .lockRow _ buffer | .flush _ buffer => some buffer
  | _ => none

/-- The places of a call whose slice is full. -/
def Pc.full : Pc → Bool
  | .lockRow _ _ | .flush _ _ => true
  | _ => false

/-- The version of a write, before and after it is handed over. -/
def Pc.heldBy (pc : Pc) (pending : Option Ptr) : Option Ptr :=
  if pc = .done then pending else pc.version

/-- What the cores keep of a row in its row buffer. -/
def slicesOf (controller : RowBufferController) (rowBuffer : Option Nat) (c : Nat) :
    List (Nat × Ptr) :=
  match rowBuffer with
  | none => []
  | some b => (controller.slice b c).idsSlots

theorem slice_setSlice (controller : RowBufferController) (b w : Nat) (x : PerCoreBuffer)
    (c : Nat) : ((controller.setSlice b w x).slice b c).idsSlots =
      Function.update (fun c => (controller.slice b c).idsSlots) w x.idsSlots c := by
  unfold RowBufferController.setSlice RowBufferController.slice
  simp only [Function.update_self]
  by_cases hc : c = w
  · subst hc
    simp
  · simp [hc]

theorem slice_eq_slicesOf {controller : RowBufferController} {rowBuffer : Option Nat} {b : Nat}
    (hb : rowBuffer = some b) (c : Nat) :
    (controller.slice b c).idsSlots = slicesOf controller rowBuffer c := by
  subst hb
  rfl

theorem slicesOf_setSlice (controller : RowBufferController) {rowBuffer : Option Nat} {b : Nat}
    (hb : rowBuffer = some b) (w : Nat) (x : PerCoreBuffer) :
    slicesOf (controller.setSlice b w x) rowBuffer =
      Function.update (slicesOf controller rowBuffer) w x.idsSlots := by
  subst hb
  funext c
  exact slice_setSlice controller b w x c

theorem buffers_setSlice {controller : RowBufferController} {b b' : Nat} (h : b' ≠ b) (w : Nat)
    (x : PerCoreBuffer) : (controller.setSlice b w x).buffers b' = controller.buffers b' :=
  Function.update_of_ne h _ _

section Calls
variable {Key : Type u}

def Memory.data (m : Memory Key) (held : Nat → Option Ptr) : RowData :=
  ⟨m.globalArray.idsSlots, m.heap, slicesOf m.controller m.rowBuffer, held⟩

/-- What one step of an append does to its row, its slice and its worker's map. -/
structure AppendMove (W : List Nat) (e core serial : Nat) (k : Key) (held : Nat → Option Ptr)
    (m m' : Memory Key) (pc pc' : Pc) : Prop where
  move : RowMove W e core (m.data held)
    (m'.data (Function.update held serial (pc'.heldBy (m'.pending e serial))))
  target : ∀ b, pc'.target = some b → m'.rowBuffer = some b
  buffers : ∀ b, m'.rowBuffer ≠ some b → m'.controller.buffers b = m.controller.buffers b
  pending : ∀ e' s', e' ≠ e ∨ s' ≠ serial → m'.pending e' s' = m.pending e' s'
  kept : ∀ x ∈ m.own.appendedCoreBuffers.entries, x ∈ m'.own.appendedCoreBuffers.entries
  mapped : ∀ x ∈ m'.own.appendedCoreBuffers.entries,
    x ∈ m.own.appendedCoreBuffers.entries ∨ (x.1 = k ∧ m'.rowBuffer = some x.2)
  registered : slicesOf m'.controller m'.rowBuffer core ≠ [] →
    (∃ b, (k, b) ∈ m'.own.appendedCoreBuffers.entries) ∨ pc'.full = true ∨
      (slicesOf m.controller m.rowBuffer core ≠ [] ∧ pc.full = false)
  handed : pc' = .done → m'.pending e serial ≠ none

variable {W : List Nat} {e core serial position : Nat} {k : Key} {held : Nat → Option Ptr}
variable {m m' : Memory Key} {pc pc' : Pc} {cfg : Config}

theorem RowMove.slices_of_ne {w w' : Nat} {d d' : RowData} (h : RowMove W e w d d')
    (hne : w' ≠ w) : d'.slices w' = d.slices w' := by
  cases h with
  | stay => rfl
  | append => rfl
  | buffer => exact Function.update_of_ne hne _ _
  | flush => exact Function.update_of_ne hne _ _

/-- A step that leaves the row's versions, the slices and the map alone. -/
theorem AppendMove.quiet (hslots : m'.globalArray.idsSlots = m.globalArray.idsSlots)
    (hheap : m'.heap = m.heap)
    (hslices : slicesOf m'.controller m'.rowBuffer = slicesOf m.controller m.rowBuffer)
    (hbuffers : m'.controller.buffers = m.controller.buffers)
    (hmap : m'.own.appendedCoreBuffers = m.own.appendedCoreBuffers)
    (hpending : ∀ e' s', e' ≠ e ∨ s' ≠ serial → m'.pending e' s' = m.pending e' s')
    (hheld : pc'.heldBy (m'.pending e serial) = held serial)
    (htarget : ∀ b, pc'.target = some b → m'.rowBuffer = some b)
    (hfull : pc.full = true → pc'.full = true)
    (hdone : pc' = .done → m'.pending e serial ≠ none) :
    AppendMove W e core serial k held m m' pc pc' := by
  refine ⟨?_, htarget, fun b _ => by rw [hbuffers], hpending, fun x hx => by rwa [hmap],
    fun x hx => Or.inl (by rwa [hmap] at hx), ?_, hdone⟩
  · have hdata : m'.data (Function.update held serial (pc'.heldBy (m'.pending e serial))) =
        m.data held := by
      unfold Memory.data
      rw [hslots, hheap, hslices, hheld, Function.update_eq_self]
    rw [hdata]
    exact .stay
  · intro hne
    rw [hslices] at hne
    cases hf : pc.full with
    | true => exact Or.inr (Or.inl (hfull hf))
    | false => exact Or.inr (Or.inr ⟨hne, rfl⟩)

/-- Such a step on the way to a place without a target. -/
theorem AppendMove.silent (hslots : m'.globalArray.idsSlots = m.globalArray.idsSlots)
    (hheap : m'.heap = m.heap)
    (hslices : slicesOf m'.controller m'.rowBuffer = slicesOf m.controller m.rowBuffer)
    (hbuffers : m'.controller.buffers = m.controller.buffers)
    (hmap : m'.own.appendedCoreBuffers = m.own.appendedCoreBuffers)
    (hpending : ∀ e' s', e' ≠ e ∨ s' ≠ serial → m'.pending e' s' = m.pending e' s')
    (hheld : pc'.heldBy (m'.pending e serial) = held serial) (htarget : pc'.target = none)
    (hfull : pc.full = false) (hdone : pc' ≠ .done) :
    AppendMove W e core serial k held m m' pc pc' := by
  refine .quiet hslots hheap hslices hbuffers hmap hpending hheld ?_ ?_ (absurd · hdone)
  · intro b hb
    rw [htarget] at hb
    cases hb
  · intro hf
    rw [hfull] at hf
    cases hf

theorem setPending_self {r : Row} {p : Ptr} : (r.setPending e serial p).pending e serial = some p := by
  simp [Row.setPending]

theorem setPending_of_ne {r : Row} {p : Ptr} {e' s' : Nat} (h : e' ≠ e ∨ s' ≠ serial) :
    (r.setPending e serial p).pending e' s' = r.pending e' s' := by
  unfold Row.setPending
  by_cases he : e' = e
  · subst he
    rcases h with h | h
    · exact absurd rfl h
    · simp [h]
  · simp [he]

variable [DecidableEq Key]

theorem appendStep_move (hs : serial ∈ W) (hheld : held serial = pc.heldBy (m.pending e serial))
    (htarget : ∀ b, pc.target = some b → m.rowBuffer = some b)
    (hfresh : ∀ b, pc = .install b → ∀ c, (m.controller.slice b c).idsSlots = [])
    (h : appendStep cfg position e core serial k pc m = some (pc', m')) :
    AppendMove W e core serial k held m m' pc pc' := by
  have hW : W ≠ [] := List.ne_nil_of_mem hs
  cases pc <;> simp only [appendStep, reduceCtorEq] at h
  case start =>
    split at h
    · rename_i b hb
      cases h
      refine .quiet rfl rfl rfl rfl rfl (fun _ _ _ => rfl) hheld.symm ?_
        (by simp [Pc.full]) (by simp)
      intro b' hb'
      rwa [← Option.some.inj hb']
    · cases h
      exact .silent rfl rfl rfl rfl rfl (fun _ _ _ => rfl) hheld.symm rfl rfl (by simp)
  case tryLock =>
    split at h
    · rename_i row hrow
      cases h
      obtain ⟨rwl, _, rfl⟩ := Option.map_eq_some_iff.mp hrow
      exact .silent rfl rfl rfl rfl rfl (fun _ _ _ => rfl) hheld.symm rfl rfl (by simp)
    · cases h
      exact .silent rfl rfl rfl rfl rfl (fun _ _ _ => rfl) hheld.symm rfl rfl (by simp)
  case uncontended =>
    cases h
    exact ⟨.append serial hs hheld, by simp [Pc.target], fun _ _ => rfl, fun _ _ _ => rfl, fun _ hx => hx,
      fun _ hx => Or.inl hx, fun hne => Or.inr (Or.inr ⟨hne, rfl⟩), by simp⟩
  case fetch =>
    split at h
    · cases h
      exact .silent rfl rfl rfl rfl rfl (fun _ _ _ => rfl) hheld.symm rfl rfl (by simp)
    · obtain ⟨l, _, he⟩ := Option.map_eq_some_iff.mp h
      cases he
      exact .silent rfl rfl rfl rfl rfl (fun _ _ _ => rfl) hheld.symm rfl rfl (by simp)
  case fetchLocked =>
    split at h
    · cases h
      exact .silent rfl rfl rfl rfl rfl (fun _ _ _ => rfl) hheld.symm rfl rfl (by simp)
    · rename_i b c hf
      cases h
      obtain ⟨_, rfl, rfl⟩ := RowBufferController.fetchNewBuffer_eq_some.mp hf
      exact .silent rfl rfl rfl rfl rfl (fun _ _ _ => rfl) hheld.symm rfl rfl (by simp)
  case fetchUnlock b =>
    cases h
    exact .silent rfl rfl rfl rfl rfl (fun _ _ _ => rfl) hheld.symm rfl rfl (by simp)
  case install b =>
    split at h
    · rename_i hb
      cases h
      refine .quiet rfl rfl ?_ rfl rfl (fun _ _ _ => rfl) hheld.symm (fun b' hb' => hb')
        (by simp [Pc.full]) (by simp)
      funext c
      rw [hb]
      exact hfresh b rfl c
    · cases h
      exact .silent rfl rfl rfl rfl rfl (fun _ _ _ => rfl) hheld.symm rfl rfl (by simp)
  case reload b =>
    split at h
    · rename_i other hb
      cases h
      refine .quiet rfl rfl rfl rfl rfl (fun _ _ _ => rfl) hheld.symm ?_
        (by simp [Pc.full]) (by simp)
      intro b' hb'
      rwa [← Option.some.inj hb']
    · cases h
  case contended b =>
    have hb : m.rowBuffer = some b := htarget b rfl
    have hmove : RowMove W e core (m.data held) ⟨m.globalArray.idsSlots,
        m.heap.createPendingVersion.2, slicesOf (m.controller.setSlice b core
          ⟨insertEntry (convertToSerialIdWithEpoch e serial) m.heap.next
            (m.controller.slice b core).idsSlots⟩) m.rowBuffer,
        Function.update held serial (some m.heap.next)⟩ := by
      rw [slicesOf_setSlice _ hb, slice_eq_slicesOf hb]
      exact .buffer serial hs hheld
    have hbuffers : ∀ b', m.rowBuffer ≠ some b' → ∀ x,
        (m.controller.setSlice b core x).buffers b' = m.controller.buffers b' := by
      intro b' hne x
      refine buffers_setSlice ?_ core x
      rintro rfl
      exact hne hb
    split at h
    · cases h
      refine ⟨?_, by simp [Pc.target], fun b' hne => hbuffers b' hne _,
        fun e' s' hne => setPending_of_ne hne, fun x hx => UnorderedMap.mem_emplace.mpr (Or.inl hx), ?_, ?_, ?_⟩
      · unfold Memory.data
        simp only [setPending_self]
        exact hmove
      · intro x hx
        rcases UnorderedMap.mem_emplace.mp hx with hx | ⟨_, rfl⟩
        · exact Or.inl hx
        · exact Or.inr ⟨rfl, hb⟩
      · exact fun _ => Or.inl (UnorderedMap.exists_mem_emplace _ _ _ _)
      · intro _
        simp only [setPending_self]
        exact Option.some_ne_none _
    · cases h
      exact ⟨hmove, fun b' hb' => hb.trans hb', fun b' hne => hbuffers b' hne _, fun _ _ _ => rfl,
        fun _ hx => hx, fun _ hx => Or.inl hx, fun _ => Or.inr (Or.inl rfl), by simp⟩
  case lockRow p b =>
    obtain ⟨row, hrow, he⟩ := Option.map_eq_some_iff.mp h
    obtain ⟨rwl, _, rfl⟩ := Option.map_eq_some_iff.mp hrow
    cases he
    exact .quiet rfl rfl rfl rfl rfl (fun _ _ _ => rfl) hheld.symm htarget (fun _ => rfl)
      (by simp)
  case flush p b =>
    have hb : m.rowBuffer = some b := htarget b rfl
    simp only [Row.batchAppend, GlobalVersionArray.batchAppend_eq, Option.some.injEq,
      Prod.mk.injEq] at h
    obtain ⟨rfl, rfl⟩ := h
    have hslices := slicesOf_setSlice m.controller hb core ⟨[]⟩
    refine ⟨?_, by simp [Pc.target], ?_, fun _ _ _ => rfl, fun _ hx => hx, fun _ hx => Or.inl hx, ?_,
      by simp⟩
    · have hmove := RowMove.flush (e := e) (w := core) (d := m.data held) hW
      have hsame : Function.update held serial (some p) = held := by
        rw [show some p = held serial from hheld.symm, Function.update_eq_self]
      unfold Memory.data at hmove ⊢
      simp only [hslices, slice_eq_slicesOf hb]
      change RowMove W e core _ ⟨_, _, _, Function.update held serial (some p)⟩
      rw [hsame]
      exact hmove
    · intro b' hne
      refine buffers_setSlice ?_ core _
      rintro rfl
      exact hne hb
    · intro hne
      simp only [hslices, Function.update_self] at hne
      exact absurd rfl hne
  case unlockRow p =>
    cases h
    refine .quiet rfl rfl rfl rfl rfl ?_ ?_ (by simp [Pc.target])
      (by simp [Pc.full]) ?_
    · exact fun e' s' hne => setPending_of_ne hne
    · rw [hheld]
      exact setPending_self
    · intro _
      simp only [setPending_self]
      exact Option.some_ne_none p

end Calls

section Assigned
variable {Key : Type u} {wl : Workload Key}

/-- Round-robin assignment, when appending and when executing. -/
def owner (serial : Nat) : Nat := serial % 64

theorem program_assigned (wl : Workload Key) (phase : Phase) (e : Nat) :
    Assignment owner (program wl phase e) := by
  cases phase with
  | initialization => exact roundRobin_assigned (wl.wSet_nodup e)
  | execution => exact roundRobin_assigned (wl.rwSet_nodup e)

theorem mem_program {phase : Phase} {e : Nat} {c : Call Key} :
    c ∈ program wl phase e (owner c.serial) ↔ c.serial < numTxsInOneEpoch ∧
      c.operation ∈ wl.rwSet e c.serial ∧
        (phase = .initialization → c.operation.ope = .update) := by
  cases phase with
  | initialization =>
    refine mem_roundRobin_program.trans ?_
    simp [Workload.mem_wSet]
  | execution =>
    refine mem_roundRobin_program.trans ?_
    simp

variable [DecidableEq Key] {s : State Key} {w serial : Nat} {k : Key} {c : Call Key}
variable {rest : List (Call Key)} {pc : Pc} {m : Memory Key}

theorem writer_mem_program {phase : Phase} {e : Nat} :
    ⟨serial, ⟨.update, k⟩⟩ ∈ program wl phase e (owner serial) ↔ serial ∈ wl.writers k e := by
  rw [mem_program (c := ⟨serial, ⟨.update, k⟩⟩), wl.mem_writers]
  simp

/-- Where the operation of transaction `serial` on the row stands. -/
def State.place (s : State Key) (k : Key) (ope : Ope) (serial : Nat) : Pc :=
  view .start .done owner s.workers ⟨serial, ⟨ope, k⟩⟩

theorem place_finished (hall : ∀ w < 64, (s.workers w).todo = []) (k : Key) (ope : Ope)
    (serial : Nat) : s.place k ope serial = .done :=
  view_finished (hall _ (Nat.mod_lt _ (by omega)))

theorem place_enter (wl : Workload Key) (s : State Key) (phase : Phase) (e : Nat) (k : Key)
    (ope : Ope) (serial : Nat) :
    (⟨serial, ⟨ope, k⟩⟩ ∈ program wl phase e (owner serial) ∧
      (s.enter (program wl) phase e).place k ope serial = .start) ∨
    (⟨serial, ⟨ope, k⟩⟩ ∉ program wl phase e (owner serial) ∧
      (s.enter (program wl) phase e).place k ope serial = .done) := by
  by_cases h : (⟨serial, ⟨ope, k⟩⟩ : Call Key) ∈ program wl phase e (owner serial)
  · exact Or.inl ⟨h, view_enter h⟩
  · exact Or.inr ⟨h, view_not_mem (fun _ => List.suffix_refl _) h⟩

variable {phase : Phase} {e : Nat}

theorem place_head (hr : Remaining (program wl phase e) s.workers)
    (htodo : (s.workers w).todo = c :: rest) :
    s.place c.index c.operation.ope c.serial = (s.workers w).pc :=
  view_head (program_assigned wl phase e) hr htodo

theorem place_return (hr : Remaining (program wl phase e) s.workers)
    (htodo : (s.workers w).todo = c :: rest) (hpc : (s.workers w).pc = .done)
    (k : Key) (ope : Ope) : (s.return w rest).place k ope = s.place k ope := by
  funext serial
  exact congrFun (view_return (program_assigned wl phase e) hr htodo hpc) _

theorem place_advance_self (hr : Remaining (program wl phase e) s.workers)
    (htodo : (s.workers w).todo = c :: rest) (pc : Pc) (m : Memory Key) :
    (s.advance w c.index pc m).place c.index c.operation.ope =
      Function.update (s.place c.index c.operation.ope) c.serial pc := by
  have hview : view Pc.start .done owner (s.advance w c.index pc m).workers =
      Function.update (view Pc.start .done owner s.workers) c pc :=
    view_advance (program_assigned wl phase e) hr htodo pc
  funext serial
  exact (congrFun hview _).trans (congrFun (update_place _ _ _) serial)

theorem place_advance_other (hr : Remaining (program wl phase e) s.workers)
    (htodo : (s.workers w).todo = c :: rest) {ope : Ope} (hne : (⟨ope, k⟩ : Operation Key) ≠ c.operation) :
    (s.advance w c.index pc m).place k ope = s.place k ope := by
  have hview : view Pc.start .done owner (s.advance w c.index pc m).workers =
      Function.update (view Pc.start .done owner s.workers) c pc :=
    view_advance (program_assigned wl phase e) hr htodo pc
  funext serial
  exact (congrFun hview _).trans (update_place_other _ _ _ hne serial)

/-- A call of the initialization phase is one of the epoch's writes of its row. -/
theorem head_writer (hr : Remaining (program wl phase e) s.workers)
    (hphase : phase = .initialization) (htodo : (s.workers w).todo = c :: rest) :
    c.operation.ope = .update ∧ c.serial ∈ wl.writers c.index e := by
  have hmem := hr.mem htodo
  rw [← (program_assigned wl phase e).owned w c hmem] at hmem
  have hope := (mem_program.mp hmem).2.2 hphase
  rw [c.eta, hope] at hmem
  exact ⟨hope, writer_mem_program.mp hmem⟩

end Assigned

end Mvdcc.Caracal
