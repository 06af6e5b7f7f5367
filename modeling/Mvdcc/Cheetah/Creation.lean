import Mvdcc.Cheetah.SerialReads

namespace Mvdcc.Cheetah
open Library Bitmap

/-- The greatest writer of the row, or the writer that some read of the epoch sees. -/
def Visible (W R : List Nat) (serial : Nat) : Prop :=
  serial ∈ W ∧ (W.getLast? = some serial ∨ ∃ r ∈ R, greatestBelow r W = some serial)

instance (W R : List Nat) (serial : Nat) : Decidable (Visible W R serial) :=
  inferInstanceAs (Decidable (_ ∧ (_ ∨ ∃ r ∈ R, _)))

/-- The id for which a step of a call calls `create_pending_version`, if it does. -/
def Row.creation (r : Row) (phase : Phase) (core serial : Nat) (pc : Pc) : Option Nat :=
  match phase, pc with
  | .read, .placeholder visibleId =>
    if r.wBitmap.placeholders.find visibleId = none then some visibleId else none
  | .execution, .identifyWrite =>
    let serialId := getSerialId core (getTxSerial serial)
    if r.wBitmap.isFinalState core (getTxSerial serial) ∧
      r.wBitmap.placeholders.find serialId = none then some serialId else none
  | _, _ => none

/-- One call of `create_pending_version`. -/
structure Creation (Key : Type u) where
  index : Key
  epoch : Nat
  serial : Nat
  deriving DecidableEq

/-- The calls of `create_pending_version` in one step. -/
def State.creations (s : State Key) : Choice → List (Creation Key)
  | .worker w _ =>
    match (s.workers w).todo with
    | [] => []
    | c :: _ =>
      let id := (s.rows c.index).creation s.phase (getCoreSerial c.serial) c.serial (s.workers w).pc
      (id.map (Creation.mk c.index s.epoch)).toList
  | .barrier => []

section Row
variable {W R : List Nat} {e core serial position w σ : Nat} {row row' : Row}
variable {latest : Option Stamp} {m : Ptr} {wp rp : Nat → Pc} {pc pc' : Pc} {ope : Ope} {v : Ptr}

/-- A placeholder appears when it is created. -/
theorem readPhaseStep_find (core : Nat)
    (h : readPhaseStep position e w serial pc row = some (pc', row')) :
    (row'.wBitmap.placeholders.find σ ≠ none ↔ row.wBitmap.placeholders.find σ ≠ none ∨
      row.creation .read core serial pc = some σ) := by
  have hsame : row'.wBitmap.placeholders = row.wBitmap.placeholders →
      row.creation .read core serial pc = none →
      (row'.wBitmap.placeholders.find σ ≠ none ↔ row.wBitmap.placeholders.find σ ≠ none ∨
        row.creation .read core serial pc = some σ) := by
    intro hp hc
    rw [hp, hc]
    simp
  cases pc <;> simp only [readPhaseStep, reduceCtorEq] at h
  case start =>
    cases h
    exact hsame rfl rfl
  case addOne =>
    cases h
    exact hsame rfl rfl
  case identify =>
    split at h
    · split at h
      · cases h
        exact hsame rfl rfl
      · cases h
        exact hsame rfl rfl
    · cases h
      exact hsame rfl rfl
  case lockPlaceholder visibleId =>
    obtain ⟨l, _, _, rfl⟩ := Row.lock_step h
    exact hsame rfl rfl
  case placeholder visibleId =>
    cases h
    cases hf : row.wBitmap.placeholders.find visibleId with
    | some v =>
      apply hsame
      · simp [Row.placeholder, hf]
      · simp [Row.creation, hf]
    | none =>
      have hc : row.creation .read core serial (.placeholder visibleId) = some visibleId := by
        simp [Row.creation, hf]
      have hp : (row.placeholder position visibleId).2.wBitmap.placeholders =
          row.wBitmap.placeholders.emplace position visibleId row.heap.next := by
        simp [Row.placeholder, hf]
      rw [hc, hp, UnorderedMap.find_emplace, hf]
      by_cases hσ : σ = visibleId
      · simp [hσ]
      · simp [hσ, Ne.symm hσ]
  case unlockPlaceholder v =>
    cases h
    exact hsame rfl rfl

/-- In the execution phase a version is created in the locked section of a write. -/
theorem pc_of_creation (h : row.creation .execution core serial pc = some σ) :
    pc = .identifyWrite := by
  cases pc <;> first | rfl | cases h

/-- The reads keep what they have resolved to. -/
theorem executionStep_pending (h : executionStep e core serial ope pc row = some (pc', row')) :
    row'.pending = row.pending := by
  cases pc <;> simp only [executionStep, reduceCtorEq] at h
  case start =>
    cases ope with
    | read =>
      simp only at h
      split at h
      · cases h
        rfl
      · cases h
    | update =>
      obtain ⟨l, _, _, rfl⟩ := Row.lock_step h
      rfl
  case lastLock record =>
    obtain ⟨l, _, _, rfl⟩ := Row.lock_step h
    rfl
  case identifyWrite =>
    cases h
    by_cases hf : row.wBitmap.isFinalState core (getTxSerial serial) = true
    · simp [Row.identifyWriteVersion, hf]
    · simp [Row.identifyWriteVersion, hf]
  case unlockWrite version =>
    cases version with
    | none =>
      cases h
      rfl
    | some p =>
      cases h
      rfl
  all_goals
    cases h
    rfl

/-- A step outside the locked section of a write stays on its side of it. -/
theorem executionStep_written (h : executionStep e core serial ope pc row = some (pc', row'))
    (hpc : pc ≠ .identifyWrite) (hope : ope = .update) (hok : WriterOk W R e row wp w pc) :
    pc.written = pc'.written := by
  subst hope
  cases pc <;> try exact hok.elim
  case start =>
    obtain ⟨_, _, rfl, _⟩ := Row.lock_step h
    rfl
  case identifyWrite => exact absurd rfl hpc
  case unlockWrite version =>
    cases version with
    | none =>
      cases h
      rfl
    | some p =>
      cases h
      rfl
  case storeRec p =>
    cases h
    rfl
  case storeStable p =>
    cases h
    rfl
  case done => cases h

/-- The versions that the epoch has created so far, by serial id. -/
def Made (W R : List Nat) (e : Nat) (row : Row) (wp : Nat → Pc) (σ : Nat) : Prop :=
  (∃ v, Resolved W R e row σ v) ∨ (finalized W wp = true ∧ W.getLast? = some σ)

theorem made_of_pending (hp : row'.pending = row.pending) {wp' : Nat → Pc}
    (hf : finalized W wp' = finalized W wp) : Made W R e row' wp' σ ↔ Made W R e row wp σ := by
  unfold Made Resolved
  rw [hp, hf]

namespace Executing

/-- At the entry of its locked section, a writer's version is created there
exactly if it is the final writer and no read has resolved to it. -/
theorem creation_iff (h : Executing W R e row latest m wp rp) (hW : W.Pairwise (· < ·))
    (hpc : wp w = .identifyWrite) :
    row.creation .execution (getCoreSerial w) w .identifyWrite = some σ ↔
      σ = w ∧ W.getLast? = some w ∧ ¬ ∃ v, Resolved W R e row w v := by
  have hwr : (wp w).written = false := by rw [hpc]; rfl
  have hfind : row.wBitmap.placeholders.find w = none ↔ ¬ ∃ v, Resolved W R e row w v := by
    rw [Option.eq_none_iff_forall_ne_some]
    simp only [← h.find_iff hW hwr, not_exists, ne_eq]
  simp only [Row.creation, getSerialId_split, h.isFinalState_iff hW hwr, hfind,
    Option.ite_none_right_eq_some, Option.some.injEq]
  constructor
  · rintro ⟨⟨hl, hn⟩, he⟩
    exact ⟨he.symm, hl, hn⟩
  · rintro ⟨he, hl, hn⟩
    exact ⟨⟨hl, hn⟩, he.symm⟩

/-- What a step of a write adds to the versions of the epoch. -/
theorem made_write (h : Executing W R e row latest m wp rp) (hW : W.Pairwise (· < ·))
    (hw : w ∈ W)
    (hstep : executionStep e (getCoreSerial w) w .update (wp w) row = some (pc, row')) :
    Made W R e row' (Function.update wp w pc) σ ↔ Made W R e row wp σ ∨
      row.creation .execution (getCoreSerial w) w (wp w) = some σ := by
  have hpend := executionStep_pending hstep
  by_cases hpc : wp w = .identifyWrite
  · rw [hpc, h.creation_iff hW hpc]
    have hwritten : pc.written = true := by
      rw [hpc] at hstep
      cases hstep
      rfl
    by_cases hl : W.getLast? = some w
    · have hfin : finalized W (Function.update wp w pc) = true := by
        rw [finalized_eq hl, Function.update_self, hwritten]
      have hnf : finalized W wp = false := by
        rw [finalized_eq hl, hpc]
        rfl
      unfold Made Resolved
      rw [hpend, hfin, hnf, hl]
      simp only [Option.some.injEq, true_and, Bool.false_eq_true, false_and, or_false]
      constructor
      · rintro (hr | rfl)
        · exact Or.inl hr
        · exact or_iff_not_imp_left.mpr (fun hn => ⟨rfl, hn⟩)
      · rintro (hr | ⟨rfl, _⟩)
        · exact Or.inl hr
        · exact Or.inr rfl
    · rw [made_of_pending hpend (finalized_update_other hl)]
      simp [hl]
  · have hwritten := executionStep_written hstep hpc rfl (h.writers w hw)
    have hnone : row.creation .execution (getCoreSerial w) w (wp w) = none :=
      Option.eq_none_iff_forall_ne_some.mpr (fun _ hc => hpc (pc_of_creation hc))
    rw [made_of_pending hpend (finalized_update hwritten), hnone]
    simp

/-- A step of a read adds nothing. -/
theorem made_read (h : Executing W R e row latest m wp rp) (hs : serial ∈ R)
    (hstep : executionStep e core serial .read (rp serial) row = some (pc, row')) :
    (Made W R e row' wp σ ↔ Made W R e row wp σ) ∧
      row.creation .execution core serial (rp serial) = none := by
  refine ⟨made_of_pending (executionStep_pending hstep) rfl, ?_⟩
  have hok := h.readers serial hs
  apply Option.eq_none_iff_forall_ne_some.mpr
  intro _ hc
  rw [pc_of_creation hc] at hok
  exact hok.elim

/-- A creation is of a version that the epoch has not created yet. -/
theorem not_made_of_creation (h : Executing W R e row latest m wp rp) (hW : W.Pairwise (· < ·))
    (hpc : wp w = .identifyWrite)
    (hc : row.creation .execution (getCoreSerial w) w .identifyWrite = some σ) :
    ¬ Made W R e row wp σ := by
  obtain ⟨rfl, hl, hn⟩ := (h.creation_iff hW hpc).mp hc
  rintro (hr | ⟨hf, _⟩)
  · exact hn hr
  · rw [finalized_eq hl, hpc] at hf
    cases hf

/-- When the writes are over, the epoch has created the visible versions. -/
theorem made_of_done (h : Executing W R e row latest m wp rp) (hW : W.Pairwise (· < ·))
    (hd : ∀ w, wp w = .done) : Made W R e row wp σ ↔ Visible W R σ := by
  have hres : (∃ v, Resolved W R e row σ v) ↔ ∃ r ∈ R, greatestBelow r W = some σ := by
    constructor
    · intro ⟨v, r, hr, hg, _⟩
      exact ⟨r, hr, hg⟩
    · intro ⟨r, hr, hg⟩
      obtain ⟨v, hv⟩ := h.assigned.exists_pending hr
      exact ⟨v, r, hr, hg, hv⟩
  have hfin : finalized W wp = true ∧ W.getLast? = some σ ↔ W.getLast? = some σ := by
    constructor
    · exact fun hf => hf.2
    · intro hl
      refine ⟨?_, hl⟩
      rw [finalized_eq hl, hd]
      rfl
  unfold Made Visible
  rw [hres, hfin]
  constructor
  · rintro (⟨r, hr, hg⟩ | hl)
    · exact ⟨((greatestBelow_eq_some hW).mp hg).1, Or.inr ⟨r, hr, hg⟩⟩
    · exact ⟨List.mem_of_getLast? hl, Or.inl hl⟩
  · rintro ⟨_, hl | hr⟩
    · exact Or.inr hl
    · exact Or.inl hr

/-- A write that nobody can see never holds a version. -/
theorem not_owns_of_hidden (hv : ¬ Visible W R w) (hw : w ∈ W) : ¬ Owns W R e row wp w v := by
  rintro (⟨r, hr, hg, _⟩ | ⟨_, hl, _⟩)
  · exact hv ⟨hw, Or.inr ⟨r, hr, hg⟩⟩
  · exact hv ⟨hw, Or.inl hl⟩

theorem hidden_place (h : Executing W R e row latest m wp rp) (hv : ¬ Visible W R w)
    (hw : w ∈ W) : wp w = .start ∨ wp w = .identifyWrite ∨ wp w = .unlockWrite none ∨
      wp w = .done := by
  have hok := h.writers w hw
  cases hpc : wp w <;> rw [hpc] at hok <;> try exact hok.elim
  case start => exact Or.inl rfl
  case identifyWrite => exact Or.inr (Or.inl rfl)
  case unlockWrite version =>
    cases version with
    | none => exact Or.inr (Or.inr (Or.inl rfl))
    | some p => exact absurd hok.1 (not_owns_of_hidden hv hw)
  case storeRec p => exact absurd hok.1 (not_owns_of_hidden hv hw)
  case storeStable p => exact absurd hok.1 (not_owns_of_hidden hv hw)
  case done => exact Or.inr (Or.inr (Or.inr rfl))

/-- Such a write changes nothing but the lock. -/
theorem hidden_step (h : Executing W R e row latest m wp rp) (hW : W.Pairwise (· < ·))
    (hv : ¬ Visible W R w) (hw : w ∈ W)
    (hstep : executionStep e (getCoreSerial w) w .update (wp w) row = some (pc, row')) :
    row'.wBitmap.master = row.wBitmap.master ∧
      row'.wBitmap.placeholders = row.wBitmap.placeholders := by
  rcases h.hidden_place hv hw with hpc | hpc | hpc | hpc
  · rw [hpc] at hstep
    obtain ⟨l, _, _, rfl⟩ := Row.lock_step hstep
    exact ⟨rfl, rfl⟩
  · have hwr : (wp w).written = false := by rw [hpc]; rfl
    have hnfinal : row.wBitmap.isFinalState (getCoreSerial w) (getTxSerial w) = false := by
      rw [← Bool.not_eq_true, h.isFinalState_iff hW hwr]
      exact fun hl => hv ⟨hw, Or.inl hl⟩
    rw [hpc] at hstep
    simp only [executionStep, Option.some.injEq, Prod.mk.injEq] at hstep
    obtain ⟨_, rfl⟩ := hstep
    simp [Row.identifyWriteVersion, hnfinal]
  · rw [hpc] at hstep
    cases hstep
    exact ⟨rfl, rfl⟩
  · rw [hpc] at hstep
    cases hstep

end Executing
/-- The creations are the new pointers. -/
theorem readPhaseStep_next (core : Nat)
    (h : readPhaseStep position e w serial pc row = some (pc', row')) :
    row'.heap.next = row.heap.next + (row.creation .read core serial pc).toList.length := by
  cases pc <;> simp only [readPhaseStep, reduceCtorEq] at h
  case identify =>
    split at h
    · split at h
      · cases h
        rfl
      · cases h
        rfl
    · cases h
      rfl
  case lockPlaceholder visibleId =>
    obtain ⟨l, _, _, rfl⟩ := Row.lock_step h
    rfl
  case placeholder visibleId =>
    cases h
    cases hf : row.wBitmap.placeholders.find visibleId with
    | some v => simp [Row.placeholder, Row.creation, hf]
    | none => simp [Row.placeholder, Row.creation, hf]
  all_goals
    cases h
    rfl

theorem executionStep_next (h : executionStep e core serial ope pc row = some (pc', row')) :
    row'.heap.next = row.heap.next + (row.creation .execution core serial pc).toList.length := by
  cases pc <;> simp only [executionStep, reduceCtorEq] at h
  case start =>
    cases ope with
    | read =>
      simp only at h
      split at h
      · cases h
        rfl
      · cases h
    | update =>
      obtain ⟨l, _, _, rfl⟩ := Row.lock_step h
      rfl
  case lastLock record =>
    obtain ⟨l, _, _, rfl⟩ := Row.lock_step h
    rfl
  case lastBody record =>
    cases h
    simp [Row.closeReads, Row.creation]
  case identifyWrite =>
    cases h
    by_cases hf : row.wBitmap.isFinalState core (getTxSerial serial) = true
    · by_cases hz : row.wBitmap.refCnt = 0
      · cases hp : row.wBitmap.placeholders.find (getSerialId core (getTxSerial serial)) <;>
          simp [Row.identifyWriteVersion, Row.creation, hf, hp, hz]
      · cases hp : row.wBitmap.placeholders.find (getSerialId core (getTxSerial serial)) <;>
          simp [Row.identifyWriteVersion, Row.creation, hf, hp, hz]
    · simp [Row.identifyWriteVersion, Row.creation, hf]
  case unlockWrite version =>
    cases version with
    | none =>
      cases h
      rfl
    | some p =>
      cases h
      rfl
  all_goals
    cases h
    rfl

end Row

section Creations
variable {Key : Type u} {s : State Key} {w position : Nat} {c : Call Key} {rest : List (Call Key)}
variable {x : Creation Key}

theorem creation_write (r : Row) (core serial : Nat) (pc : Pc) :
    r.creation .write core serial pc = none := rfl

theorem creation_done (r : Row) (phase : Phase) (core serial : Nat) :
    r.creation phase core serial .done = none := by
  cases phase <;> rfl

theorem creations_head (htodo : (s.workers w).todo = c :: rest) :
    s.creations (.worker w position) = (((s.rows c.index).creation s.phase
      (getCoreSerial c.serial) c.serial (s.workers w).pc).map (Creation.mk c.index s.epoch)).toList := by
  simp only [State.creations, htodo]

theorem mem_creations_head (htodo : (s.workers w).todo = c :: rest) :
    x ∈ s.creations (.worker w position) ↔ x.index = c.index ∧ x.epoch = s.epoch ∧
      (s.rows c.index).creation s.phase (getCoreSerial c.serial) c.serial (s.workers w).pc =
        some x.serial := by
  rw [creations_head htodo]
  obtain ⟨k, e, σ⟩ := x
  simp only [Option.mem_toList, Option.map_eq_some_iff, Creation.mk.injEq]
  constructor
  · rintro ⟨σ, hc, rfl, rfl, rfl⟩
    exact ⟨rfl, rfl, hc⟩
  · rintro ⟨rfl, rfl, hc⟩
    exact ⟨σ, hc, rfl, rfl, rfl⟩

end Creations

section Log
variable {Key : Type u} [DecidableEq Key] {wl : Workload Key} {s s' : State Key}
variable {k : Key} {σ w position : Nat} {c : Call Key} {rest : List (Call Key)}
variable {pc : Pc} {r : Row} {log ev : List (Creation Key)} {x : Creation Key} {P Q : Prop}

/-- Whole runs with the log of their creations. -/
def LoggedRun (wl : Workload Key) (s : State Key) (log : List (Creation Key)) : Prop :=
  ((system wl).logged (fun i s => s.creations i)).Reachable
    (fun x => x.1 = initial wl ∧ x.2 = []) (s, log)

/-- The log has the creation once if this holds, and not at all otherwise. -/
def Once (log : List (Creation Key)) (x : Creation Key) (P : Prop) : Prop :=
  (P → log.count x = 1) ∧ (¬ P → log.count x = 0)

theorem Once.append (h : Once log x P) (hd : ev.Nodup) (hnew : x ∈ ev → ¬ P)
    (hq : Q ↔ P ∨ x ∈ ev) : Once (log ++ ev) x Q := by
  obtain ⟨h1, h0⟩ := h
  unfold Once
  rw [hq, List.count_append]
  by_cases hx : x ∈ ev
  · have hone : ev.count x = 1 := List.count_eq_one_of_mem hd hx
    have := h0 (hnew hx)
    exact ⟨fun _ => by omega, fun hn => absurd (Or.inr hx) hn⟩
  · have hzero : ev.count x = 0 := List.count_eq_zero.mpr hx
    simp only [hx, or_false, hzero, Nat.add_zero]
    exact ⟨h1, h0⟩

/-- What the current epoch has created of a row. -/
def State.Made (wl : Workload Key) (s : State Key) (k : Key) (σ : Nat) : Prop :=
  match s.phase with
  | .write => False
  | .read => (s.rows k).wBitmap.placeholders.find σ ≠ none
  | .execution => Cheetah.Made (wl.writers k s.epoch) (wl.readers k s.epoch) s.epoch (s.rows k)
      (s.place k .update) σ

/-- What holds of a log: finished epochs have created their visible versions. -/
structure LogInv (wl : Workload Key) (s : State Key) (log : List (Creation Key)) : Prop where
  past : ∀ k e σ, 1 ≤ e → e < s.epoch →
    Once log ⟨k, e, σ⟩ (Visible (wl.writers k e) (wl.readers k e) σ)
  present : ∀ k σ, Once log ⟨k, s.epoch, σ⟩ (s.Made wl k σ)
  outside : ∀ k e σ, e = 0 ∨ s.epoch < e → log.count ⟨k, e, σ⟩ = 0

/-- A step within an epoch. -/
theorem LogInv.append (h : LogInv wl s log) (he : s'.epoch = s.epoch) (h1 : 1 ≤ s.epoch)
    (hd : ev.Nodup) (hev : ∀ x ∈ ev, x.epoch = s.epoch ∧ ¬ s.Made wl x.index x.serial)
    (hmade : ∀ k σ, s'.Made wl k σ ↔ s.Made wl k σ ∨ ⟨k, s.epoch, σ⟩ ∈ ev) :
    LogInv wl s' (log ++ ev) := by
  have hother : ∀ k e σ, e ≠ s.epoch → (⟨k, e, σ⟩ : Creation Key) ∉ ev :=
    fun k e σ hne hm => hne (hev _ hm).1
  refine ⟨?_, ?_, ?_⟩
  · intro k e σ he1 hlt
    rw [he] at hlt
    have hn := hother k e σ (Nat.ne_of_lt hlt)
    exact (h.past k e σ he1 hlt).append hd (fun hm => absurd hm hn) (by simp [hn])
  · intro k σ
    rw [he]
    exact (h.present k σ).append hd (fun hm => (hev _ hm).2) (hmade k σ)
  · intro k e σ hout
    rw [he] at hout
    have hn := hother k e σ (by omega)
    rw [List.count_append, h.outside k e σ hout, List.count_eq_zero.mpr hn]

/-- A step that creates nothing. -/
theorem LogInv.keep (h : LogInv wl s log) (he : s'.epoch = s.epoch)
    (hmade : ∀ k σ, s'.Made wl k σ ↔ s.Made wl k σ) : LogInv wl s' log := by
  refine ⟨?_, ?_, ?_⟩
  · rw [he]
    exact h.past
  · intro k σ
    obtain ⟨h1, h0⟩ := h.present k σ
    unfold Once
    rw [he, hmade]
    exact ⟨h1, h0⟩
  · rw [he]
    exact h.outside

theorem made_write_phase (hp : s.phase = .write) : s.Made wl k σ ↔ False := by
  unfold State.Made
  rw [hp]

theorem made_read_phase (hp : s.phase = .read) :
    s.Made wl k σ ↔ (s.rows k).wBitmap.placeholders.find σ ≠ none := by
  unfold State.Made
  rw [hp]

theorem made_execution (hp : s.phase = .execution) : s.Made wl k σ ↔
    Cheetah.Made (wl.writers k s.epoch) (wl.readers k s.epoch) s.epoch (s.rows k)
      (s.place k .update) σ := by
  unfold State.Made
  rw [hp]

/-- A call adds its creation, on its own row. -/
theorem made_advance (h : Inv wl s) (htodo : (s.workers w).todo = c :: rest)
    (hp : s.phase ≠ .write)
    (hcall : callStep s w position c (s.workers w).pc (s.rows c.index) = some (pc, r)) :
    (∀ k σ, (s.advance w c.index pc r).Made wl k σ ↔ s.Made wl k σ ∨
      (k = c.index ∧ (s.rows c.index).creation s.phase (getCoreSerial c.serial) c.serial
        (s.workers w).pc = some σ)) ∧
    ∀ σ, (s.rows c.index).creation s.phase (getCoreSerial c.serial) c.serial
        (s.workers w).pc = some σ → ¬ s.Made wl c.index σ := by
  have hasg := program_assigned wl s.phase s.epoch
  have hmem := h.remaining.mem htodo
  rw [← hasg.owned w c hmem, mem_program] at hmem
  have hother : ∀ k, k ≠ c.index → (s.advance w c.index pc r).place k .update =
      s.place k .update := fun k hk =>
    place_advance_other h htodo (fun he => hk (congrArg Operation.index he)) pc r
  cases hphase : s.phase with
  | write => exact absurd hphase hp
  | read =>
    simp only [callStep, hphase] at hcall
    have hp' : (s.advance w c.index pc r).phase = .read := hphase
    constructor
    · intro k σ
      rw [made_read_phase hp', made_read_phase hphase]
      by_cases hk : k = c.index
      · subst hk
        rw [rows_advance_self, readPhaseStep_find (getCoreSerial c.serial) hcall]
        simp
      · rw [rows_advance hk]
        simp [hk]
    · intro σ hc
      rw [made_read_phase hphase, not_not]
      unfold Row.creation at hc
      split at hc
      · split at hc
        · rename_i hf
          rw [← Option.some.inj hc]
          exact hf
        · cases hc
      · contradiction
      · cases hc
  | execution =>
    simp only [callStep, hphase] at hcall
    have hp' : (s.advance w c.index pc r).phase = .execution := hphase
    obtain ⟨m, hrow⟩ := (rowInv_execution c.index hphase).mp (h.rows c.index)
    have hW := wl.writers_pairwise c.index s.epoch
    have hplace : s.place c.index c.operation.ope c.serial = (s.workers w).pc := by
      rw [← at_head h htodo]
      rfl
    have hself := place_advance_self h htodo pc r
    have hkeep : ∀ k σ, k ≠ c.index → ((s.advance w c.index pc r).Made wl k σ ↔
        s.Made wl k σ ∨ (k = c.index ∧ (s.rows c.index).creation .execution
          (getCoreSerial c.serial) c.serial (s.workers w).pc = some σ)) := by
      intro k σ hk
      rw [made_execution hp', made_execution hphase, hother k hk, rows_advance hk]
      simp only [hk, false_and, or_false]
      rfl
    cases hope : c.operation.ope with
    | update =>
      rw [hope] at hself hplace hcall
      have hmW : c.serial ∈ wl.writers c.index s.epoch := by
        rw [wl.mem_writers, ← hope]
        exact ⟨hmem.1, hmem.2.1⟩
      rw [← hplace] at hcall ⊢
      constructor
      · intro k σ
        by_cases hk : k = c.index
        · subst hk
          rw [made_execution hp', made_execution hphase, hself, rows_advance_self]
          simp only [true_and]
          exact hrow.made_write hW hmW hcall
        · rw [hplace]
          exact hkeep k σ hk
      · intro σ hc
        rw [made_execution hphase]
        have hpc := pc_of_creation hc
        rw [hpc] at hc
        exact hrow.not_made_of_creation hW hpc hc
    | read =>
      rw [hope] at hplace hcall
      have hne : (⟨.update, c.index⟩ : Operation Key) ≠ c.operation := by
        intro he
        rw [← he] at hope
        cases hope
      have hmR : c.serial ∈ wl.readers c.index s.epoch := by
        rw [wl.mem_readers, ← hope]
        exact ⟨hmem.1, hmem.2.1⟩
      rw [← hplace] at hcall ⊢
      have hnone := fun σ => (hrow.made_read (σ := σ) hmR hcall).2
      constructor
      · intro k σ
        by_cases hk : k = c.index
        · subst hk
          rw [made_execution hp', made_execution hphase, place_advance_other h htodo hne,
            rows_advance_self, hnone σ]
          simp only [reduceCtorEq, and_false, or_false]
          exact (hrow.made_read hmR hcall).1
        · rw [hplace]
          exact hkeep k σ hk
      · intro σ hc
        rw [hnone σ] at hc
        cases hc

/-- The log is that of the new pointers of each row. -/
theorem creations_next {i : Choice} (hstep : step wl i s = some s') (k : Key) :
    (s'.rows k).heap.next =
      (s.rows k).heap.next + (s.creations i).countP (fun x => x.index = k) := by
  have hsame : s.creations i = [] → (s'.rows k).heap.next = (s.rows k).heap.next →
      (s'.rows k).heap.next =
        (s.rows k).heap.next + (s.creations i).countP (fun x => x.index = k) := by
    intro hc hn
    rw [hc, hn]
    rfl
  rcases step_cases hstep with ⟨w, _, c, rest, rfl, htodo, hpc, rfl⟩ | ⟨w, _, rfl, htodo, hp, hf⟩ |
    ⟨w, position, c, rest, rfl, htodo, hp, rfl⟩ |
    ⟨w, position, c, rest, pc, r, rfl, htodo, hp, hcall, rfl⟩ | ⟨rfl, hall, he⟩
  · apply hsame _ rfl
    rw [creations_head htodo, hpc, creation_done]
    rfl
  · apply hsame
    · simp [State.creations, htodo]
    · have hkeep : ∀ (k' : Key) (row : Row), row.heap = (s.rows k').heap →
          (Function.update s.rows k' row k).heap.next = (s.rows k).heap.next := by
        intro k' row hr
        by_cases hk : k = k'
        · subst hk
          rw [Function.update_self, hr]
        · rw [Function.update_of_ne hk]
      unfold State.finalize at hf
      simp only at hf
      split at hf
      · split at hf
        · split at hf
          · cases hf
          · cases hf
            rfl
        · split at hf
          · cases hf
            rfl
          · rename_i row hlock
            obtain ⟨l, _, rfl⟩ := Option.map_eq_some_iff.mp hlock
            cases hf
            exact hkeep _ _ rfl
      · cases hf
        exact hkeep _ _ rfl
      · cases hf
        exact hkeep _ _ rfl
  · apply hsame _ rfl
    rw [creations_head htodo, hp, creation_write]
    rfl
  · by_cases hk : k = c.index
    · subst hk
      rw [rows_advance_self, creations_head htodo]
      have hnext : r.heap.next = (s.rows c.index).heap.next + ((s.rows c.index).creation s.phase
          (getCoreSerial c.serial) c.serial (s.workers w).pc).toList.length := by
        unfold callStep at hcall
        cases hphase : s.phase with
        | write => exact absurd hphase hp
        | read =>
          rw [hphase] at hcall
          exact readPhaseStep_next _ hcall
        | execution =>
          rw [hphase] at hcall
          exact executionStep_next hcall
      rw [hnext]
      cases (s.rows c.index).creation s.phase (getCoreSerial c.serial) c.serial (s.workers w).pc with
      | none => rfl
      | some σ => simp
    · rw [rows_advance hk, creations_head htodo]
      cases (s.rows c.index).creation s.phase (getCoreSerial c.serial) c.serial (s.workers w).pc with
      | none => rfl
      | some σ => simp [Ne.symm hk]
  · apply hsame rfl
    subst he
    cases s.phase <;> rfl

/-- Opening the next phase. -/
theorem LogInv.barrier (h : LogInv wl s log) (hi : Inv wl s)
    (hall : ∀ w < 64, (s.workers w).todo = []) (he : s' = match s.phase with
      | .write => s.enter wl .read s.epoch
      | .read => s.enter wl .execution s.epoch
      | .execution => s.enter wl .write (s.epoch + 1)) : LogInv wl s' log := by
  have hdone := at_finished hi hall
  cases hphase : s.phase with
  | write =>
    rw [hphase] at he
    subst he
    refine h.keep rfl (fun k σ => ?_)
    have hrow := ((rowInv_write k hphase).mp (hi.rows k)).resting
    rw [made_read_phase rfl, made_write_phase hphase]
    change (s.rows k).wBitmap.placeholders.find σ ≠ none ↔ False
    rw [hrow.placeholders]
    simp
  | read =>
    rw [hphase] at he
    subst he
    refine h.keep rfl (fun k σ => ?_)
    have hrow := (rowInv_read k hphase).mp (hi.rows k)
    have hnf : finalized (wl.writers k s.epoch)
        ((s.enter wl .execution s.epoch).place k .update) = false := by
      unfold finalized
      cases hl : (wl.writers k s.epoch).getLast? with
      | none => rfl
      | some f =>
        have hstart : (s.enter wl .execution s.epoch).place k .update f = .start :=
          at_enter wl s ((writer_mem_program (by simp)).mpr (List.mem_of_getLast? hl))
        simp only [hstart]
        rfl
    rw [made_execution rfl, made_read_phase hphase]
    unfold Cheetah.Made
    change (∃ v, Resolved _ _ s.epoch (s.rows k) σ v) ∨ (finalized (wl.writers k s.epoch) _ = true ∧ _)
      ↔ _
    rw [hnf, Option.ne_none_iff_exists']
    simp only [Bool.false_eq_true, false_and, or_false,
      hrow.find_iff_of_done (fun serial => hdone _)]
    rfl
  | execution =>
    rw [hphase] at he
    subst he
    refine ⟨?_, ?_, ?_⟩
    · intro k e σ he hlt
      have hlt : e < s.epoch + 1 := hlt
      rcases Nat.lt_or_eq_of_le (Nat.lt_succ_iff.mp hlt) with hlt | rfl
      · exact h.past k e σ he hlt
      · obtain ⟨m, hrow⟩ := (rowInv_execution k hphase).mp (hi.rows k)
        have hmade := h.present k σ
        unfold Once at hmade ⊢
        rw [made_execution hphase,
          hrow.made_of_done (wl.writers_pairwise _ _) (fun serial => hdone _)] at hmade
        exact hmade
    · intro k σ
      have hzero := h.outside k (s.epoch + 1) σ (Or.inr (Nat.lt_succ_self _))
      exact ⟨fun hm => absurd hm (by rw [made_write_phase rfl]; exact id), fun _ => hzero⟩
    · intro k e σ hout
      have hout : e = 0 ∨ s.epoch + 1 < e := hout
      exact h.outside k e σ (by omega)

theorem LogInv.step {i : Choice} (h : LogInv wl s log) (hi : Inv wl s)
    (hstep : step wl i s = some s') : LogInv wl s' (log ++ s.creations i) := by
  rcases step_cases hstep with ⟨w, position, c, rest, rfl, htodo, hpc, rfl⟩ |
    ⟨w, position, rfl, htodo, hp, hf⟩ |
    ⟨w, position, c, rest, rfl, htodo, hp, rfl⟩ |
    ⟨w, position, c, rest, pc, r, rfl, htodo, hp, hcall, rfl⟩ | ⟨rfl, hall, he⟩
  · have hnil : s.creations (.worker w position) = [] := by
      rw [creations_head htodo, hpc, creation_done]
      rfl
    have hat : (s.return w rest).at = s.at :=
      view_return (program_assigned wl s.phase s.epoch) hi.remaining htodo hpc
    rw [hnil, List.append_nil]
    refine h.keep rfl (fun k σ => ?_)
    unfold State.Made State.place
    rw [hat]
    rfl
  · have hnil : s.creations (.worker w position) = [] := by
      simp [State.creations, htodo]
    have hsame : s'.epoch = s.epoch ∧ s'.phase = s.phase := by
      unfold State.finalize at hf
      simp only at hf
      repeat' split at hf
      all_goals
        cases hf
        try exact ⟨rfl, rfl⟩
    rw [hnil, List.append_nil]
    refine h.keep hsame.1 (fun k σ => ?_)
    rw [made_write_phase hp, made_write_phase (hsame.2.trans hp)]
  · have hnil : s.creations (.worker w position) = [] := by
      rw [creations_head htodo, hp, creation_write]
      rfl
    have hp' : (s.updateWriteBitmaps w position c).phase = .write := hp
    rw [hnil, List.append_nil]
    refine h.keep rfl (fun k σ => ?_)
    rw [made_write_phase hp, made_write_phase hp']
  · obtain ⟨hmade, hnew⟩ := made_advance hi htodo hp hcall
    refine h.append rfl hi.epoch ?_ ?_ ?_
    · rw [creations_head htodo]
      cases (s.rows c.index).creation s.phase (getCoreSerial c.serial) c.serial
        (s.workers w).pc <;> simp
    · intro x hx
      obtain ⟨hk, he, hc⟩ := (mem_creations_head htodo).mp hx
      exact ⟨he, hk ▸ hnew x.serial hc⟩
    · intro k σ
      rw [hmade, mem_creations_head htodo]
      simp
  · have hnil : s.creations .barrier = [] := rfl
    rw [hnil, List.append_nil]
    exact h.barrier hi (fun w hw => (hall w hw).1) he

/-- What is created in a run, by row, epoch and serial id. -/
theorem LoggedRun.inv (h : LoggedRun wl s log) : Inv wl s ∧ LogInv wl s log := by
  suffices hx : ∀ x : State Key × List (Creation Key), ((system wl).logged
      (fun i s => s.creations i)).Reachable (fun x => x.1 = initial wl ∧ x.2 = []) x →
        Inv wl x.1 ∧ LogInv wl x.1 x.2 from hx (s, log) h
  intro x hx
  induction hx with
  | @start x hx =>
    obtain ⟨s, log⟩ := x
    obtain ⟨rfl, rfl⟩ := hx
    refine ⟨inv_initial, ?_, ?_, ?_⟩
    · intro k e σ he hlt
      exact absurd (Nat.lt_of_le_of_lt he hlt) (Nat.lt_irrefl 1)
    · exact fun k σ => ⟨fun hm => absurd hm (by rw [made_write_phase rfl]; exact id), fun _ => rfl⟩
    · exact fun _ _ _ _ => rfl
  | @next x y i _ hstep ih =>
    obtain ⟨hs, hlog⟩ := TransitionSystem.logged_step hstep
    refine ⟨ih.1.step hs, ?_⟩
    rw [hlog]
    exact ih.2.step ih.1 hs

/-- The log misses no version of a row: it has the loaded one and those in the log. -/
theorem LoggedRun.next (h : LoggedRun wl s log) (k : Key) :
    (s.rows k).heap.next = 1 + log.countP (fun x => x.index = k) := by
  suffices hx : ∀ x : State Key × List (Creation Key), ((system wl).logged
      (fun i s => s.creations i)).Reachable (fun x => x.1 = initial wl ∧ x.2 = []) x →
        (x.1.rows k).heap.next = 1 + x.2.countP (fun x => x.index = k) from hx (s, log) h
  intro x hx
  induction hx with
  | @start x hx =>
    obtain ⟨s, log⟩ := x
    obtain ⟨rfl, rfl⟩ := hx
    rfl
  | next i _ hstep ih =>
    obtain ⟨hs, hlog⟩ := TransitionSystem.logged_step hstep
    rw [hlog, creations_next hs k, ih, List.countP_append, Nat.add_assoc]

/-- Every finished epoch has created one version for each visible write of each
row and none for any other, and a write that is not visible gets no version and
leaves the row's master and placeholders alone. -/
theorem creates_exactly_visible (h : LoggedRun wl s log) :
    (∀ k e σ, 1 ≤ e → e < s.epoch ∨ (e = s.epoch ∧ s.phase = .execution ∧ s.finished = true) →
      log.count ⟨k, e, σ⟩ = if Visible (wl.writers k e) (wl.readers k e) σ then 1 else 0) ∧
    (∀ k e σ, log.count ⟨k, e, σ⟩ ≤ 1) ∧
    (s.phase = .execution → ∀ w position c rest, (s.workers w).todo = c :: rest →
      c.operation.ope = .update →
      ¬ Visible (wl.writers c.index s.epoch) (wl.readers c.index s.epoch) c.serial →
      ((s.workers w).pc = .start ∨ (s.workers w).pc = .identifyWrite ∨
        (s.workers w).pc = .unlockWrite none ∨ (s.workers w).pc = .done) ∧
      ∀ s', step wl (.worker w position) s = some s' → ∀ k,
        (s'.rows k).wBitmap.master = (s.rows k).wBitmap.master ∧
        (s'.rows k).wBitmap.placeholders = (s.rows k).wBitmap.placeholders) ∧
    (∀ k, (s.rows k).heap.next = 1 + log.countP (fun x => x.index = k)) := by
  obtain ⟨hi, hl⟩ := h.inv
  have honce : ∀ {x : Creation Key} {P : Prop} [Decidable P], Once log x P →
      log.count x = if P then 1 else 0 := by
    intro x P _ ho
    split
    · exact ho.1 ‹_›
    · exact ho.2 ‹_›
  have hle : ∀ {x : Creation Key} {P : Prop}, Once log x P → log.count x ≤ 1 := by
    intro x P ho
    by_cases hP : P
    · exact Nat.le_of_eq (ho.1 hP)
    · rw [ho.2 hP]
      exact Nat.zero_le 1
  refine ⟨?_, ?_, ?_, h.next⟩
  · rintro k e σ he (hlt | ⟨rfl, hphase, hfin⟩)
    · exact honce (hl.past k e σ he hlt)
    · have hall := State.finished_iff.mp hfin
      obtain ⟨m, hrow⟩ := (rowInv_execution k hphase).mp (hi.rows k)
      have hmade := hl.present k σ
      rw [made_execution hphase,
        hrow.made_of_done (wl.writers_pairwise _ _) (fun serial => at_finished hi hall _)] at hmade
      exact honce hmade
  · intro k e σ
    rcases Nat.lt_trichotomy e s.epoch with hlt | rfl | hgt
    · rcases Nat.eq_zero_or_pos e with hz | hpos
      · rw [hl.outside k e σ (Or.inl hz)]
        exact Nat.zero_le 1
      · exact hle (hl.past k e σ hpos hlt)
    · exact hle (hl.present k σ)
    · rw [hl.outside k e σ (Or.inr hgt)]
      exact Nat.zero_le 1
  · intro hphase w position c rest htodo hope hv
    obtain ⟨m, hrow⟩ := (rowInv_execution c.index hphase).mp (hi.rows c.index)
    have hmem := hi.remaining.mem htodo
    rw [← (program_assigned wl s.phase s.epoch).owned w c hmem, mem_program] at hmem
    have hW : c.serial ∈ wl.writers c.index s.epoch := by
      rw [wl.mem_writers, ← hope]
      exact ⟨hmem.1, hmem.2.1⟩
    have hplace : s.place c.index .update c.serial = (s.workers w).pc := by
      rw [← hope, ← at_head hi htodo]
      rfl
    refine ⟨by rw [← hplace]; exact hrow.hidden_place hv hW, ?_⟩
    intro s' hstep k
    simp only [step, htodo, hphase, reduceCtorEq, if_false] at hstep
    split at hstep
    · cases hstep
      exact ⟨rfl, rfl⟩
    · obtain ⟨⟨pc, r⟩, hcall, rfl⟩ := Option.map_eq_some_iff.mp hstep
      simp only [callStep, hphase, hope, ← hplace] at hcall
      by_cases hk : k = c.index
      · subst hk
        simp only [rows_advance_self]
        exact hrow.hidden_step (wl.writers_pairwise _ _) hv hW hcall
      · rw [rows_advance hk]
        exact ⟨rfl, rfl⟩

end Log

section Runs

def overwritten : Workload Unit where
  txs i := if i = 0 ∨ i = 1 then [⟨.update, ()⟩] else []
  distinct := by
    intro i
    split <;> simp

def overwrite : List Choice :=
  List.replicate 8 (.worker 0 0) ++ [.barrier, .barrier] ++ List.replicate 4 (.worker 0 0) ++
    List.replicate 6 (.worker 1 0)

/-- The first of the two is never created. -/
theorem overwritten_is_hidden : ∃ (s : State Unit) (log : List (Creation Unit)),
    LoggedRun overwritten s log ∧ s.finished = true ∧ log.count ⟨(), 1, 0⟩ = 0 ∧
      log.count ⟨(), 1, 1⟩ = 1 := by
  have hstart : LoggedRun overwritten (initial overwritten) [] := .start ⟨rfl, rfl⟩
  have hrun : (((system overwritten).logged (fun i s => s.creations i)).run overwrite
      (initial overwritten, [])).map (fun x => (x.1.epoch, x.1.phase, x.1.finished)) =
        some (1, .execution, true) := by
    decide +kernel
  obtain ⟨⟨s, log⟩, hs, hshow⟩ := TransitionSystem.Reachable.of_run_map hstart hrun
  simp only [Prod.mk.injEq] at hshow
  obtain ⟨he, hphase, hfin⟩ := hshow
  have hcount := fun σ => (creates_exactly_visible hs).1 () 1 σ (Nat.le_refl 1)
    (Or.inr ⟨he.symm, hphase, hfin⟩)
  refine ⟨s, log, hs, hfin, ?_, ?_⟩
  · have hv : ¬ Visible (overwritten.writers () 1) (overwritten.readers () 1) 0 := by decide +kernel
    rw [hcount, if_neg hv]
  · have hv : Visible (overwritten.writers () 1) (overwritten.readers () 1) 1 := by decide +kernel
    rw [hcount, if_pos hv]

end Runs
end Mvdcc.Cheetah
