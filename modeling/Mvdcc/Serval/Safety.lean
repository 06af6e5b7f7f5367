import Mvdcc.Common.Workers
import Mvdcc.Serval.Epochs

namespace Mvdcc.Serval
open Library Bitmap

section Safety
variable {Key : Type u} {wl : Workload Key} {numRegions : Nat}

/-- Sequential assignment when appending, round-robin assignment when executing. -/
def owner (phase : Phase) (serial : Nat) : Nat :=
  match phase with
  | .initialization => serial / 64
  | .execution => serial % 64

theorem program_assigned (wl : Workload Key) (phase : Phase) (e : Nat) :
    Assignment (owner phase) (program wl phase e) := by
  cases phase with
  | initialization => exact sequential_assigned (wl.wSet_nodup e)
  | execution => exact roundRobin_assigned (wl.rwSet_nodup e)

theorem mem_program {phase : Phase} {e : Nat} {c : Call Key} :
    c ∈ program wl phase e (owner phase c.serial) ↔ c.serial < numTxsInOneEpoch ∧
      c.operation ∈ wl.rwSet e c.serial ∧
        (phase = .initialization → c.operation.ope = .update) := by
  cases phase with
  | initialization =>
    refine mem_sequential_program.trans ?_
    simp [Workload.mem_wSet]
  | execution =>
    refine mem_roundRobin_program.trans ?_
    simp

def State.finished (s : State Key) : Bool :=
  (List.range 64).all (fun w => (s.workers w).todo.isEmpty)

theorem State.finished_iff {s : State Key} :
    s.finished = true ↔ ∀ w < 64, (s.workers w).todo = [] := by
  simp [finished]

variable [DecidableEq Key]

/-- Where the operation of transaction `serial` on the row stands. -/
def State.place (s : State Key) (k : Key) (ope : Ope) (serial : Nat) : Pc :=
  view .start .done (owner s.phase) s.workers ⟨serial, ⟨ope, k⟩⟩

def State.own (s : State Key) (k : Key) : RowRegion := (s.memory k).own

def RowInv (wl : Workload Key) (s : State Key) (k : Key) : Prop :=
  match s.phase with
  | .initialization => Preparing (wl.writers k s.epoch) s.epoch (wl.trailOf k s.epoch) (s.rows k)
      (s.own k) (s.place k .update)
  | .execution => Running (wl.writers k s.epoch) s.epoch (wl.trailOf k s.epoch) (s.rows k)
      (s.own k) (s.place k .update) ∧
      ∀ serial, ReaderOk (s.rows k) (s.own k) s.epoch serial (s.place k .read serial)

structure Inv (wl : Workload Key) (s : State Key) : Prop where
  epoch : 1 ≤ s.epoch
  remaining : Remaining (program wl s.phase s.epoch) s.workers
  pool : ∀ i, s.controller.used ≤ i → s.controller.regions i = RowRegion.fresh
  installed : ∀ k i, (s.rows k).value.rowRegion = some i → i < s.controller.used
  distinct : ∀ k k' i, (s.rows k).value.rowRegion = some i →
    (s.rows k').value.rowRegion = some i → k = k'
  rows : ∀ k, RowInv wl s k

/-- The shapes of a step. -/
theorem step_cases {i : Choice} {s s' : State Key} (h : step wl numRegions i s = some s') :
    (∃ w c rest, (s.workers w).todo = c :: rest ∧ (s.workers w).pc = .done ∧
      s' = { s with workers := Function.update s.workers w ⟨rest, .start⟩ }) ∨
    (∃ w c rest pc m, (s.workers w).todo = c :: rest ∧
      callStep numRegions s w c (s.workers w).pc (s.memory c.index) = some (pc, m) ∧
      s' = s.advance w c.index pc m) ∨
    ((∀ w < 64, (s.workers w).todo = []) ∧
      ((s.phase = .initialization ∧ s' = s.enter wl .execution s.epoch) ∨
        (s.phase = .execution ∧ s' = s.enter wl .initialization (s.epoch + 1)))) := by
  cases i with
  | worker w =>
    simp only [step] at h
    split at h
    · cases h
    · rename_i c rest htodo
      split at h
      · rename_i hpc
        exact Or.inl ⟨w, c, rest, htodo, hpc, (Option.some.inj h).symm⟩
      · obtain ⟨⟨pc, m⟩, hcall, he⟩ := Option.map_eq_some_iff.mp h
        exact Or.inr (Or.inl ⟨w, c, rest, pc, m, htodo, hcall, he.symm⟩)
  | barrier =>
    simp only [step] at h
    split at h
    · rename_i hall
      refine Or.inr (Or.inr ⟨hall, ?_⟩)
      cases hp : s.phase with
      | initialization =>
        simp only [hp, Option.some.injEq] at h
        exact Or.inl ⟨rfl, h.symm⟩
      | execution =>
        simp only [hp, Option.some.injEq] at h
        exact Or.inr ⟨rfl, h.symm⟩
    · cases h

theorem memory_advance (s : State Key) (w : Nat) (k : Key) (pc : Pc) (m : Memory) :
    (s.advance w k pc m).memory k = m := by
  simp [State.memory, State.advance]

theorem rows_advance {s : State Key} {w : Nat} {k k' : Key} {pc : Pc} {m : Memory} (h : k' ≠ k) :
    (s.advance w k pc m).rows k' = s.rows k' :=
  Function.update_of_ne h _ _

/-- Another row keeps its region when a step touches the pool. -/
theorem own_advance {s : State Key} (hi : Inv wl s) {w : Nat} {k k' : Key} {pc : Pc} {m : Memory}
    (hp : PoolStep (s.memory k) m) (h : k' ≠ k) : (s.advance w k pc m).own k' = s.own k' := by
  unfold State.own
  cases hr : (s.rows k').value.rowRegion with
  | none =>
    have hr' : ((s.advance w k pc m).rows k').value.rowRegion = none := by
      rw [rows_advance h]
      exact hr
    exact (Memory.own_of_none hr').trans (Memory.own_of_none hr).symm
  | some i =>
    have hr' : ((s.advance w k pc m).rows k').value.rowRegion = some i := by
      rw [rows_advance h]
      exact hr
    refine (Memory.own_of_some hr').trans (Eq.trans ?_ (Memory.own_of_some hr).symm)
    apply hp.regions
    intro he
    rcases hp.pool with ⟨hsame, _⟩ | ⟨_, hnew, _⟩
    · exact h (hi.distinct k' k i hr (hsame ▸ he))
    · have := hi.installed k' i hr
      rw [he, Option.some.injEq] at hnew
      change i = s.controller.used at hnew
      omega

/-- A finished phase has finished every call. -/
theorem place_finished {s : State Key} (hr : Remaining (program wl s.phase s.epoch) s.workers)
    (hall : ∀ w < 64, (s.workers w).todo = []) (k : Key) (ope : Ope) (serial : Nat) :
    s.place k ope serial = .done := by
  apply view_finished
  by_cases hw : owner s.phase serial < 64
  · exact hall _ hw
  · have hs := hr (owner s.phase serial)
    unfold program at hs
    rw [if_neg hw] at hs
    exact List.suffix_nil.mp hs

theorem place_enter (wl : Workload Key) (s : State Key) (phase : Phase) (e : Nat) (k : Key) (ope : Ope)
    (serial : Nat) :
    (⟨serial, ⟨ope, k⟩⟩ ∈ program wl phase e (owner phase serial) ∧
      (s.enter wl phase e).place k ope serial = .start) ∨
    (⟨serial, ⟨ope, k⟩⟩ ∉ program wl phase e (owner phase serial) ∧
      (s.enter wl phase e).place k ope serial = .done) := by
  by_cases h : (⟨serial, ⟨ope, k⟩⟩ : Call Key) ∈ program wl phase e (owner phase serial)
  · exact Or.inl ⟨h, view_enter h⟩
  · exact Or.inr ⟨h, view_not_mem (fun _ => List.suffix_refl _) h⟩

theorem writer_mem_program {phase : Phase} {e serial : Nat} {k : Key} :
    ⟨serial, ⟨.update, k⟩⟩ ∈ program wl phase e (owner phase serial) ↔
      serial ∈ wl.writers k e := by
  rw [mem_program (c := ⟨serial, ⟨.update, k⟩⟩), wl.mem_writers]
  simp

/-- Only writers have a write of the row under way. -/
theorem Inv.place_not_writer {s : State Key} {serial : Nat} {k : Key} (h : Inv wl s)
    (hs : serial ∉ wl.writers k s.epoch) : s.place k .update serial = .done :=
  view_not_mem h.remaining (fun hm => hs (writer_mem_program.mp hm))

/-- Opening the execution phase. -/
theorem Inv.enter_execution {s : State Key} (h : Inv wl s) (hp : s.phase = .initialization)
    (hall : ∀ w < 64, (s.workers w).todo = []) : Inv wl (s.enter wl .execution s.epoch) := by
  refine ⟨h.epoch, fun _ => List.suffix_refl _, h.pool, h.installed, h.distinct, fun k => ?_⟩
  have hk := h.rows k
  unfold RowInv at hk
  rw [hp] at hk
  refine ⟨hk.finish (place_finished h.remaining hall k .update) ?_, ?_⟩
  · intro serial hs
    rcases place_enter wl s .execution s.epoch k .update serial with ⟨_, hst⟩ | ⟨hn, _⟩
    · exact hst
    · exact absurd (writer_mem_program.mpr hs) hn
  · intro serial
    rcases place_enter wl s .execution s.epoch k .read serial with ⟨_, hst⟩ | ⟨_, hd⟩
    · rw [hst]
      trivial
    · rw [hd]
      trivial

/-- Opening the initialization phase of the next epoch. -/
theorem Inv.enter_initialization {s : State Key} (h : Inv wl s) (hp : s.phase = .execution)
    (hall : ∀ w < 64, (s.workers w).todo = []) :
    Inv wl (s.enter wl .initialization (s.epoch + 1)) := by
  refine ⟨Nat.le_add_left 1 s.epoch, fun _ => List.suffix_refl _, h.pool, h.installed, h.distinct,
    fun k => ?_⟩
  have hk := h.rows k
  unfold RowInv at hk
  rw [hp] at hk
  obtain ⟨hset, hfut⟩ := hk.1.settled h.epoch (place_finished h.remaining hall k .update)
  refine Or.inl ⟨hset, ?_, hfut⟩
  intro serial hs
  rcases place_enter wl s .initialization (s.epoch + 1) k .update serial with
    ⟨_, hst⟩ | ⟨hn, _⟩
  · rw [hst]
    trivial
  · exact absurd (writer_mem_program.mpr hs) hn

theorem inv_initial : Inv wl (initial wl) := by
  refine ⟨Nat.le_refl 1, fun _ => List.suffix_refl _, fun _ _ => rfl, ?_, ?_, fun k => ?_⟩
  · intro k i hi
    simp [initial, loadedRow] at hi
  · intro k k' i hi
    simp [initial, loadedRow] at hi
  · have ht : wl.trailOf k 1 = ⟨0, none, none⟩ := by
      rw [Workload.trailOf, trail_succ_none (by simp [Workload.finalWriter])]
      rfl
    refine Or.inl ⟨?_, ?_, fun _ _ _ => rfl⟩
    · change Settled loadedRow RowRegion.fresh (wl.trailOf k 1)
      rw [ht]
      exact settled_loaded
    · intro serial hs
      have hst : (initial wl).place k .update serial = .start :=
        view_enter (writer_mem_program.mpr hs)
      rw [hst]
      trivial

/-- What a step on one row may do to the rest: the pool only grows, by a region
that goes to this row. -/
theorem Inv.pool_step {s : State Key} (h : Inv wl s) {w : Nat} {k : Key} {pc : Pc} {m : Memory}
    (hp : PoolStep (s.memory k) m) :
    (∀ i, m.controller.used ≤ i → m.controller.regions i = RowRegion.fresh) ∧
    (∀ k' i, ((s.advance w k pc m).rows k').value.rowRegion = some i → i < m.controller.used) ∧
    (∀ k₁ k₂ i, ((s.advance w k pc m).rows k₁).value.rowRegion = some i →
      ((s.advance w k pc m).rows k₂).value.rowRegion = some i → k₁ = k₂) := by
  have hself : (s.advance w k pc m).rows k = m.toRow := Function.update_self _ _ _
  have hused : s.controller.used ≤ m.controller.used ∧
      ∀ i, m.value.rowRegion = some i → i < m.controller.used ∧
        ((s.rows k).value.rowRegion = some i ∨ i = s.controller.used) := by
    rcases hp.pool with ⟨hr, hu⟩ | ⟨_, hr, hu⟩
    · refine ⟨Nat.le_of_eq hu.symm, ?_⟩
      intro i hi
      rw [hr] at hi
      exact ⟨hu ▸ h.installed k i hi, Or.inl hi⟩
    · change m.controller.used = s.controller.used + 1 at hu
      change m.value.rowRegion = some s.controller.used at hr
      refine ⟨by omega, ?_⟩
      intro i hi
      rw [hr, Option.some.injEq] at hi
      exact ⟨by omega, Or.inr hi.symm⟩
  have hother : ∀ k' i, k' ≠ k → ((s.advance w k pc m).rows k').value.rowRegion = some i →
      (s.rows k').value.rowRegion = some i ∧ i < s.controller.used := by
    intro k' i hne hi
    rw [rows_advance hne] at hi
    exact ⟨hi, h.installed k' i hi⟩
  have hcross : ∀ k' i, k' ≠ k → ((s.advance w k pc m).rows k').value.rowRegion = some i →
      m.value.rowRegion ≠ some i := by
    intro k' i hne hi he
    obtain ⟨hi', hlt⟩ := hother k' i hne hi
    rcases (hused.2 i he).2 with hold | hnew
    · exact hne (h.distinct k' k i hi' hold)
    · omega
  refine ⟨?_, ?_, ?_⟩
  · intro i hle
    rw [hp.regions i (fun he => by have := (hused.2 i he).1; omega)]
    exact h.pool i (Nat.le_trans hused.1 hle)
  · intro k' i hi
    by_cases hk : k' = k
    · subst hk
      rw [hself] at hi
      exact (hused.2 i hi).1
    · exact Nat.lt_of_lt_of_le (hother k' i hk hi).2 hused.1
  · intro k₁ k₂ i h₁ h₂
    by_cases hk₁ : k₁ = k <;> by_cases hk₂ : k₂ = k
    · rw [hk₁, hk₂]
    · subst hk₁
      rw [hself] at h₁
      exact absurd h₁ (hcross k₂ i hk₂ h₂)
    · subst hk₂
      rw [hself] at h₂
      exact absurd h₂ (hcross k₁ i hk₁ h₁)
    · exact h.distinct k₁ k₂ i (hother k₁ i hk₁ h₁).1 (hother k₂ i hk₂ h₂).1

section Advance
variable {s : State Key} {w : Nat} {c : Call Key} {rest : List (Call Key)} {pc : Pc} {m : Memory}

theorem place_advance (h : Inv wl s) (htodo : (s.workers w).todo = c :: rest) (k : Key)
    (ope : Ope) : (s.advance w c.index pc m).place k ope = fun serial =>
      Function.update (view .start .done (owner s.phase) s.workers) c pc ⟨serial, ⟨ope, k⟩⟩ := by
  funext serial
  exact congrFun (view_advance (program_assigned wl s.phase s.epoch) h.remaining htodo pc) _

theorem place_advance_self (h : Inv wl s) (htodo : (s.workers w).todo = c :: rest) (pc : Pc)
    (m : Memory) :
    (s.advance w c.index pc m).place c.index c.operation.ope =
      Function.update (s.place c.index c.operation.ope) c.serial pc := by
  rw [place_advance h htodo]
  exact update_place _ _ _

theorem place_advance_other (h : Inv wl s) (htodo : (s.workers w).todo = c :: rest) {k : Key}
    {ope : Ope} (hne : (⟨ope, k⟩ : Operation Key) ≠ c.operation) :
    (s.advance w c.index pc m).place k ope = s.place k ope := by
  rw [place_advance h htodo]
  funext serial
  exact update_place_other _ _ _ hne serial

/-- Rows that a step does not touch keep what holds of them. -/
theorem rowInv_other (h : Inv wl s) (htodo : (s.workers w).todo = c :: rest)
    (hp : PoolStep (s.memory c.index) m) {k : Key} (hk : k ≠ c.index) :
    RowInv wl (s.advance w c.index pc m) k := by
  have hne : ∀ ope, (⟨ope, k⟩ : Operation Key) ≠ c.operation :=
    fun ope he => hk (congrArg Operation.index he)
  have hold := h.rows k
  unfold RowInv at hold ⊢
  rw [rows_advance hk, own_advance h hp hk, place_advance_other h htodo (hne .update),
    place_advance_other h htodo (hne .read)]
  exact hold

/-- One step inside a call keeps the invariant, if it keeps that of its row. -/
theorem Inv.advance (h : Inv wl s) (htodo : (s.workers w).todo = c :: rest)
    (hp : PoolStep (s.memory c.index) m) (hrow : RowInv wl (s.advance w c.index pc m) c.index) :
    Inv wl (s.advance w c.index pc m) := by
  obtain ⟨hpool, hinst, hdist⟩ := h.pool_step hp
  refine ⟨h.epoch, h.remaining.advance w pc, hpool, hinst, hdist, fun k => ?_⟩
  by_cases hk : k = c.index
  · rw [hk]
    exact hrow
  · exact rowInv_other h htodo hp hk

theorem Inv.turn (h : Inv wl s) (hphase : s.phase = .initialization)
    (htodo : (s.workers w).todo = c :: rest) :
    c.operation.ope = .update ∧ w = c.serial / 64 ∧
      Turn (wl.writers c.index s.epoch) s.epoch (wl.trailOf c.index s.epoch)
        (s.place c.index .update) c.serial := by
  have hasg := program_assigned wl s.phase s.epoch
  have hmem := h.remaining.mem htodo
  have hw := hasg.owned w c hmem
  have hc := hmem
  rw [← hw, mem_program] at hc
  have hope := hc.2.2 hphase
  have hcall : c = ⟨c.serial, ⟨.update, c.index⟩⟩ := by
    rw [← hope]
    rfl
  refine ⟨hope, ?_, ⟨?_, ?_, ?_, ?_, ?_⟩⟩
  · rw [← hw, hphase]
    rfl
  · intro s' hs'
    exact (wl.mem_writers.mp hs').1
  · intro st hst
    exact trail_before s.epoch (Or.inl hst)
  · rw [hcall, ← hw] at hmem
    exact writer_mem_program.mp hmem
  · intro s' hs' hcore hne
    have hm' : (⟨s', ⟨.update, c.index⟩⟩ : Call Key) ∈ program wl s.phase s.epoch w := by
      have howner : owner s.phase s' = w := by
        rw [← hw, hphase]
        exact hcore
      rw [← howner]
      exact writer_mem_program.mpr hs'
    have hne' : (⟨s', ⟨.update, c.index⟩⟩ : Call Key) ≠ c :=
      fun he => hne (congrArg Call.serial he)
    exact view_others hasg h.remaining htodo hm' rfl hne'
  · exact fun s' hs' => h.place_not_writer hs'

theorem Inv.append_step (h : Inv wl s) (hphase : s.phase = .initialization)
    (htodo : (s.workers w).todo = c :: rest)
    (hcall : callStep numRegions s w c (s.workers w).pc (s.memory c.index) = some (pc, m)) :
    Inv wl (s.advance w c.index pc m) ∧ PoolStep (s.memory c.index) m := by
  obtain ⟨hope, hw, turn⟩ := h.turn hphase htodo
  have hrow := h.rows c.index
  unfold RowInv at hrow
  rw [hphase] at hrow
  have hpc : (s.workers w).pc = s.place c.index .update c.serial := by
    rw [← view_head (program_assigned wl s.phase s.epoch) h.remaining htodo, ← hope]
    rfl
  simp only [callStep, hphase] at hcall
  rw [hpc, hw] at hcall
  have hlt : (wl.trailOf c.index s.epoch).epoch < s.epoch := trail_epoch_lt h.epoch
  have hkeep := Preparing.step (m := s.memory c.index) hrow turn hlt
    (fun _ => h.pool _ (Nat.le_refl _)) hcall
  refine ⟨h.advance htodo hkeep.2 ?_, hkeep.2⟩
  have hself := place_advance_self h htodo pc m
  rw [hope] at hself
  unfold RowInv
  have hp' : (s.advance w c.index pc m).phase = .initialization := hphase
  rw [hp', hself, State.own, memory_advance]
  have hrows : (s.advance w c.index pc m).rows c.index = m.toRow := Function.update_self _ _ _
  rw [hrows]
  exact hkeep.1

theorem Inv.execution_step (h : Inv wl s) (hphase : s.phase = .execution)
    (htodo : (s.workers w).todo = c :: rest)
    (hcall : callStep numRegions s w c (s.workers w).pc (s.memory c.index) = some (pc, m)) :
    Inv wl (s.advance w c.index pc m) ∧ PoolStep (s.memory c.index) m := by
  have hasg := program_assigned wl s.phase s.epoch
  have hmem := h.remaining.mem htodo
  rw [← hasg.owned w c hmem] at hmem
  have hrow := h.rows c.index
  unfold RowInv at hrow
  rw [hphase] at hrow
  obtain ⟨hrun, hread⟩ := hrow
  have hpc : (s.workers w).pc = s.place c.index c.operation.ope c.serial :=
    (view_head hasg h.remaining htodo).symm
  have hp' : (s.advance w c.index pc m).phase = .execution := hphase
  have hrows : (s.advance w c.index pc m).rows c.index = m.toRow := Function.update_self _ _ _
  have hself := place_advance_self h htodo pc m
  have hown : (s.advance w c.index pc m).own c.index = m.own := by
    rw [State.own, memory_advance]
  simp only [callStep, hphase] at hcall
  cases hope : c.operation.ope with
  | update =>
    have hw : c.serial ∈ wl.writers c.index s.epoch := by
      have hc : c = ⟨c.serial, ⟨.update, c.index⟩⟩ := by
        rw [← hope]
        rfl
      rw [hc] at hmem
      exact writer_mem_program.mp hmem
    rw [hpc, hope] at hcall
    obtain ⟨hrun', hvalue, hctrl, hkeep⟩ :=
      Running.write_step (m := s.memory c.index) hrun hw hcall
    have hpool : PoolStep (s.memory c.index) m := .same (by rw [hvalue]) hctrl
    refine ⟨h.advance htodo hpool ?_, hpool⟩
    have hne : (⟨.read, c.index⟩ : Operation Key) ≠ c.operation := by
      intro he
      rw [← he] at hope
      cases hope
    unfold RowInv
    rw [hp', hrows, hown, place_advance_other h htodo hne]
    rw [hope] at hself
    rw [hself]
    exact ⟨hrun', fun serial => hkeep serial _ (hread serial)⟩
  | read =>
    rw [hpc, hope] at hcall
    obtain ⟨rfl, hok⟩ := Running.read_step (m := s.memory c.index) hrun (hread c.serial) hcall
    have hpool : PoolStep (s.memory c.index) (s.memory c.index) := .same rfl rfl
    refine ⟨h.advance htodo hpool ?_, hpool⟩
    have hne : (⟨.update, c.index⟩ : Operation Key) ≠ c.operation := by
      intro he
      rw [← he] at hope
      cases hope
    unfold RowInv
    rw [hp', hrows, hown, place_advance_other h htodo hne]
    rw [hope] at hself
    rw [hself]
    refine ⟨hrun, fun serial => ?_⟩
    by_cases hs : serial = c.serial
    · rw [hs, Function.update_self]
      exact hok
    · rw [Function.update_of_ne hs]
      exact hread serial

theorem Inv.call_step (h : Inv wl s) (htodo : (s.workers w).todo = c :: rest)
    (hcall : callStep numRegions s w c (s.workers w).pc (s.memory c.index) = some (pc, m)) :
    Inv wl (s.advance w c.index pc m) ∧ PoolStep (s.memory c.index) m := by
  cases hp : s.phase with
  | initialization => exact h.append_step hp htodo hcall
  | execution => exact h.execution_step hp htodo hcall

theorem Inv.return_step (h : Inv wl s) (htodo : (s.workers w).todo = c :: rest)
    (hpc : (s.workers w).pc = .done) :
    Inv wl { s with workers := Function.update s.workers w ⟨rest, .start⟩ } := by
  refine ⟨h.epoch, h.remaining.return htodo .start, h.pool, h.installed, h.distinct, fun k => ?_⟩
  have hplace : ∀ ope, State.place { s with
      workers := Function.update s.workers w ⟨rest, .start⟩ } k ope = s.place k ope := by
    intro ope
    funext serial
    exact congrFun (view_return (program_assigned wl s.phase s.epoch) h.remaining htodo hpc) _
  have hk := h.rows k
  unfold RowInv at hk ⊢
  rw [hplace, hplace]
  exact hk

end Advance

theorem Inv.step {i : Choice} {s s' : State Key} (h : Inv wl s)
    (hstep : step wl numRegions i s = some s') : Inv wl s' := by
  rcases step_cases hstep with ⟨w, c, rest, htodo, hpc, rfl⟩ | ⟨w, c, rest, pc, m, htodo, hcall, rfl⟩ |
    ⟨hall, ⟨hp, rfl⟩ | ⟨hp, rfl⟩⟩
  · exact h.return_step htodo hpc
  · exact (h.call_step htodo hcall).1
  · exact h.enter_execution hp hall
  · exact h.enter_initialization hp hall

/-- The invariant holds along every run. -/
theorem Reachable.inv {s : State Key} (h : Reachable wl numRegions s) : Inv wl s :=
  TransitionSystem.Reachable.invariant h (fun _ hs => hs ▸ inv_initial)
    (fun _ _ _ hi hstep => hi.step hstep)

def State.shows (s : State Key) (w : Nat) : Nat × List (Call Key) × Pc :=
  (s.epoch, (s.workers w).todo, (s.workers w).pc)

theorem reachable_showing {schedule : List Choice} {w : Nat} {x : Nat × List (Call Key) × Pc}
    (h : ((system wl numRegions).run schedule (initial wl)).map (State.shows · w) = some x) :
    ∃ s, Reachable wl numRegions s ∧ s.epoch = x.1 ∧ (s.workers w).todo = x.2.1 ∧
      (s.workers w).pc = x.2.2 := by
  have hstart : Reachable wl numRegions (initial wl) := .start rfl
  obtain ⟨s, hs, hx⟩ := hstart.of_run_map h
  exact ⟨s, hs, by rw [← hx]; exact ⟨rfl, rfl, rfl⟩⟩

end Safety

/-- In the first epoch of `writeAcross`: worker 1 finds the row locked, and installs a region
for it before worker 0 writes again. -/
def installing : List Choice :=
  List.replicate 5 (.worker 0) ++ List.replicate 3 (.worker 1) ++ List.replicate 3 (.worker 0) ++
    List.replicate 7 (.worker 1) ++ List.replicate 5 (.worker 0)

end Mvdcc.Serval
