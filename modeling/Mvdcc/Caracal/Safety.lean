import Mvdcc.Caracal.Execution
import Mvdcc.Caracal.Initialization

namespace Mvdcc.Caracal
open Library

section Phases
variable {Key : Type u} [DecidableEq Key] {wl : Workload Key} {cfg : Config} {s s' : State Key}
variable {x : Key → Version} {before : Key → List (Nat × Ptr)} {w : Nat} {k : Key} {c : Call Key}
variable {rest : List (Call Key)}

/-- The initialization phase, with the versions `x` as the last of the epochs before. -/
structure Preparing (wl : Workload Key) (x : Key → Version) (before : Key → List (Nat × Ptr))
    (s : State Key) : Prop where
  ready : ∀ k, Ready s.epoch (before k)
  filling : Filling wl before s
  storing : ∀ k, Storing (wl.writers k s.epoch) (before k)
    (homeOf (s.data k).slots (s.data k).slices) (s.data k).held (s.data k).heap (x k)

/-- The execution phase: nothing is left of the initialization phase but the arrays. -/
structure Running (wl : Workload Key) (x : Key → Version) (s : State Key) : Prop where
  remaining : Remaining (program wl .execution s.epoch) s.workers
  maps : ∀ w, (s.own w).appendedCoreBuffers = .empty
  finalizers : ∀ w, s.finalizers w = .idle
  slices : ∀ b c, (s.controller.slice b c).idsSlots = []
  rows : ∀ k, Executing (wl.writers k s.epoch) s.epoch (x k) (s.rows k) (s.place k .update)
  readers : ∀ k serial, ReaderOk (s.rows k) s.epoch serial (s.place k .read serial)

def PhaseInv (wl : Workload Key) (x : Key → Version) (s : State Key) : Prop :=
  match s.phase with
  | .initialization => ∃ before, Preparing wl x before s
  | .execution => Running wl x s

theorem Preparing.step (h : Preparing wl x before s) (hlinked : Linked wl s') (hm : Moved wl s s') :
    Preparing wl x before s' := by
  refine ⟨hm.1 ▸ h.ready, h.filling.step h.ready hlinked hm, fun k => ?_⟩
  obtain ⟨hepoch, _, w, hw, hmoves⟩ := hm
  rw [hepoch]
  exact (hmoves k).storing (h.ready k) hw (h.filling.rows k) (h.storing k)

/-- Opening the execution phase. -/
theorem Preparing.enter (h : Preparing wl x before s) (ho : Owned 64 s) (hl : Locked 64 s)
    (hall : ∀ w < 64, s.Idle w) : Running wl x (s.enter (program wl) .execution s.epoch) := by
  have hlinked := h.filling.linked
  have hidle := idle_everywhere hlinked ho hl hall
  have hslices := hlinked.slices_empty ho hl hall
  have htodo : ∀ w < 64, (s.workers w).todo = [] := fun w hw => (hall w hw).1
  refine ⟨fun _ => List.suffix_refl _, fun w => (hidle w).2.2, fun w => (hidle w).2.1, hslices, ?_,
    ?_⟩
  · intro k
    have hheld : s.heldBy k = (s.rows k).pending s.epoch := by
      funext serial
      unfold State.heldBy
      rw [place_finished htodo]
      rfl
    have happ := h.filling.rows k
    have hst := h.storing k
    unfold State.data at hst
    rw [hheld, slices_nil hslices] at happ hst
    refine happ.executing hst (h.ready k) (fun _ _ => rfl) ?_ ?_
    · exact fun serial hs => hlinked.handed k serial hs (place_finished htodo k .update serial)
    · intro serial hs
      rcases place_enter wl s .execution s.epoch k .update serial with ⟨_, hst⟩ | ⟨hn, _⟩
      · exact hst
      · exact absurd (writer_mem_program.mpr hs) hn
  · intro k serial
    rcases place_enter wl s .execution s.epoch k .read serial with ⟨_, hst⟩ | ⟨_, hd⟩
    · rw [hst]
      trivial
    · rw [hd]
      trivial

theorem Running.return (h : Running wl x s) (htodo : (s.workers w).todo = c :: rest)
    (hpc : (s.workers w).pc = .done) : Running wl x (s.return w rest) := by
  refine ⟨h.remaining.return htodo .start, h.maps, h.finalizers, h.slices, ?_, ?_⟩
  · intro k
    rw [place_return h.remaining htodo hpc]
    exact h.rows k
  · intro k serial
    rw [place_return h.remaining htodo hpc]
    exact h.readers k serial

/-- A step of a call leaves the other rows alone, and changes the place of its own
operation only. -/
theorem Running.advance (h : Running wl x s) (htodo : (s.workers w).todo = c :: rest) {pc : Pc}
    {row : Row} (hrow : Executing (wl.writers c.index s.epoch) s.epoch (x c.index) row
      ((s.advance w c.index pc { s.memory w c.index with toRow := row }).place c.index .update))
    (hread : ∀ serial, ReaderOk row s.epoch serial
      ((s.advance w c.index pc { s.memory w c.index with toRow := row }).place c.index .read serial)) :
    Running wl x (s.advance w c.index pc { s.memory w c.index with toRow := row }) := by
  have hown : (s.advance w c.index pc { s.memory w c.index with toRow := row }).own = s.own :=
    Function.update_eq_self _ _
  refine ⟨h.remaining.advance w pc, ?_, h.finalizers, h.slices, ?_, ?_⟩
  · rw [hown]
    exact h.maps
  · intro k
    by_cases hk : k = c.index
    · subst hk
      rw [rows_advance_self]
      exact hrow
    · rw [rows_advance_of_ne hk,
        place_advance_other h.remaining htodo (fun he => hk (congrArg Operation.index he))]
      exact h.rows k
  · intro k serial
    by_cases hk : k = c.index
    · subst hk
      rw [rows_advance_self]
      exact hread serial
    · rw [rows_advance_of_ne hk,
        place_advance_other h.remaining htodo (fun he => hk (congrArg Operation.index he))]
      exact h.readers k serial

theorem Running.execute (h : Running wl x s) (hx : ∀ k, (x k).status = .stable)
    (htodo : (s.workers w).todo = c :: rest) {pc : Pc} {row : Row}
    (hstep : executionStep s.epoch c.serial c.operation.ope (s.workers w).pc (s.rows c.index) =
      some (pc, row)) :
    Running wl x (s.advance w c.index pc { s.memory w c.index with toRow := row }) := by
  have hpc := place_head h.remaining htodo
  have hself := place_advance_self h.remaining htodo pc { s.memory w c.index with toRow := row }
  have hother : ∀ {ope : Ope}, ope ≠ c.operation.ope →
      (s.advance w c.index pc { s.memory w c.index with toRow := row }).place c.index ope =
        s.place c.index ope :=
    fun hne => place_advance_other h.remaining htodo (fun he => hne (congrArg Operation.ope he))
  cases hope : c.operation.ope with
  | update =>
    rw [hope] at hpc hself hstep
    rw [← hpc] at hstep
    have hmem := h.remaining.mem htodo
    rw [← (program_assigned wl .execution s.epoch).owned w c hmem, c.eta, hope] at hmem
    obtain ⟨hrun, hkeep⟩ := (h.rows c.index).write_step (fun s hs => (wl.mem_writers.mp hs).1)
      (hx c.index) (writer_mem_program.mp hmem) hstep
    refine h.advance htodo ?_ ?_
    · rw [hself]
      exact hrun
    · rw [hother (by rw [hope]; exact nofun)]
      exact fun serial => hkeep serial _ (h.readers c.index serial)
  | read =>
    rw [hope] at hpc hself hstep
    rw [← hpc] at hstep
    obtain ⟨rfl, hok⟩ := Executing.read_step (h.readers c.index c.serial) hstep
    refine h.advance htodo ?_ ?_
    · rw [hother (by rw [hope]; exact nofun)]
      exact h.rows c.index
    · rw [hself]
      intro serial
      by_cases hs : serial = c.serial
      · rw [hs, Function.update_self]
        exact hok
      · rw [Function.update_of_ne hs]
        exact h.readers c.index serial

theorem Running.step (h : Running wl x s) (hphase : s.phase = .execution)
    (hphase' : s'.phase = .execution) (hx : ∀ k, (x k).status = .stable) {i : Choice}
    (hstep : step cfg (program wl) i s = some s') : Running wl x s' := by
  rcases step_cases hstep with ⟨w, c, rest, _, htodo, hpc, rfl⟩ | ⟨w, _, _, hp, _⟩ |
    ⟨w, position, c, rest, pc, m, _, htodo, hcall, rfl⟩ | ⟨_, rfl⟩
  · exact h.return htodo hpc
  · rw [hphase] at hp
    cases hp
  · simp only [callStep, hphase] at hcall
    obtain ⟨⟨pc', row⟩, hexec, he⟩ := Option.map_eq_some_iff.mp hcall
    cases he
    exact h.execute hx htodo hexec
  · rw [hphase] at hphase'
    cases hphase'

/-- A step within an epoch. -/
theorem PhaseInv.step (hcore : cfg.numCore = 64) (h : PhaseInv wl x s) (ho : Owned 64 s)
    (hl : Locked 64 s) (hx : ∀ k, (x k).status = .stable) (hepoch : s'.epoch = s.epoch)
    {i : Choice} (hstep : step cfg (program wl) i s = some s') : PhaseInv wl x s' := by
  unfold PhaseInv at h
  rcases step_phase hstep with ⟨hp', _⟩ | ⟨hall, ⟨hp, rfl⟩ | ⟨_, rfl⟩⟩
  · unfold PhaseInv
    rw [hp']
    cases hp : s.phase with
    | initialization =>
      rw [hp] at h hp'
      obtain ⟨before, h⟩ := h
      obtain ⟨hlinked, hm⟩ := h.filling.linked.step hcore (hcore ▸ ho) (hcore ▸ hl) hp hp' hstep
      exact ⟨before, h.step hlinked hm⟩
    | execution =>
      rw [hp] at h hp'
      exact h.step hp hp' hx hstep
  · rw [hp] at h
    obtain ⟨before, h⟩ := h
    exact h.enter ho hl (hcore ▸ hall)
  · exact absurd hepoch (Nat.succ_ne_self _)

/-- Opening the initialization phase of the next epoch. -/
theorem Running.begins (h : Running wl (fun k => baseOf wl k s.epoch) s) (ho : Owned 64 s)
    (hl : Locked 64 s) (he : 1 ≤ s.epoch) (hnext : s.epoch + 1 < 2 ^ 32)
    (hall : ∀ w < 64, s.Idle w) :
    Begins wl (s.enter (program wl) .initialization (s.epoch + 1)) ∧
      Preparing wl (fun k => baseOf wl k (s.epoch + 1)) (fun k => (s.rows k).globalArray.idsSlots)
        (s.enter (program wl) .initialization (s.epoch + 1)) := by
  have htodo : ∀ w < 64, (s.workers w).todo = [] := fun w hw => (hall w hw).1
  have hdone := fun k => place_finished htodo k .update
  have hpc : ∀ w, (s.workers w).pc = .start := by
    intro w
    by_cases hw : w < 64
    · exact ho.resting w (htodo w hw)
    · exact (ho.limit w (Nat.not_lt.mp hw)).1
  have hunlocked := hl.unlocked hpc h.finalizers
  have hheld : ∀ k, ∀ serial ∈ wl.writers k (s.epoch + 1),
      (s.enter (program wl) .initialization (s.epoch + 1)).heldBy k serial = none := by
    intro k serial hs
    rcases place_enter wl s .initialization (s.epoch + 1) k .update serial with ⟨_, hst⟩ | ⟨hn, _⟩
    · unfold State.heldBy
      rw [hst]
      rfl
    · exact absurd (writer_mem_program.mpr hs) hn
  have hsettle := fun k => (h.rows k).settle he hnext (hdone k) (hheld k)
  have hbegins : Begins wl (s.enter (program wl) .initialization (s.epoch + 1)) := by
    refine ⟨rfl, rfl, h.finalizers, h.maps, fun w hle => (ho.limit w hle).2, ?_, h.slices,
      fun k => (hsettle k).1, hunlocked.1, hunlocked.2⟩
    exact (ho.enter htodo (program wl) .initialization (s.epoch + 1)).placed
  refine ⟨hbegins, fun k => (hsettle k).1, hbegins.filling, fun k => ?_⟩
  have hst := (hsettle k).2
  unfold State.data
  rw [slices_nil hbegins.slices k]
  exact hst

/-- What holds in every reachable state of an epoch below `2 ^ 32`. -/
structure Inv (wl : Workload Key) (s : State Key) : Prop where
  epoch : 1 ≤ s.epoch
  phase : PhaseInv wl (fun k => baseOf wl k s.epoch) s

theorem inv_initial : Inv wl (initial (program wl)) := by
  have hbegins : Begins wl (initial (program wl)) := begins_initial
  refine ⟨Nat.le_refl 1, _, hbegins.rows, hbegins.filling, fun k => ?_⟩
  have hslots : ((initial (program wl)).rows k).globalArray.idsSlots = [(0, 0)] := rfl
  have hheap : ((initial (program wl)).rows k).heap = loadedRow.heap := rfl
  unfold State.data
  simp only [slices_nil hbegins.slices k, hslots, hheap, homeOf_nil]
  refine ⟨rfl, fun _ hx => absurd hx List.not_mem_nil, ?_, ?_, ?_⟩
  · intro y hy
    rw [List.mem_singleton.mp hy]
    exact ⟨Nat.zero_lt_one, rfl, Option.some_ne_none _⟩
  · intro last _
    change (⟨some (.loaded 0), .stable⟩ : Version) = baseOf wl k 1
    unfold baseOf
    rw [wl.trailOf_one]
    rfl
  · intro serial hs v hv
    rw [hbegins.heldBy_none k serial hs] at hv
    cases hv

theorem Reachable.inv (hcore : cfg.numCore = 64) (h : Reachable cfg (program wl) s)
    (he : s.epoch < 2 ^ 32) : Inv wl s := by
  revert he
  induction h with
  | start hs =>
    intro _
    rw [hs]
    exact inv_initial
  | @next s s' i hr hstep ih =>
    intro hlt
    have ho : Owned 64 s := hcore ▸ Reachable.owned hr
    have hl : Locked 64 s := hcore ▸ Reachable.locked hr
    rcases step_phase hstep with ⟨_, hepoch⟩ | ⟨hall, ⟨_, hs⟩ | ⟨hp, hs⟩⟩
    · have hinv := ih (hepoch ▸ hlt)
      exact ⟨hepoch ▸ hinv.epoch, hepoch ▸ hinv.phase.step hcore ho hl (fun _ => rfl) hepoch hstep⟩
    · have hepoch : s'.epoch = s.epoch := by rw [hs]; rfl
      have hinv := ih (hepoch ▸ hlt)
      exact ⟨hepoch ▸ hinv.epoch, hepoch ▸ hinv.phase.step hcore ho hl (fun _ => rfl) hepoch hstep⟩
    · subst hs
      have hnext : s.epoch + 1 < 2 ^ 32 := hlt
      have hinv := ih (by omega)
      have hrun := hinv.phase
      unfold PhaseInv at hrun
      rw [hp] at hrun
      exact ⟨Nat.le_add_left 1 s.epoch, _,
        (Running.begins hrun ho hl hinv.epoch hnext (hcore ▸ hall)).2⟩

end Phases
end Mvdcc.Caracal
