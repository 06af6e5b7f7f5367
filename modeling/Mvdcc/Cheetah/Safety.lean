import Mvdcc.Cheetah.Markers

namespace Mvdcc.Cheetah
open Library Bitmap

section Safety
variable {Key : Type u} [DecidableEq Key] {wl : Workload Key}
variable {s : State Key} {w position : Nat} {c : Call Key} {rest : List (Call Key)}
variable {pc : Pc} {r : Row}

theorem place_advance_self (h : Inv wl s) (htodo : (s.workers w).todo = c :: rest) (pc : Pc)
    (r : Row) : (s.advance w c.index pc r).place c.index c.operation.ope =
      Function.update (s.place c.index c.operation.ope) c.serial pc := by
  unfold State.place
  rw [at_advance h htodo]
  exact update_place _ _ _

theorem place_advance_other (h : Inv wl s) (htodo : (s.workers w).todo = c :: rest) {k k' : Key}
    {ope : Ope} (hne : (⟨ope, k'⟩ : Operation Key) ≠ c.operation) (pc : Pc) (r : Row) :
    (s.advance w k pc r).place k' ope = s.place k' ope := by
  unfold State.place
  rw [at_advance h htodo]
  funext serial
  exact update_place_other _ _ _ hne serial

/-- A step inside a call keeps the invariant, if it keeps that of its row. -/
theorem Inv.advance (h : Inv wl s) (hp : s.phase ≠ .write)
    (htodo : (s.workers w).todo = c :: rest)
    (hrow : RowInv wl (s.advance w c.index pc r) c.index) :
    Inv wl (s.advance w c.index pc r) := by
  refine ⟨h.epoch, h.remaining.advance w pc, fun hw => absurd hw hp, h.idle, fun k => ?_⟩
  by_cases hk : k = c.index
  · rw [hk]
    exact hrow
  · have hne : ∀ ope, (⟨ope, k⟩ : Operation Key) ≠ c.operation :=
      fun ope he => hk (congrArg Operation.index he)
    have hold := h.rows k
    unfold RowInv at hold ⊢
    rw [rows_advance hk, place_advance_other h htodo (hne .update),
      place_advance_other h htodo (hne .read)]
    exact hold

theorem Inv.read_phase_step (h : Inv wl s) (hphase : s.phase = .read)
    (htodo : (s.workers w).todo = c :: rest)
    (hcall : callStep s w position c (s.workers w).pc (s.rows c.index) = some (pc, r)) :
    Inv wl (s.advance w c.index pc r) := by
  have hasg := program_assigned wl s.phase s.epoch
  have hmem := h.remaining.mem htodo
  have hw := hasg.owned w c hmem
  rw [← hw, mem_program] at hmem
  have hope := hmem.2.2.2 hphase
  have hR : c.serial ∈ wl.readers c.index s.epoch := by
    rw [wl.mem_readers, ← hope]
    exact ⟨hmem.1, hmem.2.1⟩
  have hrow := h.rows c.index
  unfold RowInv at hrow
  rw [hphase] at hrow
  have hpc : s.place c.index .read c.serial = (s.workers w).pc := by
    rw [← at_head h htodo, ← hope]
    rfl
  have hcore : w = getCoreSerial c.serial := by
    rw [← hw, hphase]
    rfl
  simp only [callStep, hphase] at hcall
  rw [← hpc, hcore] at hcall
  refine h.advance (by simp [hphase]) htodo ?_
  have hself := place_advance_self h htodo pc r
  rw [hope] at hself
  have hp' : (s.advance w c.index pc r).phase = .read := hphase
  unfold RowInv
  rw [hp', hself, rows_advance_self]
  exact hrow.step (wl.writers_pairwise _ _) ((wl.readers_pairwise _ _).imp ne_of_lt) hR hcall

theorem Inv.execution_step (h : Inv wl s) (hphase : s.phase = .execution)
    (htodo : (s.workers w).todo = c :: rest)
    (hcall : callStep s w position c (s.workers w).pc (s.rows c.index) = some (pc, r)) :
    Inv wl (s.advance w c.index pc r) := by
  have hasg := program_assigned wl s.phase s.epoch
  have hmem := h.remaining.mem htodo
  rw [← hasg.owned w c hmem, mem_program] at hmem
  have hrow := h.rows c.index
  unfold RowInv at hrow
  rw [hphase] at hrow
  obtain ⟨m, hrow⟩ := hrow
  have hpc : s.place c.index c.operation.ope c.serial = (s.workers w).pc := by
    rw [← at_head h htodo]
    rfl
  simp only [callStep, hphase] at hcall
  refine h.advance (by simp [hphase]) htodo ?_
  have hself := place_advance_self h htodo pc r
  have hp' : (s.advance w c.index pc r).phase = .execution := hphase
  have hW := wl.writers_pairwise c.index s.epoch
  unfold RowInv
  rw [hp', rows_advance_self]
  cases hope : c.operation.ope with
  | read =>
    rw [hope] at hself hpc hcall
    have hne : (⟨.update, c.index⟩ : Operation Key) ≠ c.operation := by
      intro he
      rw [← he] at hope
      cases hope
    rw [hself, place_advance_other h htodo hne]
    have hR : c.serial ∈ wl.readers c.index s.epoch := by
      rw [wl.mem_readers, ← hope]
      exact ⟨hmem.1, hmem.2.1⟩
    rw [← hpc] at hcall
    exact ⟨m, hrow.read_step hW ((wl.readers_pairwise _ _).imp ne_of_lt) hR hcall⟩
  | update =>
    rw [hope] at hself hpc hcall
    have hne : (⟨.read, c.index⟩ : Operation Key) ≠ c.operation := by
      intro he
      rw [← he] at hope
      cases hope
    rw [hself, place_advance_other h htodo hne]
    have hw : c.serial ∈ wl.writers c.index s.epoch := by
      rw [wl.mem_writers, ← hope]
      exact ⟨hmem.1, hmem.2.1⟩
    rw [← hpc] at hcall
    exact ⟨m, hrow.write_step hW hw hcall⟩

theorem Inv.return_step (h : Inv wl s) (htodo : (s.workers w).todo = c :: rest)
    (hpc : (s.workers w).pc = .done) : Inv wl (s.return w rest) := by
  have hat : (s.return w rest).at = s.at :=
    view_return (program_assigned wl s.phase s.epoch) h.remaining htodo hpc
  refine ⟨h.epoch, h.remaining.return htodo .start, ?_, h.idle, fun k => ?_⟩
  · intro hp w'
    have hm := h.marking hp w'
    have hbusy : ((s.return w rest).workers w').todo ≠ [] → (s.workers w').todo ≠ [] := by
      intro hne
      by_cases hw : w' = w
      · rw [hw, htodo]
        exact List.cons_ne_nil _ _
      · simpa [State.return, hw] using hne
    refine ⟨hm.limit, fun hne => hm.busy (hbusy hne), hm.nonzero, ?_, hm.pass, hm.passKeys,
      hm.holding⟩
    intro k hk
    obtain ⟨hnil, hor⟩ := hm.marked k hk
    refine ⟨?_, hor⟩
    by_contra hne
    exact hbusy hne hnil
  · have hk := h.rows k
    unfold RowInv State.place at hk ⊢
    rw [hat]
    exact hk

theorem settled_loaded : Quiet loadedRow none := by
  refine ⟨⟨⟨?_, ?_⟩, rfl, rfl, rfl, 0, rfl, rfl⟩, rfl, rfl⟩
  · decide
  · intro x hx
    cases hx

theorem marking_enter (wl : Workload Key) (s : State Key) (e : Nat) {k : Key}
    (hq : Quiet (s.rows k) (wl.trailOf k e).latest) (hidle : ∀ w, s.markers w = .idle) :
    Marking (wl.writers k e) (s.rows k) (wl.trailOf k e).latest (s.bits k)
      ((s.enter wl .write e).place k .update) := by
  refine hq.marking ?_ ?_
  · intro w
    rw [State.bits, hidle]
    rfl
  · intro serial hs
    exact at_enter wl s ((writer_mem_program (by simp)).mpr hs)

theorem MarkerOk.of_idle {w : Nat} (hidle : s.markers w = .idle)
    (hclear : ∀ k, (s.rows k).wBitmap.coreBitmap = 0) : MarkerOk s w := by
  refine ⟨fun _ => hidle, fun _ => ?_, ?_, ?_, ?_, ?_, ?_⟩
  · rw [hidle]
    exact ⟨rfl, rfl⟩
  · intro k b hb
    rw [hidle] at hb
    cases hb
  · intro k hk
    rw [hclear k] at hk
    simp at hk
  · intro x hx
    rw [hidle] at hx
    cases hx
  · rw [hidle]
    exact List.nodup_nil
  · rw [hidle]
    trivial

/-- Opening the read phase. -/
theorem Inv.enter_read (h : Inv wl s) (hp : s.phase = .write)
    (hall : ∀ w < 64, (s.workers w).todo = [] ∧ s.markers w = .idle) :
    Inv wl (s.enter wl .read s.epoch) := by
  have hidle : ∀ w, s.markers w = .idle := by
    intro w
    by_cases hw : w < 64
    · exact (hall w hw).2
    · exact (h.marking hp w).limit (Nat.not_lt.mp hw)
  refine ⟨h.epoch, fun _ => List.suffix_refl _, fun hw => (by cases hw), fun _ => hidle, fun k => ?_⟩
  have hk := (rowInv_write k hp).mp (h.rows k)
  rw [rowInv_read k rfl]
  apply hk.resting.resolving
  · apply hk.finish
    · intro w
      rw [State.bits, hidle]
      rfl
    · exact fun serial => at_finished h (fun w hw => (hall w hw).1) _
  · intro serial hs
    exact at_enter wl s ((reader_mem_program (by simp)).mpr hs)

/-- Opening the execution phase. -/
theorem Inv.enter_execution (h : Inv wl s) (hp : s.phase = .read)
    (hall : ∀ w < 64, (s.workers w).todo = []) : Inv wl (s.enter wl .execution s.epoch) := by
  refine ⟨h.epoch, fun _ => List.suffix_refl _, fun hw => (by cases hw),
    fun _ => h.idle (by simp [hp]), fun k => ?_⟩
  have hk := (rowInv_read k hp).mp (h.rows k)
  rw [rowInv_execution k rfl]
  apply hk.executing
  · exact fun serial => at_finished h hall _
  · intro serial hs
    exact at_enter wl s ((writer_mem_program (by simp)).mpr hs)
  · intro serial hs
    exact at_enter wl s ((reader_mem_program (by simp)).mpr hs)

/-- Opening the write phase of the next epoch. -/
theorem Inv.enter_write (h : Inv wl s) (hp : s.phase = .execution)
    (hall : ∀ w < 64, (s.workers w).todo = []) : Inv wl (s.enter wl .write (s.epoch + 1)) := by
  have hidle := h.idle (by simp [hp])
  have hquiet : ∀ k, Quiet (s.rows k) (wl.trailOf k (s.epoch + 1)).latest := by
    intro k
    obtain ⟨m, hk⟩ := (rowInv_execution k hp).mp (h.rows k)
    exact hk.quiet h.epoch (fun serial => at_finished h hall _)
      (fun serial => at_finished h hall _)
  refine ⟨Nat.le_add_left 1 s.epoch, fun _ => List.suffix_refl _, fun _ w => ?_,
    fun hw => absurd rfl hw, fun k => ?_⟩
  · exact .of_idle (hidle w) (fun k => (hquiet k).coreBitmap)
  · rw [rowInv_write k rfl]
    exact marking_enter wl s (s.epoch + 1) (hquiet k) hidle

theorem inv_initial : Inv wl (initial wl) := by
  have hquiet : ∀ k, Quiet loadedRow (wl.trailOf k 1).latest := by
    intro k
    rw [wl.trailOf_one]
    exact settled_loaded
  refine ⟨Nat.le_refl 1, fun _ => List.suffix_refl _, fun _ w => ?_, fun hw => absurd rfl hw,
    fun k => ?_⟩
  · exact .of_idle rfl (fun _ => rfl)
  · rw [rowInv_write k rfl]
    exact marking_enter wl (initial wl) 1 (hquiet k) (fun _ => rfl)

theorem Inv.step {i : Choice} {s' : State Key} (h : Inv wl s) (hstep : step wl i s = some s') :
    Inv wl s' := by
  rcases step_cases hstep with ⟨w, _, c, rest, _, htodo, hpc, rfl⟩ | ⟨w, _, _, htodo, hp, hf⟩ |
    ⟨w, position, c, rest, _, htodo, hp, rfl⟩ |
    ⟨w, position, c, rest, pc, r, _, htodo, hp, hcall, rfl⟩ | ⟨_, hall, he⟩
  · exact h.return_step htodo hpc
  · exact h.finalize_step hp htodo hf
  · exact h.mark_step hp htodo
  · cases hphase : s.phase with
    | write => exact absurd hphase hp
    | read => exact h.read_phase_step hphase htodo hcall
    | execution => exact h.execution_step hphase htodo hcall
  · have htodo : ∀ w < 64, (s.workers w).todo = [] := fun w hw => (hall w hw).1
    cases hphase : s.phase with
    | write =>
      rw [he, hphase]
      exact h.enter_read hphase hall
    | read =>
      rw [he, hphase]
      exact h.enter_execution hphase htodo
    | execution =>
      rw [he, hphase]
      exact h.enter_write hphase htodo

/-- The invariant holds along every run. -/
theorem Reachable.inv (h : Reachable wl s) : Inv wl s :=
  TransitionSystem.Reachable.invariant h (fun _ hs => hs ▸ inv_initial)
    (fun _ _ _ hi hstep => hi.step hstep)

end Safety
end Mvdcc.Cheetah
