import Mvdcc.Serval.Safety

namespace Mvdcc.Serval
open Library Bitmap

section SerialReads
variable {Key : Type u} [DecidableEq Key] {wl : Workload Key} {numRegions : Nat} {s : State Key}

/-- A returning call is a read of the execution phase, with its version at hand. -/
theorem returning_ok (h : Reachable wl numRegions s) {w : Nat} {c : Call Key}
    {rest : List (Call Key)} {r : Option Rec} (htodo : (s.workers w).todo = c :: rest)
    (hpc : (s.workers w).pc = .returning r) :
    Running (wl.writers c.index s.epoch) s.epoch (wl.trailOf c.index s.epoch) (s.rows c.index)
      (s.own c.index) (s.place c.index .update) ∧
      ReaderOk (s.rows c.index) (s.own c.index) s.epoch c.serial (.returning r) := by
  have hi := h.inv
  have hview : s.place c.index c.operation.ope c.serial = .returning r := by
    rw [← hpc]
    exact view_head (program_assigned wl s.phase s.epoch) hi.remaining htodo
  have hrow := hi.rows c.index
  unfold RowInv at hrow
  cases hp : s.phase with
  | initialization =>
    rw [hp] at hrow
    obtain ⟨hope, _, turn⟩ := hi.turn hp htodo
    rw [hope] at hview
    rcases hrow with hrow | hrow
    · have := hrow.calls c.serial turn.member
      rw [hview] at this
      exact this.elim
    · have := hrow.calls c.serial turn.member
      rw [hview] at this
      exact this.elim
  | execution =>
    rw [hp] at hrow
    cases hope : c.operation.ope with
    | read =>
      rw [hope] at hview
      have := hrow.2 c.serial
      rw [hview] at this
      exact ⟨hrow.1, this⟩
    | update =>
      rw [hope] at hview
      have hm := hi.remaining.mem htodo
      rw [← (program_assigned wl s.phase s.epoch).owned w c hm, c.eta, hope] at hm
      have hW := writer_mem_program.mp hm
      rcases hrow.1 with ⟨hnil, _⟩ | ⟨_, hrun⟩
      · rw [hnil] at hW
        cases hW
      · obtain ⟨p, _, hv⟩ := hrun.writers c.serial hW
        rw [hview] at hv
        exact hv.elim

section Row
variable {W : List Nat} {e : Nat} {t : Trail} {m : Memory} {row : Row} {own : RowRegion}
variable {pcs : Nat → Pc} {serial core : Nat} {v : Ptr} {pc : Pc}

/-- A read waits for a version only while its writer, an earlier transaction, is unfinished. -/
theorem waiting_for_writer (h : Running W e t row own pcs)
    (hv : visibleOf row own e serial = (some v, true))
    (hst : (row.heap.version v).status = .pending) : ∃ σ < serial, pcs σ ≠ .done := by
  unfold visibleOf at hv
  split at hv
  · simp at hv
  · rename_i hepoch
    split at hv
    · rename_i i p hb
      simp only [Prod.mk.injEq, Option.some.injEq, and_true] at hv
      subst hv
      rw [(contents_ascending h.kept).entryBelow_eq_some] at hb
      rcases h with ⟨_, hset, _⟩ | ⟨_, h⟩
      · have := (hset.finished p (mem_live_of_contents hb.1)).1
        rw [hst] at this
        cases this
      · obtain ⟨σ, rfl, hp⟩ := (h.contents i p).mp hb.1
        refine ⟨σ, Nat.cast_lt.mp hb.2.1, ?_⟩
        intro hd
        obtain ⟨p', hp', hok⟩ :=
          h.writers σ (h.members σ (by rw [hp]; exact Option.some_ne_none p))
        rw [hp, Option.some.injEq] at hp'
        subst hp'
        rw [hd] at hok
        rw [hok] at hst
        cases hst
    · simp at hv

theorem write_moves (h : Running W e t m.toRow m.own pcs) (hs : serial ∈ W)
    (hd : pcs serial ≠ .done) : ∃ pc m', pcs serial ≠ pc ∧
      executionStep e core serial .update (pcs serial) m = some (pc, m') := by
  rcases h with ⟨hnil, _⟩ | ⟨_, h⟩
  · rw [hnil] at hs
    cases hs
  · obtain ⟨p, hp, hok⟩ := h.writers serial hs
    cases hpc : pcs serial <;> rw [hpc] at hok hd <;> try exact hok.elim
    · refine ⟨.storeStable p, { m with heap := m.heap.storeRec p (.written e serial) }, by simp, ?_⟩
      simp only [executionStep, hp]
    · exact ⟨.done, _, by simp, rfl⟩
    · exact absurd rfl hd

theorem read_moves (h : Running W e t m.toRow m.own pcs) (hr : ReaderOk m.toRow m.own e serial pc)
    (hd : pc ≠ .done) : (∃ pc' m', pc ≠ pc' ∧
      executionStep e (getCoreSerial serial) serial .read pc m = some (pc', m')) ∨
        ∃ σ < serial, pcs σ ≠ .done := by
  cases pc <;> simp only [ReaderOk] at hr
  case start =>
    refine Or.inl ?_
    rcases visibleOf_cases h serial with ⟨v, hv⟩ | ⟨v, hv, _⟩
    · refine ⟨.waitStable v, m, by simp, ?_⟩
      simp only [executionStep, readVisible_eq h.kept h.populated, hv]
    · refine ⟨.fetch v, m, by simp, ?_⟩
      simp only [executionStep, readVisible_eq h.kept h.populated, hv]
  case waitStable v =>
    by_cases hst : (m.heap.version v).status = .pending
    · exact Or.inr (waiting_for_writer h hr hst)
    · refine Or.inl ⟨.fetch v, m, by simp, ?_⟩
      simp only [executionStep, if_neg hst]
  case fetch v => exact Or.inl ⟨_, _, by simp, rfl⟩
  case returning r => exact Or.inl ⟨.done, _, by simp, rfl⟩
  case done => exact absurd rfl hd

end Row

/-- Following the versions waited for, from transaction to earlier transaction,
ends at a worker that can move. -/
theorem progress_below (h : Reachable wl numRegions s) (hphase : s.phase = .execution) (n : Nat) :
    ∀ w c rest, (s.workers w).todo = c :: rest → c.serial = n →
      ∃ w' s', step wl numRegions (.worker w') s = some s' ∧ s' ≠ s := by
  have hi := h.inv
  have hasg := program_assigned wl s.phase s.epoch
  induction n using Nat.strong_induction_on with
  | _ n ih =>
    intro w c rest htodo hn
    have hview : s.place c.index c.operation.ope c.serial = (s.workers w).pc :=
      view_head hasg hi.remaining htodo
    have hrow := hi.rows c.index
    unfold RowInv at hrow
    rw [hphase] at hrow
    obtain ⟨hrun, hread⟩ := hrow
    have hmoves : ∀ pc m, (s.workers w).pc ≠ .done → (s.workers w).pc ≠ pc →
        executionStep s.epoch (getCoreSerial c.serial) c.serial c.operation.ope (s.workers w).pc
          (s.memory c.index) = some (pc, m) →
        ∃ w' s', step wl numRegions (.worker w') s = some s' ∧ s' ≠ s := by
      intro pc m hd hpc hcall
      refine ⟨w, s.advance w c.index pc m, ?_, ?_⟩
      · simp [step, htodo, hd, callStep, hphase, hcall]
      · intro he
        have := congrArg (fun s => (s.workers w).pc) he
        simp only [State.advance, Function.update_self] at this
        exact hpc this.symm
    by_cases hdone : (s.workers w).pc = .done
    · refine ⟨w, { s with workers := Function.update s.workers w ⟨rest, .start⟩ }, ?_, ?_⟩
      · simp [step, htodo, hdone]
      · intro he
        have := congrArg (fun s => (s.workers w).todo.length) he
        simp [htodo] at this
    · cases hope : c.operation.ope with
      | update =>
        rw [hope] at hview hmoves
        have hm := hi.remaining.mem htodo
        rw [← hasg.owned w c hm, c.eta, hope] at hm
        rw [← hview] at hdone hmoves
        obtain ⟨pc, m, hne, hcall⟩ :=
          write_moves (m := s.memory c.index) hrun (writer_mem_program.mp hm) hdone
        exact hmoves pc m hdone hne hcall
      | read =>
        rw [hope] at hview hmoves
        rw [← hview] at hdone hmoves
        rcases read_moves (m := s.memory c.index) hrun (hread c.serial) hdone with
          ⟨pc, m, hne, hcall⟩ | ⟨σ, hlt, hσ⟩
        · exact hmoves pc m hdone hne hcall
        · obtain ⟨head, rest', htodo', hle⟩ := view_unfinished hasg hi.remaining hσ
          simp only at hle
          exact ih head.serial (by omega) _ head rest' htodo' rfl

/-- An execution phase with unfinished transactions can always move on, and not
only by testing a pending version again. -/
theorem execution_progress (h : Reachable wl numRegions s) (hphase : s.phase = .execution)
    {w : Nat} (hw : (s.workers w).todo ≠ []) :
    ∃ w' s', step wl numRegions (.worker w') s = some s' ∧ s' ≠ s := by
  obtain ⟨c, rest, htodo⟩ := List.exists_cons_of_ne_nil hw
  exact progress_below h hphase c.serial w c rest htodo rfl

/-- A read returns the last record serialized before it exactly if the epoch
writes the row, or no earlier epoch has written it. -/
theorem read_returns_last_iff (h : Reachable wl numRegions s) {w : Nat} {c : Call Key}
    {rest : List (Call Key)} {r : Option Rec} (htodo : (s.workers w).todo = c :: rest)
    (hpc : (s.workers w).pc = .returning r) :
    (∃ x, r = some x ∧ wl.ReadsLast c.index s.epoch c.serial x) ↔
      ((∃ σ, wl.Writes c.index s.epoch σ) ∨
        ∀ e < s.epoch, ∀ σ, ¬ wl.Writes c.index e σ) := by
  have he := h.inv.epoch
  obtain ⟨hrun, v, b, hv, hst, rfl⟩ := returning_ok h htodo hpc
  have hempty : earlier (wl.Writes c.index) (stamp s.epoch 0) = ∅ ↔
      ∀ e < s.epoch, ∀ σ, ¬ wl.Writes c.index e σ := by
    rw [Set.eq_empty_iff_forall_notMem]
    constructor
    · intro hn e hlt σ hw
      exact hn (stamp e σ) (mem_earlier.mpr ⟨hw, Or.inl hlt⟩)
    · intro hn p hp
      obtain ⟨e, σ, rfl⟩ := exists_stamp p
      obtain ⟨hw, hlt | ⟨_, hlt⟩⟩ := mem_earlier.mp hp
      · exact hn e hlt σ hw
      · exact Nat.not_lt_zero _ hlt
  rcases hrun with ⟨hW, hset, _⟩ | ⟨hW, hwr⟩
  · rw [hset.reads_last_iff he hW hv, hempty]
    constructor
    · exact Or.inr
    · rintro (⟨σ, hσ⟩ | hn)
      · have := (wl.writes_iff.mp hσ).2
        rw [hW] at this
        cases this
      · exact hn
  · obtain ⟨σ, hσ⟩ := List.exists_mem_of_ne_nil _ hW
    constructor
    · exact fun _ => Or.inl ⟨σ, wl.writes_iff.mpr ⟨he, hσ⟩⟩
    · exact fun _ => hwr.reads_last he hv hst

end SerialReads

section Runs

def firstRead : List Choice :=
  List.replicate 8 (.worker 0) ++ [.barrier] ++ List.replicate 3 (.worker 0) ++
    List.replicate 3 (.worker 1)

def secondRead : List Choice :=
  firstRead ++ List.replicate 2 (.worker 1) ++ [.barrier, .barrier] ++ List.replicate 2 (.worker 0)

theorem first_read_returns_last : ∃ (s : State Unit) (x : Rec), Reachable writeOnce 1 s ∧
    (s.workers 1).pc = .returning (some x) ∧ writeOnce.ReadsLast () s.epoch 1 x := by
  have hrun : ((system writeOnce 1).run firstRead (initial writeOnce)).map (State.shows · 1) =
      some (1, [⟨1, ⟨.read, ()⟩⟩], .returning (some (.written 1 0))) := by decide +kernel
  obtain ⟨s, hs, he, htodo, hpc⟩ := reachable_showing hrun
  simp only at he htodo hpc
  obtain ⟨x, hx, hlast⟩ := (read_returns_last_iff hs htodo hpc).mpr
    (Or.inl ⟨0, by rw [he]; exact writeOnce_writes⟩)
  exact ⟨s, x, hs, hx ▸ hpc, hlast⟩

/-- Nobody writes the row in the second epoch, so its master version is still
that of before the first, and the read misses the write. -/
theorem second_read_is_stale : ¬ ∀ (s : State Unit) (w : Nat) (c : Call Unit)
    (rest : List (Call Unit)) (r : Option Rec), Reachable writeOnce 1 s →
      (s.workers w).todo = c :: rest → (s.workers w).pc = .returning r →
        ∃ x, r = some x ∧ writeOnce.ReadsLast c.index s.epoch c.serial x := by
  intro hall
  have hrun : ((system writeOnce 1).run secondRead (initial writeOnce)).map (State.shows · 0) =
      some (2, [⟨0, ⟨.read, ()⟩⟩], .returning (some (.loaded 0))) := by decide +kernel
  obtain ⟨s, hs, he, htodo, hpc⟩ := reachable_showing hrun
  simp only at he htodo hpc
  obtain ⟨x, hx, hlast⟩ := hall s 0 _ _ _ hs htodo hpc
  rw [← Option.some.inj hx, he] at hlast
  have hm : stamp 1 0 ∈ earlier (writeOnce.Writes ()) (stamp 2 0) :=
    mem_earlier.mpr ⟨writeOnce_writes, Or.inl (by omega)⟩
  have hempty : earlier (writeOnce.Writes ()) (stamp 2 0) = ∅ := hlast
  rw [hempty] at hm
  exact hm

end Runs
end Mvdcc.Serval
