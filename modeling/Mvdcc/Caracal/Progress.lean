import Mvdcc.Caracal.SerialReads
import Mvdcc.Serval.SerialReads

namespace Mvdcc.Caracal
open Library

section Row
variable {W : List Nat} {e s : Nat} {x : Version} {row : Row} {pcs : Nat → Pc} {pc : Pc} {v : Ptr}

/-- A read waits for a version only while its writer, an earlier transaction, is unfinished. -/
theorem Executing.waiting_for_writer (h : Executing W e x row pcs) (hs : s < numTxsInOneEpoch)
    (hW : ∀ s ∈ W, s < numTxsInOneEpoch) (hv : Resolves row e s v)
    (hst : (row.heap.version v).status = .pending) : ∃ σ < s, pcs σ ≠ .done := by
  obtain ⟨y, hsearch, hy, hbelow, _⟩ := h.search hs
  obtain ⟨i, hv⟩ := hv
  rw [hsearch, Option.some.injEq] at hv
  subst hv
  by_cases hlow : i < convertToSerialIdWithEpoch e 0
  · have hstable := (h.finished (i, v) hy hlow).1
    simp only at hstable
    rw [hst] at hstable
    cases hstable
  · obtain ⟨σ, hσ, hp, hi⟩ := (h.entries (i, v)).mp ⟨hy, Nat.not_lt.mp hlow⟩
    simp only at hp hi hbelow
    refine ⟨σ, ?_, ?_⟩
    · rw [hi, convert_add (serial_lt_word hs), convert_add (serial_lt_word (hW σ hσ))] at hbelow
      omega
    · intro hdone
      obtain ⟨p, hp', hok⟩ := h.writers σ hσ
      rw [hp, Option.some.injEq] at hp'
      rw [hdone] at hok
      simp only at hok
      rw [hp', hok] at hst
      cases hst

theorem Executing.write_moves (h : Executing W e x row pcs) (hs : s ∈ W) (hd : pcs s ≠ .done) :
    ∃ pc row', pcs s ≠ pc ∧ executionStep e s .update (pcs s) row = some (pc, row') := by
  obtain ⟨p, hp, hok⟩ := h.writers s hs
  cases hpc : pcs s <;> rw [hpc] at hok hd <;> try exact hok.elim
  · refine ⟨.storeStable p, { row with heap := row.heap.storeRec p (.written e s) }, by simp, ?_⟩
    simp only [executionStep, hp]
  · exact ⟨.done, _, by simp, rfl⟩
  · exact absurd rfl hd

theorem Executing.read_moves (h : Executing W e x row pcs) (hs : s < numTxsInOneEpoch)
    (hW : ∀ s ∈ W, s < numTxsInOneEpoch) (hr : ReaderOk row e s pc) (hd : pc ≠ .done) :
    (∃ pc' row', pc ≠ pc' ∧ executionStep e s .read pc row = some (pc', row')) ∨
      ∃ σ < s, pcs σ ≠ .done := by
  cases pc <;> simp only [ReaderOk] at hr
  case start =>
    obtain ⟨y, hsearch, _⟩ := h.search hs
    refine Or.inl ⟨.waitStable y.2, row, by simp, ?_⟩
    simp only [executionStep, hsearch, Option.map_some]
  case waitStable v =>
    by_cases hst : (row.heap.version v).status = .pending
    · exact Or.inr (h.waiting_for_writer hs hW hr hst)
    · refine Or.inl ⟨.fetchRec v, row, by simp, ?_⟩
      simp only [executionStep, if_neg hst]
  case fetchRec v => exact Or.inl ⟨_, _, by simp, rfl⟩
  case returning r => exact Or.inl ⟨.done, _, by simp, rfl⟩
  case done => exact absurd rfl hd

end Row

section Between
variable {Key : Type u} {wl : Workload Key} {s : State Key}

/-- The versions of a row between two epochs: each is reclaimed or has one entry, and
is finished. -/
structure Stored (row : Row) : Prop where
  places : (row.heap.freed : Multiset Ptr) +
    (row.globalArray.idsSlots.map Prod.snd : Multiset Ptr) = Multiset.range row.heap.next
  clean : row.heap.CleanLog
  finished : ∀ y ∈ row.globalArray.idsSlots, row.heap.Finished y.2

theorem stored_loaded : Stored loadedRow := by
  refine ⟨rfl, nofun, ?_⟩
  intro y hy
  rw [show y = (0, 0) from List.mem_singleton.mp hy]
  exact ⟨rfl, Option.some_ne_none _⟩

/-- The version of the last entry. -/
def Row.lastVersion (r : Row) : Version :=
  r.heap.version ((r.globalArray.idsSlots.getLast?.map Prod.snd).getD 0)

theorem Begins.lastVersion_stable (h : Begins wl s) (hstored : ∀ k, Stored (s.rows k)) (k : Key) :
    (s.rows k).lastVersion.status = .stable := by
  obtain ⟨last, hlast, _⟩ := (h.rows k).last_mem
  unfold Row.lastVersion
  rw [hlast]
  exact ((hstored k).finished last (List.mem_of_getLast? hlast)).1

end Between

section Progress
variable {Key : Type u} [DecidableEq Key] {wl : Workload Key} {cfg : Config} {s t : State Key}
variable {x : Key → Version}

/-- Following the versions waited for, from transaction to earlier transaction,
ends at a worker that can move. -/
theorem progress_below (hcore : cfg.numCore = 64) (h : Running wl x s)
    (hphase : s.phase = .execution) (n : Nat) :
    ∀ w c rest, (s.workers w).todo = c :: rest → c.serial = n →
      ∃ w' s', step cfg (program wl) (.worker w' 0) s = some s' ∧ s' ≠ s := by
  have hasg := program_assigned wl .execution s.epoch
  have hW : ∀ k, ∀ σ ∈ wl.writers k s.epoch, σ < numTxsInOneEpoch :=
    fun k σ hσ => (wl.mem_writers.mp hσ).1
  induction n using Nat.strong_induction_on with
  | _ n ih =>
    intro w c rest htodo hn
    have hplace := place_head h.remaining htodo
    have hmem := h.remaining.mem htodo
    have howner := hasg.owned w c hmem
    rw [← howner] at hmem
    have hw : w < cfg.numCore := by
      rw [hcore, ← howner]
      exact Nat.mod_lt _ (by omega)
    have hmoves : ∀ pc row, (s.workers w).pc ≠ .done → (s.workers w).pc ≠ pc →
        executionStep s.epoch c.serial c.operation.ope (s.workers w).pc (s.rows c.index) =
          some (pc, row) →
        ∃ w' s', step cfg (program wl) (.worker w' 0) s = some s' ∧ s' ≠ s := by
      intro pc row hd hpc hexec
      refine ⟨w, s.advance w c.index pc { s.memory w c.index with toRow := row }, ?_, ?_⟩
      · simp [step, hw, htodo, hd, callStep, hphase, State.memory, hexec]
      · intro he
        have := congrArg (fun s => (s.workers w).pc) he
        simp only [State.advance, Function.update_self] at this
        exact hpc this.symm
    by_cases hdone : (s.workers w).pc = .done
    · refine ⟨w, s.return w rest, ?_, ?_⟩
      · simp [step, hw, htodo, hdone]
      · intro he
        have := congrArg (fun s => (s.workers w).todo.length) he
        simp [State.return, htodo] at this
    · cases hope : c.operation.ope with
      | update =>
        rw [hope] at hplace hmoves
        rw [c.eta, hope] at hmem
        rw [← hplace] at hdone hmoves
        obtain ⟨pc, row, hne, hexec⟩ :=
          (h.rows c.index).write_moves (writer_mem_program.mp hmem) hdone
        exact hmoves pc row hdone hne hexec
      | read =>
        rw [hope] at hplace hmoves
        rw [← hplace] at hdone hmoves
        rcases (h.rows c.index).read_moves (mem_program.mp hmem).1 (hW c.index)
          (h.readers c.index c.serial) hdone with ⟨pc, row, hne, hexec⟩ | ⟨σ, hlt, hσ⟩
        · exact hmoves pc row hdone hne hexec
        · obtain ⟨head, rest', htodo', hle⟩ := view_unfinished hasg h.remaining hσ
          simp only at hle
          exact ih head.serial (by omega) _ head rest' htodo' rfl

theorem Begins.preparing (h : Begins wl s) (hstored : ∀ k, Stored (s.rows k)) :
    Preparing wl (fun k => (s.rows k).lastVersion) (fun k => (s.rows k).globalArray.idsSlots) s := by
  refine ⟨h.rows, h.filling, fun k => ?_⟩
  unfold State.data
  rw [slices_nil h.slices, homeOf_nil]
  refine ⟨(hstored k).places, (hstored k).clean, ?_, ?_, ?_⟩
  · intro y hy
    refine ⟨?_, (hstored k).finished y hy⟩
    have hm : y.2 ∈ Multiset.range (s.rows k).heap.next := by
      rw [← (hstored k).places]
      exact Multiset.mem_add.mpr (Or.inr (Multiset.mem_coe.mpr (List.mem_map_of_mem hy)))
    exact Multiset.mem_range.mp hm
  · intro last hlast
    unfold Row.lastVersion
    rw [hlast]
    rfl
  · intro serial hs v hv
    have hnone : s.heldBy k serial = some v := hv
    rw [h.heldBy_none k serial hs] at hnone
    cases hnone

/-- What holds all through the epoch that begins in a state. -/
theorem Begins.epoch_run (hcore : cfg.numCore = 64) (h : Begins wl s)
    (hstored : ∀ k, Stored (s.rows k)) (ht : (system cfg (program wl)).Reachable (· = s) t) :
    s.epoch ≤ t.epoch ∧ Owned 64 t ∧ Locked 64 t ∧
      (t.epoch = s.epoch → PhaseInv wl (fun k => (s.rows k).lastVersion) t) := by
  induction ht with
  | start he =>
    subst he
    refine ⟨Nat.le_refl _, h.owned, h.locked, fun _ => ?_⟩
    unfold PhaseInv
    rw [h.phase]
    exact ⟨_, h.preparing hstored⟩
  | @next t t' i _ hstep ih =>
    obtain ⟨hle, ho, hl, hinv⟩ := ih
    have ho' := owned_step (hcore.symm ▸ ho) hstep
    have hl' := Locked.step (hcore.symm ▸ hl) (hcore.symm ▸ ho.rests) hstep
    have hmono : t.epoch ≤ t'.epoch := by
      rcases step_phase hstep with ⟨_, he⟩ | ⟨_, ⟨_, rfl⟩ | ⟨_, rfl⟩⟩
      · exact Nat.le_of_eq he.symm
      · exact Nat.le_refl _
      · exact Nat.le_succ _
    refine ⟨Nat.le_trans hle hmono, hcore ▸ ho', hcore ▸ hl', fun he => ?_⟩
    have heq : t.epoch = s.epoch := by omega
    exact (hinv heq).step hcore ho hl (h.lastVersion_stable hstored) (he.trans heq.symm) hstep

/-- In either protocol an execution phase with unfinished transactions can always move
on, and not only by testing a pending version again. -/
theorem executions_progress (wl : Workload Key) :
    (∀ (numRegions : Nat) (s : Serval.State Key), Serval.Reachable wl numRegions s →
      s.phase = .execution → ∀ w, (s.workers w).todo ≠ [] →
        ∃ w' s', Serval.step wl numRegions (.worker w') s = some s' ∧ s' ≠ s) ∧
    (∀ (cfg : Config) (s t : State Key), cfg.numCore = 64 → Begins wl s →
      (∀ k, Stored (s.rows k)) → (system cfg (program wl)).Reachable (· = s) t →
      t.epoch = s.epoch → t.phase = .execution → ∀ w, (t.workers w).todo ≠ [] →
        ∃ w' t', step cfg (program wl) (.worker w' 0) t = some t' ∧ t' ≠ t) := by
  refine ⟨fun numRegions s hs hphase w hw => Serval.execution_progress hs hphase hw, ?_⟩
  intro cfg s t hcore hbegins hstored ht hepoch hphase w hw
  have hinv := (hbegins.epoch_run hcore hstored ht).2.2.2 hepoch
  unfold PhaseInv at hinv
  rw [hphase] at hinv
  obtain ⟨c, rest, htodo⟩ := List.exists_cons_of_ne_nil hw
  exact progress_below hcore hinv hphase c.serial w c rest htodo rfl

end Progress

/-- The first epoch's only append in either protocol, and the barrier behind it. -/
theorem first_executions_progress :
    (∃ s : Serval.State Unit, s.phase = .execution ∧ (s.workers 1).todo ≠ [] ∧
      ∃ w' s', Serval.step writeOnce 1 (.worker w') s = some s' ∧ s' ≠ s) ∧
    (∃ t : State Unit, t.phase = .execution ∧ (t.workers 1).todo ≠ [] ∧
      ∃ w' t', step ⟨64, 4, 1, true⟩ (program writeOnce) (.worker w' 0) t = some t' ∧ t' ≠ t) := by
  constructor
  · have hstart : Serval.Reachable writeOnce 1 (Serval.initial writeOnce) := .start rfl
    have hrun : ((Serval.system writeOnce 1).run (List.replicate 8 (.worker 0) ++ [.barrier])
        (Serval.initial writeOnce)).map (fun s => (s.phase, (s.workers 1).todo)) =
          some (.execution, [⟨1, ⟨.read, ()⟩⟩]) := by decide +kernel
    obtain ⟨s, hs, hshow⟩ := hstart.of_run_map hrun
    obtain ⟨hphase, htodo⟩ := Prod.mk.inj hshow
    have hne : (s.workers 1).todo ≠ [] := by
      rw [htodo]
      exact List.cons_ne_nil _ _
    exact ⟨s, hphase, hne, (executions_progress writeOnce).1 1 s hs hphase 1 hne⟩
  · have hstart : (system ⟨64, 4, 1, true⟩ (program writeOnce)).Reachable
        (· = initial (program writeOnce)) (initial (program writeOnce)) := .start rfl
    have hrun : ((system ⟨64, 4, 1, true⟩ (program writeOnce)).run
        (List.replicate 5 (.worker 0 0) ++ [.barrier]) (initial (program writeOnce))).map
          (fun s => (s.epoch, s.phase, (s.workers 1).todo)) =
            some (1, .execution, [⟨1, ⟨.read, ()⟩⟩]) := by decide +kernel
    obtain ⟨t, ht, hshow⟩ := hstart.of_run_map hrun
    simp only [Prod.mk.injEq] at hshow
    obtain ⟨hepoch, hphase, htodo⟩ := hshow
    have hne : (t.workers 1).todo ≠ [] := by
      rw [htodo]
      exact List.cons_ne_nil _ _
    have hstored : ∀ k, Stored ((initial (program writeOnce)).rows k) :=
      fun _ => stored_loaded
    exact ⟨t, hphase, hne, (executions_progress writeOnce).2 ⟨64, 4, 1, true⟩ _ t rfl
      begins_initial hstored ht hepoch hphase 1 hne⟩

end Mvdcc.Caracal
