import Mvdcc.Cheetah.Epochs
import Mvdcc.Common.Workers

namespace Mvdcc.Cheetah
open Library Bitmap

section Inv
variable {Key : Type u} {wl : Workload Key}

/-- Sequential assignment when marking and resolving, round-robin assignment when executing. -/
def owner (phase : Phase) (serial : Nat) : Nat :=
  match phase with
  | .write | .read => serial / 64
  | .execution => serial % 64

theorem program_assigned (wl : Workload Key) (phase : Phase) (e : Nat) :
    Assignment (owner phase) (program wl phase e) := by
  cases phase with
  | write => exact sequential_assigned (wl.wSet_nodup e)
  | read => exact sequential_assigned (wl.rSet_nodup e)
  | execution => exact roundRobin_assigned (wl.rwSet_nodup e)

theorem mem_program {phase : Phase} {e : Nat} {c : Call Key} :
    c ∈ program wl phase e (owner phase c.serial) ↔ c.serial < numTxsInOneEpoch ∧
      c.operation ∈ wl.rwSet e c.serial ∧ (phase = .write → c.operation.ope = .update) ∧
        (phase = .read → c.operation.ope = .read) := by
  cases phase with
  | write =>
    refine mem_sequential_program.trans ?_
    simp [Workload.mem_wSet]
  | read =>
    refine mem_sequential_program.trans ?_
    simp [Workload.mem_rSet]
  | execution =>
    refine mem_roundRobin_program.trans ?_
    simp

def State.finished (s : State Key) : Bool :=
  (List.range 64).all (fun w => (s.workers w).todo.isEmpty)

theorem State.finished_iff {s : State Key} :
    s.finished = true ↔ ∀ w < 64, (s.workers w).todo = [] := by
  simp [finished]

variable [DecidableEq Key]

theorem writer_mem_program {phase : Phase} {e serial : Nat} {k : Key} (hp : phase ≠ .read) :
    ⟨serial, ⟨.update, k⟩⟩ ∈ program wl phase e (owner phase serial) ↔
      serial ∈ wl.writers k e := by
  rw [mem_program (c := ⟨serial, ⟨.update, k⟩⟩), wl.mem_writers]
  simp [hp]

theorem reader_mem_program {phase : Phase} {e serial : Nat} {k : Key} (hp : phase ≠ .write) :
    ⟨serial, ⟨.read, k⟩⟩ ∈ program wl phase e (owner phase serial) ↔
      serial ∈ wl.readers k e := by
  rw [mem_program (c := ⟨serial, ⟨.read, k⟩⟩), wl.mem_readers]
  simp [hp]

def State.at (s : State Key) (c : Call Key) : Pc :=
  view .start .done (owner s.phase) s.workers c

/-- Where the operation of transaction `serial` on the row stands. -/
def State.place (s : State Key) (k : Key) (ope : Ope) (serial : Nat) : Pc :=
  s.at ⟨serial, ⟨ope, k⟩⟩

/-- What each worker's map holds for the row. -/
def State.bits (s : State Key) (k : Key) (w : Nat) : BitVec 64 :=
  ((s.markers w).bitmaps.find k).getD 0

def RowInv (wl : Workload Key) (s : State Key) (k : Key) : Prop :=
  match s.phase with
  | .write => Marking (wl.writers k s.epoch) (s.rows k) (wl.trailOf k s.epoch).latest (s.bits k)
      (s.place k .update)
  | .read => Resolving (wl.writers k s.epoch) (wl.readers k s.epoch) s.epoch (s.rows k)
      (wl.trailOf k s.epoch).latest (s.place k .read)
  | .execution => ∃ m, Executing (wl.writers k s.epoch) (wl.readers k s.epoch) s.epoch (s.rows k)
      (wl.trailOf k s.epoch).latest m (s.place k .update) (s.place k .read)

section Phase
variable {s : State Key} (k : Key)

theorem rowInv_write (hp : s.phase = .write) : RowInv wl s k ↔
    Marking (wl.writers k s.epoch) (s.rows k) (wl.trailOf k s.epoch).latest (s.bits k)
      (s.place k .update) := by
  unfold RowInv
  rw [hp]

theorem rowInv_read (hp : s.phase = .read) : RowInv wl s k ↔
    Resolving (wl.writers k s.epoch) (wl.readers k s.epoch) s.epoch (s.rows k)
      (wl.trailOf k s.epoch).latest (s.place k .read) := by
  unfold RowInv
  rw [hp]

theorem rowInv_execution (hp : s.phase = .execution) : RowInv wl s k ↔
    ∃ m, Executing (wl.writers k s.epoch) (wl.readers k s.epoch) s.epoch (s.rows k)
      (wl.trailOf k s.epoch).latest m (s.place k .update) (s.place k .read) := by
  unfold RowInv
  rw [hp]

end Phase

/-- What holds of one worker in the write phase. A row it has marked has left its
map, or is about to. -/
structure MarkerOk (s : State Key) (w : Nat) : Prop where
  limit : 64 ≤ w → s.markers w = .idle
  busy : (s.workers w).todo ≠ [] → (s.markers w).pass = [] ∧ (s.markers w).pc = .scan
  nonzero : ∀ k b, (s.markers w).bitmaps.find k = some b → b ≠ 0
  marked : ∀ k, (s.rows k).wBitmap.coreBitmap.getMsbD w = true → (s.workers w).todo = [] ∧
    ((s.markers w).bitmaps.find k = none ∨ (s.markers w).pc = .unlock k)
  pass : ∀ e ∈ (s.markers w).pass, (s.markers w).bitmaps.find e.1 = some e.2
  passKeys : ((s.markers w).pass.map Prod.fst).Nodup
  holding : match (s.markers w).pc with
    | .scan => True
    | .update k b => (s.markers w).bitmaps.find k = some b ∧ k ∉ (s.markers w).pass.map Prod.fst
    | .unlock k => (s.rows k).wBitmap.coreBitmap.getMsbD w = true ∧
        k ∉ (s.markers w).pass.map Prod.fst

structure Inv (wl : Workload Key) (s : State Key) : Prop where
  epoch : 1 ≤ s.epoch
  remaining : Remaining (program wl s.phase s.epoch) s.workers
  marking : s.phase = .write → ∀ w, MarkerOk s w
  idle : s.phase ≠ .write → ∀ w, s.markers w = .idle
  rows : ∀ k, RowInv wl s k

/-- The shapes of a step. -/
theorem step_cases {i : Choice} {s s' : State Key} (h : step wl i s = some s') :
    (∃ w position c rest, i = .worker w position ∧ (s.workers w).todo = c :: rest ∧
      (s.workers w).pc = .done ∧ s' = s.return w rest) ∨
    (∃ w position, i = .worker w position ∧ (s.workers w).todo = [] ∧ s.phase = .write ∧
      s.finalize w = some s') ∨
    (∃ w position c rest, i = .worker w position ∧ (s.workers w).todo = c :: rest ∧
      s.phase = .write ∧ s' = s.updateWriteBitmaps w position c) ∨
    (∃ w position c rest pc r, i = .worker w position ∧ (s.workers w).todo = c :: rest ∧
      s.phase ≠ .write ∧
      callStep s w position c (s.workers w).pc (s.rows c.index) = some (pc, r) ∧
      s' = s.advance w c.index pc r) ∨
    (i = .barrier ∧ (∀ w < 64, (s.workers w).todo = [] ∧ s.markers w = .idle) ∧
      s' = match s.phase with
        | .write => s.enter wl .read s.epoch
        | .read => s.enter wl .execution s.epoch
        | .execution => s.enter wl .write (s.epoch + 1)) := by
  cases i with
  | worker w position =>
    simp only [step] at h
    split at h
    · rename_i htodo
      split at h
      · rename_i hp
        exact Or.inr (Or.inl ⟨w, position, rfl, htodo, hp, h⟩)
      · cases h
    · rename_i c rest htodo
      split at h
      · rename_i hpc
        exact Or.inl ⟨w, position, c, rest, rfl, htodo, hpc, (Option.some.inj h).symm⟩
      · split at h
        · rename_i hp
          exact Or.inr (Or.inr (Or.inl
            ⟨w, position, c, rest, rfl, htodo, hp, (Option.some.inj h).symm⟩))
        · rename_i hp
          obtain ⟨⟨pc, r⟩, hcall, he⟩ := Option.map_eq_some_iff.mp h
          exact Or.inr (Or.inr (Or.inr (Or.inl
            ⟨w, position, c, rest, pc, r, rfl, htodo, hp, hcall, he.symm⟩)))
  | barrier =>
    simp only [step] at h
    split at h
    · rename_i hall
      exact Or.inr (Or.inr (Or.inr (Or.inr ⟨rfl, hall, (Option.some.inj h).symm⟩)))
    · cases h

theorem rows_advance {s : State Key} {w : Nat} {k k' : Key} {pc : Pc} {r : Row} (h : k' ≠ k) :
    (s.advance w k pc r).rows k' = s.rows k' :=
  Function.update_of_ne h _ _

theorem rows_advance_self (s : State Key) (w : Nat) (k : Key) (pc : Pc) (r : Row) :
    (s.advance w k pc r).rows k = r :=
  Function.update_self _ _ _

section Calls
variable {s : State Key} {w position : Nat} {c : Call Key} {rest : List (Call Key)}
variable {pc : Pc} {r : Row}

/-- A finished phase has finished every call. -/
theorem at_finished (h : Inv wl s) (hall : ∀ w < 64, (s.workers w).todo = []) (c : Call Key) :
    s.at c = .done := by
  apply view_finished
  by_cases hw : owner s.phase c.serial < 64
  · exact hall _ hw
  · have hs := h.remaining (owner s.phase c.serial)
    unfold program at hs
    rw [if_neg hw] at hs
    exact List.suffix_nil.mp hs

theorem at_enter (wl : Workload Key) (s : State Key) {phase : Phase} {e : Nat} {c : Call Key}
    (h : c ∈ program wl phase e (owner phase c.serial)) : (s.enter wl phase e).at c = .start :=
  view_enter h

theorem at_head (h : Inv wl s) (htodo : (s.workers w).todo = c :: rest) :
    s.at c = (s.workers w).pc :=
  view_head (program_assigned wl s.phase s.epoch) h.remaining htodo

theorem at_advance (h : Inv wl s) (htodo : (s.workers w).todo = c :: rest) (k : Key) (pc : Pc)
    (r : Row) : (s.advance w k pc r).at = Function.update s.at c pc :=
  view_advance (program_assigned wl s.phase s.epoch) h.remaining htodo pc

end Calls
end Inv
end Mvdcc.Cheetah
