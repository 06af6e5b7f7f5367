import Mvdcc.Library.Transition

namespace Mvdcc.Library

/-- A program whose threads do their parts of one round after the other. What a thread
does depends on the round, on the memory that the threads share and on its own state;
entering a round keeps nothing of what another round has left to do. -/
structure Phased (Memory : Type u) (Local : Type v) (ι : Type w) where
  work : Nat → Nat → ι → Memory → Local → Option (Memory × Local)
  enter : Nat → Nat → Local → Local
  idle : Local → Bool
  enter_enter : ∀ round round' w l, enter round' w (enter round w l) = enter round' w l

/-- All threads are in one round. -/
@[ext]
structure Lockstep (Memory : Type u) (Local : Type v) where
  round : Nat
  memory : Memory
  locals : Nat → Local

/-- One thread moves, or all of them through the barrier. -/
inductive Turn (ι : Type u) where
  | thread (w : Nat) (i : ι)
  | barrier

namespace Lockstep
variable {Memory : Type u} {Local : Type v} {ι : Type w}

def enter (p : Phased Memory Local ι) (x : Lockstep Memory Local) (round : Nat) :
    Lockstep Memory Local :=
  { x with round, locals := fun w => p.enter round w (x.locals w) }

def advance (x : Lockstep Memory Local) (w : Nat) (m : Memory) (l : Local) :
    Lockstep Memory Local :=
  { x with memory := m, locals := Function.update x.locals w l }

def step (p : Phased Memory Local ι) (threads : Nat) :
    Turn ι → Lockstep Memory Local → Option (Lockstep Memory Local)
  | .thread w i, x =>
    if w < threads then
      (p.work x.round w i x.memory (x.locals w)).map (fun (m, l) => x.advance w m l)
    else none
  | .barrier, x =>
    if ∀ w < threads, p.idle (x.locals w) = true then some (x.enter p (x.round + 1)) else none

def system (p : Phased Memory Local ι) (threads : Nat) :
    TransitionSystem (Lockstep Memory Local) (Turn ι) :=
  ⟨step p threads⟩

theorem round_le {p : Phased Memory Local ι} {threads : Nat} {x y : Lockstep Memory Local}
    (h : (system p threads).Reachable (· = x) y) : x.round ≤ y.round := by
  induction h with
  | start he => exact he ▸ Nat.le_refl _
  | next i _ hstep ih =>
    cases i with
    | thread w i =>
      simp only [system, step, Option.ite_none_right_eq_some, Option.map_eq_some_iff] at hstep
      obtain ⟨_, _, _, rfl⟩ := hstep
      exact ih
    | barrier =>
      simp only [system, step, Option.ite_none_right_eq_some, Option.some.injEq] at hstep
      obtain ⟨_, rfl⟩ := hstep
      exact Nat.le_succ_of_le ih

/-- The events of a thread's step, by its round and its own state. -/
def events (event : Nat → Local → List α) : Turn ι → Lockstep Memory Local → List α
  | .thread w _, x => event x.round (x.locals w)
  | .barrier, _ => []

end Lockstep
end Mvdcc.Library
