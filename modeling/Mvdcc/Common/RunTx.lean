import Mvdcc.Common.RendezvousBarrier
import Mvdcc.Library.Lockstep
import Mvdcc.Library.Simulation

namespace Mvdcc
open Library

namespace Barrier
variable {sched : Schedule} {n w : Nat} {b b' : State} {c : Choice}

/-- The calls that worker `w` has returned from: worker `n` is the parent. -/
def State.returned (b : State) (n w : Nat) : Nat :=
  if w = n then b.parent.returned else (b.child w).returned

/-- Worker `w` is not in a call. -/
def State.outside (b : State) (n w : Nat) : Prop :=
  if w = n then b.parent.pc = .outside else (b.child w).pc = .outside

instance : Decidable (b.outside n w) := by
  unfold State.outside
  infer_instance

/-- The worker that a choice moves. -/
def Choice.worker (n : Nat) : Choice → Nat
  | .parent => n
  | .child i => i

/-- A worker that is in no call has returned from as many as the parent. -/
theorem Inv.returned_outside (h : Inv sched n b) (hw : w ≤ n) (ho : b.outside n w) :
    b.returned n w = b.parent.returned := by
  unfold State.outside at ho
  unfold State.returned
  split at ho
  · rename_i he
    rw [if_pos he]
  · rename_i hne
    obtain ⟨hreturned, ⟨hlow, _⟩, _⟩ := h.children w (by omega)
    rw [if_neg hne]
    simp only [Position.announced, ho, reduceCtorEq, if_false, Nat.add_zero] at hlow
    omega

/-- When the parent has collected all children, every worker is in the same call. -/
theorem Inv.collected_all (h : Inv sched n b) (hpc : b.parent.pc = .sending) (hw : w ≤ n) :
    b.returned n w = b.parent.returned ∧ ¬ b.outside n w := by
  unfold State.returned State.outside
  split
  · refine ⟨rfl, ?_⟩
    rw [hpc]
    simp
  · obtain ⟨hreturned, _, _⟩ := h.children w (by omega)
    have hall := h.collected (Or.inr hpc) w (by omega)
    rw [Position.announces, decide_eq_true_eq, Position.announced] at hall
    by_cases hwaiting : (b.child w).pc = .waiting
    · rw [if_pos hwaiting] at hall
      refine ⟨Nat.succ.inj hall, ?_⟩
      rw [hwaiting]
      simp
    · rw [if_neg hwaiting] at hall
      omega

/-- In a step nobody returns, or one child does to the round that the parent is in, or
the parent does with all workers in its call. -/
theorem Inv.step_returns (halt : sched.Alternates) (h : Inv sched n b)
    (hstep : step sched c b = some b') :
    (b'.parent.returned = b.parent.returned ∧ (∀ w, b'.returned n w = b.returned n w) ∧
      ∀ w ≤ n, w ≠ c.worker n → (b'.outside n w ↔ b.outside n w)) ∨
    (∃ i < n, c = .child i ∧ b'.parent = b.parent ∧
      b'.child = Function.update b.child i ⟨b.parent.returned, .outside⟩ ∧
      (b.child i).returned + 1 = b.parent.returned) ∨
    (c = .parent ∧ b'.parent = ⟨b.parent.returned + 1, .outside⟩ ∧ b'.child = b.child ∧
      sched.Calls b.parent.returned ∧
      ∀ w ≤ n, b.returned n w = b.parent.returned ∧ ¬ b.outside n w) := by
  have hinv := inv_step halt h hstep
  cases c with
  | parent =>
    simp only [step, parentStep] at hstep
    cases hpc : b.parent.pc with
    | outside =>
      simp only [hpc, Option.ite_none_right_eq_some, Option.some.injEq] at hstep
      obtain ⟨_, rfl⟩ := hstep
      refine Or.inl ⟨rfl, fun w => rfl, fun w _ hw => ?_⟩
      simp only [State.outside, if_neg (show w ≠ n from hw)]
    | waiting =>
      simp only [hpc, Option.some.injEq] at hstep
      subst hstep
      split
      · exact Or.inl ⟨rfl, fun w => rfl, fun w _ _ => Iff.rfl⟩
      · refine Or.inl ⟨rfl, fun w => rfl, fun w _ hw => ?_⟩
        simp only [State.outside, if_neg (show w ≠ n from hw)]
    | initializing =>
      simp only [hpc, Option.some.injEq] at hstep
      subst hstep
      refine Or.inl ⟨rfl, fun w => rfl, fun w _ hw => ?_⟩
      simp only [State.outside, if_neg (show w ≠ n from hw)]
    | sending =>
      simp only [hpc, Option.some.injEq] at hstep
      subst hstep
      refine Or.inr (Or.inr ⟨rfl, rfl, rfl, ?_, fun w hw => h.collected_all hpc hw⟩)
      exact h.calls (by rw [hpc]; simp)
  | child i =>
    simp only [step, Option.ite_none_right_eq_some, h.numChildren] at hstep
    obtain ⟨hi, hstep⟩ := hstep
    have hother : ∀ (p : Position ChildPc) w, w ≠ i →
        Function.update b.child i p w = b.child w := fun p w hw => Function.update_of_ne hw p b.child
    have hsame : ∀ (p : Position ChildPc) (v : RendezvousBarrierVariable),
        p.returned = (b.child i).returned →
        ∀ w, State.returned { b.moveChild i p with variable_ := v } n w = b.returned n w := by
      intro p v hp w
      unfold State.returned State.moveChild
      by_cases hw : w = i
      · subst hw
        simp only [Function.update_self, hp]
      · simp only [hother p w hw]
    have hstay : ∀ (p : Position ChildPc) (v : RendezvousBarrierVariable), ∀ w ≤ n, w ≠ i →
        (State.outside { b.moveChild i p with variable_ := v } n w ↔ b.outside n w) := by
      intro p v w _ hw
      simp only [State.outside, State.moveChild, hother p w hw]
    unfold childStep at hstep
    cases hpc : (b.child i).pc with
    | outside =>
      simp only [hpc, Option.ite_none_right_eq_some, Option.some.injEq] at hstep
      obtain ⟨_, rfl⟩ := hstep
      exact Or.inl ⟨rfl, hsame _ _ rfl, hstay _ _⟩
    | sending =>
      simp only [hpc, Option.some.injEq] at hstep
      subst hstep
      exact Or.inl ⟨rfl, hsame _ _ rfl, hstay _ _⟩
    | waiting =>
      simp only [hpc, Option.some.injEq] at hstep
      subst hstep
      split at hinv
      · rename_i hnot
        rw [if_pos hnot]
        exact Or.inl ⟨rfl, fun w => rfl, fun w _ _ => Iff.rfl⟩
      · rename_i hstarted
        rw [if_neg hstarted]
        have hround := hinv.returned_outside (w := i) (Nat.le_of_lt hi)
          (by simp [State.outside, State.moveChild, Nat.ne_of_lt hi])
        simp only [State.returned, State.moveChild, if_neg (Nat.ne_of_lt hi),
          Function.update_self] at hround
        refine Or.inr (Or.inl ⟨i, hi, rfl, rfl, ?_, hround⟩)
        simp only [State.moveChild, hround]

end Barrier

namespace RunTx

/-- The threads of an executable between and inside the calls of the barrier. -/
structure State (Memory : Type u) (Local : Type v) where
  barrier : Barrier.State
  memory : Memory
  locals : Nat → Local

/-- A worker moves in its part of a round, or a thread does one access to the barrier. -/
inductive Choice (ι : Type u) where
  | work (w : Nat) (i : ι)
  | synchronize (c : Barrier.Choice)

section System
variable {Memory : Type u} {Local : Type v} {ι : Type w}
variable (p : Phased Memory Local ι) (sched : Barrier.Schedule) (n : Nat)

/-- `rendezvous_barrier_to_start` has returned to the worker if its count has changed,
and the worker begins its part of the next round. -/
def State.synchronize (s : State Memory Local) (w : Nat) (b : Barrier.State) :
    State Memory Local :=
  let round := b.returned n w
  if round = s.barrier.returned n w then { s with barrier := b }
  else { s with
    barrier := b
    locals := Function.update s.locals w (p.enter round w (s.locals w)) }

/-- A worker calls the barrier when its part of the round is done, and leaves the loop
after its last call. -/
def step : Choice ι → State Memory Local → Option (State Memory Local)
  | .work w i, s =>
    let round := s.barrier.returned n w
    if w ≤ n ∧ s.barrier.outside n w ∧ 0 < round ∧ sched.Calls round then
      (p.work round w i s.memory (s.locals w)).map
        (fun (m, l) => { s with memory := m, locals := Function.update s.locals w l })
    else none
  | .synchronize c, s =>
    let w := c.worker n
    if s.barrier.outside n w → p.idle (s.locals w) = true then
      (Barrier.step sched c s.barrier).map (s.synchronize p n w)
    else none

def system : TransitionSystem (State Memory Local) (Choice ι) :=
  ⟨step p sched n⟩

/-- The threads before the first call of the barrier. -/
def initial (memory : Memory) (locals : Nat → Local) : State Memory Local where
  barrier := Barrier.initial n
  memory
  locals

/-- The events of a worker's step, by the round it is in and its own state. -/
def events (event : Nat → Local → List α) : Choice ι → State Memory Local → List α
  | .work w _, s => event (s.barrier.returned n w) (s.locals w)
  | .synchronize _, _ => []

/-- The round that the workers ahead are in; before the first one, the first. -/
def State.round (s : State Memory Local) : Nat := max 1 s.barrier.parent.returned

/-- The threads as if all those behind had already left the barrier. -/
def State.lockstep (s : State Memory Local) : Lockstep Memory Local where
  round := s.round
  memory := s.memory
  locals := fun w =>
    if w ≤ n ∧ s.barrier.returned n w = s.round then s.locals w
    else p.enter s.round w (s.locals w)

end System

section Refinement
variable {Memory : Type u} {Local : Type v} {ι : Type w} {α : Type x}
variable {p : Phased Memory Local ι} {sched : Barrier.Schedule} {n w : Nat}
variable {s s' : State Memory Local} {memory : Memory} {locals : Nat → Local}
variable {event : Nat → Local → List α} {log : List α} {b : Barrier.State}

/-- A worker in the barrier has done its part, and no call is one too many. -/
structure Inv (p : Phased Memory Local ι) (sched : Barrier.Schedule) (n : Nat)
    (s : State Memory Local) : Prop where
  barrier : Barrier.Inv sched n s.barrier
  waiting : ∀ w ≤ n, ¬ s.barrier.outside n w → p.idle (s.locals w) = true
  calls : ∀ k < s.barrier.parent.returned, sched.Calls k

theorem inv_initial : Inv p sched n (initial n memory locals) := by
  refine ⟨Barrier.inv_initial sched n, fun w _ ho => absurd ?_ ho, ?_⟩
  swap
  · intro k hk
    cases hk
  unfold Barrier.State.outside
  split <;> rfl

theorem synchronize_barrier : (s.synchronize p n w b).barrier = b := by
  unfold State.synchronize
  simp only
  split <;> rfl

theorem synchronize_memory : (s.synchronize p n w b).memory = s.memory := by
  unfold State.synchronize
  simp only
  split <;> rfl

theorem synchronize_locals (he : b.returned n w = s.barrier.returned n w) :
    (s.synchronize p n w b).locals = s.locals := by
  simp only [State.synchronize, if_pos he]

theorem synchronize_enters (hne : b.returned n w ≠ s.barrier.returned n w) :
    (s.synchronize p n w b).locals =
      Function.update s.locals w (p.enter (b.returned n w) w (s.locals w)) := by
  simp only [State.synchronize, if_neg hne]

theorem synchronize_other {w' : Nat} (hne : w' ≠ w) :
    (s.synchronize p n w b).locals w' = s.locals w' := by
  unfold State.synchronize
  simp only
  split
  · rfl
  · exact Function.update_of_ne hne _ _

theorem inv_work {i : ι} (h : Inv p sched n s) (hstep : step p sched n (.work w i) s = some s') :
    Inv p sched n s' := by
  simp only [step, Option.ite_none_right_eq_some, Option.map_eq_some_iff] at hstep
  obtain ⟨⟨_, ho, _⟩, ⟨m, l⟩, _, rfl⟩ := hstep
  refine ⟨h.barrier, fun w' hw' ho' => ?_, h.calls⟩
  have hne : w' ≠ w := by
    rintro rfl
    exact ho' ho
  change p.idle (Function.update s.locals w l w') = true
  rw [Function.update_of_ne hne]
  exact h.waiting w' hw' ho'

theorem waiting_synchronize (halt : sched.Alternates) {c : Barrier.Choice} (h : Inv p sched n s)
    (hidle : s.barrier.outside n (c.worker n) → p.idle (s.locals (c.worker n)) = true)
    (hb : Barrier.step sched c s.barrier = some b) (hw : w ≤ n) (ho : ¬ b.outside n w) :
    p.idle ((s.synchronize p n (c.worker n) b).locals w) = true := by
  rcases h.barrier.step_returns halt hb with ⟨_, hsame, hstay⟩ | ⟨i, hi, rfl, hparent, hchild, _⟩ |
    ⟨rfl, hparent, hchild, _⟩
  · rw [synchronize_locals (hsame _)]
    by_cases hself : w = c.worker n
    · subst hself
      by_cases ho' : s.barrier.outside n (c.worker n)
      · exact hidle ho'
      · exact h.waiting _ hw ho'
    · exact h.waiting w hw (fun ho' => ho ((hstay w hw hself).mpr ho'))
  · have hne : w ≠ i := by
      rintro rfl
      refine ho ?_
      simp [Barrier.State.outside, Nat.ne_of_lt hi, hchild]
    have hold : ¬ s.barrier.outside n w := by
      simpa only [Barrier.State.outside, hparent, hchild, Function.update_of_ne hne] using ho
    rw [Barrier.Choice.worker, synchronize_other hne]
    exact h.waiting w hw hold
  · have hne : w ≠ n := by
      rintro rfl
      refine ho ?_
      simp [Barrier.State.outside, hparent]
    have hold : ¬ s.barrier.outside n w := by
      simpa only [Barrier.State.outside, if_neg hne, hchild] using ho
    rw [Barrier.Choice.worker, synchronize_other hne]
    exact h.waiting w hw hold

theorem inv_synchronize (halt : sched.Alternates) {c : Barrier.Choice} (h : Inv p sched n s)
    (hstep : step p sched n (.synchronize c) s = some s') : Inv p sched n s' := by
  simp only [step, Option.ite_none_right_eq_some, Option.map_eq_some_iff] at hstep
  obtain ⟨hidle, b, hb, rfl⟩ := hstep
  refine ⟨?_, fun w hw ho => ?_, fun k hk => ?_⟩
  · rw [synchronize_barrier]
    exact Barrier.inv_step halt h.barrier hb
  · rw [synchronize_barrier] at ho
    exact waiting_synchronize halt h hidle hb hw ho
  · rw [synchronize_barrier] at hk
    rcases h.barrier.step_returns halt hb with ⟨hparent, _⟩ | ⟨_, _, _, hparent, _⟩ |
      ⟨_, hparent, _, hcalls, _⟩
    · exact h.calls k (hparent ▸ hk)
    · exact h.calls k (hparent ▸ hk)
    · rw [hparent] at hk
      rcases Nat.lt_succ_iff_lt_or_eq.mp hk with hlt | rfl
      · exact h.calls k hlt
      · exact hcalls

theorem inv_step (halt : sched.Alternates) {c : Choice ι} (h : Inv p sched n s)
    (hstep : step p sched n c s = some s') : Inv p sched n s' := by
  cases c with
  | work w i => exact inv_work h hstep
  | synchronize c => exact inv_synchronize halt h hstep

theorem inv_reachable (halt : sched.Alternates)
    (h : (system p sched n).Reachable (· = initial n memory locals) s) : Inv p sched n s :=
  TransitionSystem.Reachable.invariant h (fun _ he => he ▸ inv_initial)
    (fun _ _ _ hi hstep => inv_step halt hi hstep)

theorem returned_initial : (Barrier.initial n).returned n w = 0 := by
  unfold Barrier.State.returned
  split <;> rfl

theorem lockstep_initial : (initial n memory locals).lockstep p n =
    ⟨1, memory, fun w => p.enter 1 w (locals w)⟩ := by
  have hlocals : ∀ w, ((initial n memory locals).lockstep p n).locals w =
      p.enter 1 w (locals w) := by
    intro w
    refine if_neg ?_
    rintro ⟨_, he⟩
    exact Nat.zero_ne_one (returned_initial.symm.trans he)
  exact congrArg (Lockstep.mk 1 memory) (funext hlocals)

/-- A worker that moves is in the round of the workers ahead. -/
theorem work_round (h : Inv p sched n s) (hw : w ≤ n) (ho : s.barrier.outside n w)
    (hpos : 0 < s.barrier.returned n w) :
    s.barrier.returned n w = s.round ∧ (s.lockstep p n).locals w = s.locals w := by
  have hparent := h.barrier.returned_outside hw ho
  have hround : s.barrier.returned n w = s.round := by
    unfold State.round
    omega
  exact ⟨hround, if_pos ⟨hw, hround⟩⟩

/-- A worker's step is one of the threads in lockstep. -/
theorem work_simulated {i : ι} {m : Memory} {l : Local} (h : Inv p sched n s) (hw : w ≤ n)
    (ho : s.barrier.outside n w) (hpos : 0 < s.barrier.returned n w)
    (hwork : p.work (s.barrier.returned n w) w i s.memory (s.locals w) = some (m, l)) :
    Lockstep.step p (n + 1) (.thread w i) (s.lockstep p n) =
      some (State.lockstep p n
        { s with memory := m, locals := Function.update s.locals w l }) := by
  obtain ⟨hround, hlocal⟩ := work_round h hw ho hpos
  rw [hround] at hwork
  have hmoved : p.work (s.lockstep p n).round w i (s.lockstep p n).memory (s.locals w) =
      some (m, l) := hwork
  simp only [Lockstep.step, if_pos (Nat.lt_succ_of_le hw), hlocal, hmoved, Option.map_some,
    Option.some.injEq]
  refine Lockstep.ext rfl rfl ?_
  funext w'
  simp only [Lockstep.advance, State.lockstep, State.round]
  by_cases hself : w' = w
  · subst hself
    rw [Function.update_self, Function.update_self]
    exact (if_pos ⟨hw, hround⟩).symm
  · rw [Function.update_of_ne hself, Function.update_of_ne hself]
    rfl

/-- What a worker has in lockstep is what it has, or what it has in front of it. -/
theorem enter_lockstep (k : Nat) :
    p.enter k w ((s.lockstep p n).locals w) = p.enter k w (s.locals w) := by
  simp only [State.lockstep]
  split
  · rfl
  · exact p.enter_enter _ _ _ _

/-- When the call of the parent returns, all threads have done their parts of the round. -/
theorem round_done (h : Inv p sched n s) (hpos : 0 < s.barrier.parent.returned)
    (hall : ∀ w ≤ n, s.barrier.returned n w = s.barrier.parent.returned ∧
      ¬ s.barrier.outside n w) :
    s.round = s.barrier.parent.returned ∧
      ∀ w < n + 1, p.idle ((s.lockstep p n).locals w) = true := by
  have hround : s.round = s.barrier.parent.returned := by
    unfold State.round
    omega
  refine ⟨hround, fun w hw => ?_⟩
  have hle := Nat.le_of_lt_succ hw
  obtain ⟨hreturned, ho⟩ := hall w hle
  have hlocal : (s.lockstep p n).locals w = s.locals w :=
    if_pos ⟨hle, hreturned.trans hround.symm⟩
  exact hlocal ▸ h.waiting w hle ho

/-- The call of the parent returns: the threads go through the barrier. -/
theorem parent_simulated (h : Inv p sched n s) (hparent : b.parent = ⟨s.barrier.parent.returned + 1,
      .outside⟩) (hchild : b.child = s.barrier.child)
    (hall : ∀ w ≤ n, s.barrier.returned n w = s.barrier.parent.returned ∧
      ¬ s.barrier.outside n w) :
    (s.synchronize p n n b).lockstep p n = s.lockstep p n ∨
      Lockstep.step p (n + 1) .barrier (s.lockstep p n) =
        some ((s.synchronize p n n b).lockstep p n) := by
  have hn : b.returned n n = s.barrier.parent.returned + 1 := by
    simp [Barrier.State.returned, hparent]
  have hne : b.returned n n ≠ s.barrier.returned n n := by
    rw [hn, (hall n (Nat.le_refl n)).1]
    omega
  have hother : ∀ w, w ≠ n → b.returned n w = s.barrier.returned n w := by
    intro w hw
    simp only [Barrier.State.returned, if_neg hw, hchild]
  have hround : (s.synchronize p n n b).round = s.barrier.parent.returned + 1 := by
    simp only [State.round, synchronize_barrier, hparent]
    omega
  -- every worker is behind, but for the parent, which has just entered the round
  have hentered : ∀ w, ((s.synchronize p n n b).lockstep p n).locals w =
      p.enter (s.barrier.parent.returned + 1) w (s.locals w) := by
    intro w
    simp only [State.lockstep, hround, synchronize_barrier]
    by_cases hw : w = n
    · subst hw
      rw [if_pos ⟨Nat.le_refl _, hn⟩, synchronize_enters hne, Function.update_self, hn]
    · rw [synchronize_other hw, if_neg]
      rintro ⟨hle, he⟩
      rw [hother w hw, (hall w hle).1] at he
      omega
  rcases Nat.eq_zero_or_pos s.barrier.parent.returned with hzero | hpos
  · have hfirst : s.round = 1 := by
      simp [State.round, hzero]
    refine Or.inl (Lockstep.ext ?_ synchronize_memory ?_)
    · exact hround.trans (by rw [hzero]; exact hfirst.symm)
    · funext w
      rw [hentered, hzero]
      simp only [State.lockstep, hfirst]
      refine (if_neg ?_).symm
      rintro ⟨hle, he⟩
      rw [(hall w hle).1] at he
      omega
  · obtain ⟨hsame, hidle⟩ := round_done h hpos hall
    refine Or.inr ?_
    simp only [Lockstep.step, if_pos hidle, Option.some.injEq]
    refine Lockstep.ext ?_ synchronize_memory.symm ?_
    · exact (congrArg (· + 1) hsame).trans hround.symm
    · funext w
      rw [hentered, ← hsame, ← enter_lockstep]
      rfl

/-- A child returns to the round that the parent is in. -/
theorem child_simulated {i : Nat} (hi : i < n) (hparent : b.parent = s.barrier.parent)
    (hchild : b.child = Function.update s.barrier.child i ⟨s.barrier.parent.returned, .outside⟩)
    (hbehind : (s.barrier.child i).returned + 1 = s.barrier.parent.returned) :
    (s.synchronize p n i b).lockstep p n = s.lockstep p n := by
  have hround : s.round = s.barrier.parent.returned := by
    unfold State.round
    omega
  have hround' : (s.synchronize p n i b).round = s.round := by
    simp only [State.round, synchronize_barrier, hparent]
  have hne : i ≠ n := Nat.ne_of_lt hi
  have hnew : b.returned n i = s.round := by
    simp [Barrier.State.returned, hne, hchild, hround]
  have hold : s.barrier.returned n i ≠ s.round := by
    simp only [Barrier.State.returned, if_neg hne, hround]
    omega
  refine Lockstep.ext hround' synchronize_memory ?_
  funext w
  simp only [State.lockstep, hround', synchronize_barrier]
  by_cases hw : w = i
  · subst hw
    rw [if_pos ⟨Nat.le_of_lt hi, hnew⟩, if_neg (fun hc => hold hc.2),
      synchronize_enters (hnew.trans_ne hold.symm), Function.update_self, hnew]
  · have hother : b.returned n w = s.barrier.returned n w := by
      simp only [Barrier.State.returned, hparent, hchild, Function.update_of_ne hw]
    rw [hother, synchronize_other hw]

/-- The executable's threads refine the same threads in lockstep, with the same events. -/
theorem simulates (halt : sched.Alternates) :
    Simulates (system p sched n) (Lockstep.system p (n + 1)) (events n event)
      (Lockstep.events event) (Inv p sched n) (State.lockstep p n) := by
  intro c s s' h hstep
  cases c with
  | work w i =>
    simp only [system, step, Option.ite_none_right_eq_some, Option.map_eq_some_iff] at hstep
    obtain ⟨⟨hw, ho, hpos, _⟩, ⟨m, l⟩, hwork, rfl⟩ := hstep
    obtain ⟨hround, hlocal⟩ := work_round h hw ho hpos
    refine Or.inr ⟨.thread w i, work_simulated h hw ho hpos hwork, ?_⟩
    simp only [events, Lockstep.events, hlocal, hround]
    rfl
  | synchronize c =>
    simp only [system, step, Option.ite_none_right_eq_some, Option.map_eq_some_iff] at hstep
    obtain ⟨_, b, hb, rfl⟩ := hstep
    rcases h.barrier.step_returns halt hb with ⟨hparent, hsame, _⟩ |
      ⟨i, hi, rfl, hparent, hchild, hbehind⟩ | ⟨rfl, hparent, hchild, _, hall⟩
    · refine Or.inl ⟨Lockstep.ext ?_ synchronize_memory ?_, rfl⟩
      · simp only [State.lockstep, State.round, synchronize_barrier, hparent]
      · funext w
        simp only [State.lockstep, State.round, synchronize_barrier, hparent,
          synchronize_locals (hsame (c.worker n))]
        exact if_congr (by rw [hsame]) rfl rfl
    · exact Or.inl ⟨child_simulated hi hparent hchild hbehind, rfl⟩
    · rcases parent_simulated h hparent hchild hall with he | he
      · exact Or.inl ⟨he, rfl⟩
      · exact Or.inr ⟨.barrier, he, rfl⟩

theorem lockstep_reachable (halt : sched.Alternates)
    (h : (system p sched n).Reachable (· = initial n memory locals) s) :
    (Lockstep.system p (n + 1)).Reachable (· = ⟨1, memory, fun w => p.enter 1 w (locals w)⟩)
      (s.lockstep p n) := by
  have hsim := @simulates Memory Local ι Empty p sched n (fun _ _ => []) halt
  have hr := hsim.reachable (fun s hs => inv_reachable halt hs) h
  rwa [lockstep_initial] at hr

/-- What holds of runs in lockstep holds of the executable's. -/
theorem refines (halt : sched.Alternates)
    (h : ((system p sched n).logged (events n event)).Reachable
      (· = (initial n memory locals, [])) (s, log)) :
    Inv p sched n s ∧ ((Lockstep.system p (n + 1)).logged (Lockstep.events event)).Reachable
      (· = (⟨1, memory, fun w => p.enter 1 w (locals w)⟩, [])) (s.lockstep p n, log) := by
  have hlog := (simulates halt).logged (fun s hs => inv_reachable halt hs) h
  rw [lockstep_initial] at hlog
  exact ⟨inv_reachable halt h.unlogged, hlog⟩

/-- After the last call nothing moves but the barrier: the last round is over, and has
left what there is. -/
theorem last_round_over (halt : sched.Alternates) {m : Nat} (hm : sched.calls = some (m + 1))
    (hpos : 0 < m)
    (h : ((system p sched n).logged (events n event)).Reachable
      (· = (initial n memory locals, [])) (s, log))
    (hlast : s.barrier.parent.returned = m + 1) :
    ∃ y, ((Lockstep.system p (n + 1)).logged (Lockstep.events event)).Reachable
        (· = (⟨1, memory, fun w => p.enter 1 w (locals w)⟩, [])) (y, log) ∧
      y.round = m ∧ y.memory = s.memory ∧ ∀ w < n + 1, p.idle (y.locals w) = true := by
  suffices hx : ∀ x, ((system p sched n).logged (events n event)).Reachable
      (· = (initial n memory locals, [])) x → x.1.barrier.parent.returned = m + 1 →
      ∃ y, ((Lockstep.system p (n + 1)).logged (Lockstep.events event)).Reachable
          (· = (⟨1, memory, fun w => p.enter 1 w (locals w)⟩, [])) (y, x.2) ∧
        y.round = m ∧ y.memory = x.1.memory ∧ ∀ w < n + 1, p.idle (y.locals w) = true from
    hx _ h hlast
  intro x hx
  induction hx with
  | start hx =>
    subst hx
    intro hzero
    cases hzero
  | @next x x' c hx hstep ih =>
    intro hlast
    obtain ⟨hinv, hlog⟩ := refines halt hx
    obtain ⟨hs, he⟩ := TransitionSystem.logged_step hstep
    cases c with
    | work w i =>
      simp only [system, step, Option.ite_none_right_eq_some, Option.map_eq_some_iff] at hs
      obtain ⟨⟨hw, ho, _, hcalls⟩, _, _, hx'⟩ := hs
      have hreturned := hinv.barrier.returned_outside hw ho
      rw [← hx'] at hlast
      exact absurd (hcalls (m + 1) hm) (by rw [hreturned, hlast]; exact Nat.lt_irrefl _)
    | synchronize c =>
      simp only [system, step, Option.ite_none_right_eq_some, Option.map_eq_some_iff] at hs
      obtain ⟨_, b, hb, hx'⟩ := hs
      rw [← hx', synchronize_barrier] at hlast
      rw [he, ← hx', synchronize_memory, show events n event (.synchronize c) x.1 = [] from rfl,
        List.append_nil]
      rcases hinv.barrier.step_returns halt hb with ⟨hparent, _⟩ | ⟨_, _, _, hparent, _⟩ |
        ⟨_, hparent, _, _, hall⟩
      · exact ih (hparent ▸ hlast)
      · exact ih (hparent ▸ hlast)
      · rw [hparent, Nat.add_right_cancel_iff] at hlast
        obtain ⟨hround, hidle⟩ := round_done hinv (hlast ▸ hpos) hall
        exact ⟨_, hlog, hround.trans hlast, rfl, hidle⟩

/-- Every worker has left the loop of `run_tx`. -/
def State.Finished (sched : Barrier.Schedule) (n : Nat) (s : State Memory Local) : Prop :=
  ∀ w < n + 1, ¬ sched.Calls (s.barrier.returned n w)

instance {sched : Barrier.Schedule} : Decidable (s.Finished sched n) := by
  unfold State.Finished
  infer_instance

/-- The workers ahead are in no round after the last call. -/
theorem Inv.round_le (h : Inv p sched n s) {m : Nat} (hm : sched.calls = some m) (hpos : 0 < m) :
    s.round ≤ m := by
  unfold State.round
  refine Nat.max_le.mpr ⟨hpos, Nat.le_of_not_lt (fun hlt => ?_)⟩
  exact Nat.lt_irrefl m (h.calls m hlt m hm)

theorem Inv.round_finished (h : Inv p sched n s) {m : Nat} (hm : sched.calls = some m)
    (hpos : 0 < m) (hfin : s.Finished sched n) : s.round = m := by
  refine Nat.le_antisymm (h.round_le hm hpos) (Nat.le_trans ?_ (Nat.le_max_right _ _))
  have hparent : s.barrier.returned n n = s.barrier.parent.returned := if_pos rfl
  refine Nat.le_of_not_lt (fun hlt => hfin n (Nat.lt_succ_self n) (fun m' hm' => ?_))
  rw [hm, Option.mem_some_iff] at hm'
  omega

end Refinement

/-- The calls of `rendezvous_barrier_to_start` in `run_tx`: one before the loop, and in
each epoch one after each of its phases. -/
def barriers (phases : List Barrier.BarrierType) (numEpoch : Nat) : Barrier.Schedule where
  type
    | 0 => .exp
    | k + 1 => phases.getD (k % phases.length) .size
  calls := some (phases.length * numEpoch + 1)

theorem barriers_alternate {phases : List Barrier.BarrierType} {numEpoch : Nat}
    (hpos : 0 < phases.length) (hfirst : phases.getD 0 .size ≠ .exp)
    (hnext : ∀ i < phases.length,
      phases.getD ((i + 1) % phases.length) .size ≠ phases.getD i .size) :
    (barriers phases numEpoch).Alternates := by
  refine ⟨by simp [barriers], fun k => ?_⟩
  cases k with
  | zero => simpa [barriers] using hfirst
  | succ k =>
    change phases.getD ((k + 1) % phases.length) .size ≠ phases.getD (k % phases.length) .size
    rw [← Nat.mod_add_mod k phases.length 1]
    exact hnext _ (Nat.mod_lt _ hpos)

section Rounds
variable {phases numEpoch k : Nat}

/-- The epoch of a round: the first call of the barrier stands before the loop, and every
phase of an epoch ends with one. -/
def epochOf (phases round : Nat) : Nat := (round - 1) / phases + 1

/-- The number of the phase in its epoch. -/
def phaseAt (phases round : Nat) : Nat := (round - 1) % phases

theorem phaseAt_lt (hpos : 0 < phases) : phaseAt phases k < phases := Nat.mod_lt _ hpos

theorem next_phase (hk : 1 ≤ k) (h : phaseAt phases k + 1 < phases) :
    phaseAt phases (k + 1) = phaseAt phases k + 1 ∧ epochOf phases (k + 1) = epochOf phases k := by
  obtain ⟨j, rfl⟩ := Nat.exists_eq_add_of_le' hk
  simp only [phaseAt, epochOf, Nat.add_sub_cancel] at h ⊢
  have hj : j + 1 = phases * (j / phases) + (j % phases + 1) := by
    rw [← Nat.add_assoc, Nat.div_add_mod]
  have hpos : 0 < phases := by omega
  constructor
  · rw [hj, Nat.mul_add_mod, Nat.mod_eq_of_lt h]
  · rw [hj, Nat.mul_add_div hpos, Nat.div_eq_of_lt h, Nat.add_zero]

theorem next_epoch (hk : 1 ≤ k) (h : phaseAt phases k + 1 = phases) :
    phaseAt phases (k + 1) = 0 ∧ epochOf phases (k + 1) = epochOf phases k + 1 := by
  obtain ⟨j, rfl⟩ := Nat.exists_eq_add_of_le' hk
  simp only [phaseAt, epochOf, Nat.add_sub_cancel] at h ⊢
  have hj : j + 1 = phases * (j / phases + 1) := by
    rw [Nat.mul_add, Nat.mul_one]
    conv_lhs => rw [← Nat.div_add_mod j phases]
    omega
  have hpos : 0 < phases := by omega
  constructor
  · rw [hj, Nat.mul_mod_right]
  · rw [hj, Nat.mul_div_cancel_left _ hpos]

/-- The last round is the last phase of the last epoch. -/
theorem last_round (hpos : 0 < phases) (hnum : 0 < numEpoch) :
    epochOf phases (phases * numEpoch) = numEpoch ∧
      phaseAt phases (phases * numEpoch) + 1 = phases := by
  obtain ⟨j, rfl⟩ := Nat.exists_eq_add_of_le' hnum
  have hlt : phases - 1 < phases := by omega
  have hlast : phases * (j + 1) - 1 = phases * j + (phases - 1) := by
    rw [Nat.mul_add]
    omega
  rw [epochOf, phaseAt, hlast, Nat.mul_add_div hpos, Nat.mul_add_mod, Nat.div_eq_of_lt hlt,
    Nat.mod_eq_of_lt hlt]
  omega

/-- The rounds before it are phases of the epochs before. -/
theorem epochOf_le (hpos : 0 < phases) (hnum : 0 < numEpoch) (h : k ≤ phases * numEpoch) :
    epochOf phases k ≤ numEpoch := by
  have hprod : 0 < phases * numEpoch := Nat.mul_pos hpos hnum
  have hdiv : (k - 1) / phases < numEpoch := Nat.div_lt_of_lt_mul (by omega)
  exact hdiv

end Rounds

section Run

/-- All threads go through the barrier: the children announce themselves, the parent
sends the start, the children leave. -/
def passBarrier (ι : Type u) (n : Nat) : List (Choice ι) :=
  let children (accesses : Nat) : List (Choice ι) := (List.range n).flatMap
    (fun i => List.replicate accesses (.synchronize (.child i)))
  children 2 ++ List.replicate 4 (.synchronize .parent) ++ children 1

end Run
end RunTx
end Mvdcc
