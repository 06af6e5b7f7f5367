import Mvdcc.Library.Threads
import Mvdcc.Library.Transition

namespace Mvdcc.Barrier
open Library

inductive BarrierType where
  | beforeExp | exp | initPhase | execPhase | newEpoc | size
  deriving DecidableEq

/-- A counter that went below zero would show as a negative number. -/
structure RendezvousBarrierVariable where
  start : BarrierType := .beforeExp
  ready : Int
  numChildren : Nat

namespace RendezvousBarrierVariable

/-- The loop condition of `wait_all_children_ready`. -/
def childrenMissing (v : RendezvousBarrierVariable) : Bool := decide (0 < v.ready)

def sendStartToAllChildren (v : RendezvousBarrierVariable) (type : BarrierType) :
    RendezvousBarrierVariable :=
  { v with start := type }

/-- `initialize` of the source. -/
def initializeReady (v : RendezvousBarrierVariable) : RendezvousBarrierVariable :=
  { v with ready := v.numChildren }

def sendReadyToParent (v : RendezvousBarrierVariable) : RendezvousBarrierVariable :=
  { v with ready := v.ready - 1 }

/-- The loop condition of `wait_start`. -/
def notStarted (v : RendezvousBarrierVariable) (type : BarrierType) : Bool :=
  decide (v.start ≠ type)

end RendezvousBarrierVariable

/-- Where the parent is in `wait_all_children_and_send_start`. -/
inductive ParentPc where
  | outside | waiting | initializing | sending
  deriving DecidableEq

/-- Where a child is in `send_ready_and_wait_start`. -/
inductive ChildPc where
  | outside | sending | waiting
  deriving DecidableEq

/-- How many calls a thread has returned from, and its place in the next one. -/
structure Position (Pc : Type) where
  returned : Nat
  pc : Pc
  deriving DecidableEq

structure State where
  variable_ : RendezvousBarrierVariable
  parent : Position ParentPc
  child : Nat → Position ChildPc

inductive Choice where
  | parent
  | child (i : Nat)

/-- The types of the calls, the same for every thread, and how many calls there are;
`none` is a run that never ends. -/
structure Schedule where
  type : Nat → BarrierType
  calls : Option Nat

def Schedule.Calls (sched : Schedule) (k : Nat) : Prop := ∀ m ∈ sched.calls, k < m

instance (sched : Schedule) (k : Nat) : Decidable (sched.Calls k) := by
  unfold Schedule.Calls
  infer_instance

/-- The first type is not the one the barrier starts with, and no two consecutive
types agree. -/
structure Schedule.Alternates (sched : Schedule) : Prop where
  first : sched.type 0 ≠ .beforeExp
  next : ∀ k, sched.type (k + 1) ≠ sched.type k

section System
variable (sched : Schedule)

/-- One load, store or decrement of the parent; a loop that goes round leaves the
state as it is. -/
def parentStep (s : State) : Option State :=
  let p := s.parent
  match p.pc with
  | .outside =>
    if sched.Calls p.returned then some { s with parent := { p with pc := .waiting } } else none
  | .waiting =>
    some (if s.variable_.childrenMissing then s
      else { s with parent := { p with pc := .initializing } })
  | .initializing => some { s with
      variable_ := s.variable_.initializeReady
      parent := { p with pc := .sending } }
  | .sending => some { s with
      variable_ := s.variable_.sendStartToAllChildren (sched.type p.returned)
      parent := ⟨p.returned + 1, .outside⟩ }

def State.moveChild (s : State) (i : Nat) (p : Position ChildPc) : State :=
  { s with child := Function.update s.child i p }

def childStep (i : Nat) (s : State) : Option State :=
  let p := s.child i
  match p.pc with
  | .outside =>
    if sched.Calls p.returned then some (s.moveChild i { p with pc := .sending }) else none
  | .sending => some { s.moveChild i { p with pc := .waiting } with
      variable_ := s.variable_.sendReadyToParent }
  | .waiting =>
    some (if s.variable_.notStarted (sched.type p.returned) then s
      else s.moveChild i ⟨p.returned + 1, .outside⟩)

def step : Choice → State → Option State
  | .parent, s => parentStep sched s
  | .child i, s => if i < s.variable_.numChildren then childStep sched i s else none

def system : TransitionSystem State Choice :=
  ⟨step sched⟩

/-- `n` children and one parent, none of them at the barrier yet. -/
def initial (n : Nat) : State where
  variable_ := { ready := n, numChildren := n }
  parent := ⟨0, .outside⟩
  child := fun _ => ⟨0, .outside⟩

def Reachable (n : Nat) (s : State) : Prop :=
  (system sched).Reachable (· = initial n) s

end System

/-- The calls a thread has entered. -/
def Position.entered [DecidableEq Pc] (outside : Pc) (p : Position Pc) : Nat :=
  p.returned + if p.pc = outside then 0 else 1

/-- The calls of a child that it has announced to the parent. -/
def Position.announced (p : Position ChildPc) : Nat :=
  p.returned + if p.pc = .waiting then 1 else 0

/-- The value of `start_` after `k` calls of the parent. -/
def Schedule.shown (sched : Schedule) : Nat → BarrierType
  | 0 => .beforeExp
  | k + 1 => sched.type k

/-- A child has announced its next call to the parent. -/
def Position.announces (round : Nat) (p : Position ChildPc) : Bool :=
  decide (p.announced = round + 1)

/-- What holds of a child while the parent has finished `round` calls: it has
returned from no later call, and has announced no call but the next. -/
structure ChildOk (sched : Schedule) (round : Nat) (p : Position ChildPc) : Prop where
  returned : p.returned ≤ round
  announced : round ≤ p.announced ∧ p.announced ≤ round + 1
  calls : p.pc ≠ .outside → sched.Calls p.returned

/-- What holds in every reachable state. -/
structure Inv (sched : Schedule) (n : Nat) (s : State) : Prop where
  numChildren : s.variable_.numChildren = n
  start : s.variable_.start = sched.shown s.parent.returned
  children : ∀ i < n, ChildOk sched s.parent.returned (s.child i)
  calls : s.parent.pc ≠ .outside → sched.Calls s.parent.returned
  collected : s.parent.pc = .initializing ∨ s.parent.pc = .sending →
    ∀ i < n, (s.child i).announces s.parent.returned = true
  ready : s.variable_.ready = if s.parent.pc = .sending then (n : Int)
    else n - tally (Position.announces s.parent.returned) (List.range n) s.child

section Safety
variable {sched : Schedule} {n : Nat} {s s' : State} {i : Nat} {p : Position ChildPc}

theorem shown_ne (h : sched.Alternates) (k : Nat) : sched.shown k ≠ sched.type k := by
  cases k with
  | zero => exact fun he => h.first he.symm
  | succ k => exact fun he => h.next k he.symm

theorem Schedule.Calls.mono {k k' : Nat} (h : sched.Calls k) (hle : k' ≤ k) : sched.Calls k' :=
  fun m hm => Nat.lt_of_le_of_lt hle (h m hm)

theorem inv_initial (sched : Schedule) (n : Nat) : Inv sched n (initial n) := by
  refine ⟨rfl, rfl, ?_, ?_, ?_, ?_⟩
  · intro i _
    exact ⟨Nat.le_refl _, by simp [initial, Position.announced], fun h => absurd rfl h⟩
  · exact fun h => absurd rfl h
  · intro h
    rcases h with h | h <;> cases h
  · have ht : tally (Position.announces 0) (List.range n) (initial n).child = 0 := by
      rw [tally_eq_zero]
      intro i _
      rfl
    change (n : Int) = n - tally (Position.announces 0) (List.range n) (initial n).child
    rw [ht]
    omega

theorem Inv.children_move (h : Inv sched n s) (hp : ChildOk sched s.parent.returned p) :
    ∀ j < n, ChildOk sched s.parent.returned (Function.update s.child i p j) := by
  intro j hj
  by_cases hji : j = i
  · subst hji
    rwa [Function.update_self]
  · rw [Function.update_of_ne hji]
    exact h.children j hj

/-- A child that moves without announcing anything leaves the counter alone. -/
theorem Inv.moveChild (h : Inv sched n s) (hi : i < n) (hp : ChildOk sched s.parent.returned p)
    (ha : p.announces s.parent.returned = (s.child i).announces s.parent.returned) :
    Inv sched n (s.moveChild i p) := by
  have ht := tally_update List.nodup_range (List.mem_range.mpr hi)
    (Position.announces s.parent.returned) s.child p
  rw [ha] at ht
  refine ⟨h.numChildren, h.start, h.children_move hp, h.calls, ?_, ?_⟩
  · intro hpc j hj
    change (Function.update s.child i p j).announces s.parent.returned = true
    by_cases hji : j = i
    · subst hji
      rw [Function.update_self, ha]
      exact h.collected hpc j hj
    · rw [Function.update_of_ne hji]
      exact h.collected hpc j hj
  · have hcount := Nat.add_right_cancel ht
    change s.variable_.ready = if s.parent.pc = .sending then (n : Int) else
      n - tally (Position.announces s.parent.returned) (List.range n) (Function.update s.child i p)
    rw [hcount]
    exact h.ready

theorem child_step (halt : sched.Alternates) (h : Inv sched n s) (hi : i < n)
    (hstep : childStep sched i s = some s') : Inv sched n s' := by
  have hok := h.children i hi
  obtain ⟨hreturned, ⟨hlow, hhigh⟩, hcalls⟩ := hok
  unfold childStep at hstep
  cases hpc : (s.child i).pc with
  | outside =>
    simp only [hpc, Option.ite_none_right_eq_some, Option.some.injEq] at hstep
    obtain ⟨hmore, rfl⟩ := hstep
    simp only [Position.announced, hpc, reduceCtorEq, if_false, Nat.add_zero] at hlow hhigh
    refine h.moveChild hi ⟨hreturned, ?_, fun _ => hmore⟩ ?_
    · simpa [Position.announced] using ⟨hlow, hhigh⟩
    · simp [Position.announces, Position.announced, hpc]
  | sending =>
    simp only [hpc, Option.some.injEq] at hstep
    subst hstep
    simp only [Position.announced, hpc, reduceCtorEq, if_false, Nat.add_zero] at hlow hhigh
    have hround : (s.child i).returned = s.parent.returned := Nat.le_antisymm hreturned hlow
    have hold : (s.child i).announces s.parent.returned = false := by
      simp [Position.announces, Position.announced, hpc, hround]
    -- the parent has not collected this child yet
    have hparent : s.parent.pc ≠ .initializing ∧ s.parent.pc ≠ .sending := by
      constructor
      · intro hp
        have := h.collected (Or.inl hp) i hi
        rw [hold] at this
        cases this
      · intro hp
        have := h.collected (Or.inr hp) i hi
        rw [hold] at this
        cases this
    have hnew : Position.announces s.parent.returned { s.child i with pc := .waiting } = true := by
      simp [Position.announces, Position.announced, hround]
    have ht := tally_update List.nodup_range (List.mem_range.mpr hi)
      (Position.announces s.parent.returned) s.child { s.child i with pc := .waiting }
    rw [hold, hnew, Bool.toNat_false, Bool.toNat_true, Nat.add_zero] at ht
    refine ⟨h.numChildren, h.start, h.children_move ⟨hreturned, ?_, ?_⟩, h.calls, ?_, ?_⟩
    · simp [Position.announced, hround]
    · intro _
      exact hcalls (by rw [hpc]; decide)
    · intro hp
      rcases hp with hp | hp
      · exact absurd hp hparent.1
      · exact absurd hp hparent.2
    · have hready := h.ready
      rw [if_neg hparent.2] at hready
      change s.variable_.ready - 1 = if s.parent.pc = .sending then (n : Int) else
        n - tally (Position.announces s.parent.returned) (List.range n)
          (Function.update s.child i { s.child i with pc := .waiting })
      rw [if_neg hparent.2, hready, ht]
      omega
  | waiting =>
    simp only [hpc, Option.some.injEq] at hstep
    subst hstep
    split
    · exact h
    · rename_i hstarted
      simp only [RendezvousBarrierVariable.notStarted, ne_eq, decide_not, Bool.not_eq_true',
        decide_eq_false_iff_not, Decidable.not_not] at hstarted
      simp only [Position.announced, hpc, if_true] at hlow hhigh
      have hround : (s.child i).returned + 1 = s.parent.returned := by
        rcases Nat.lt_or_eq_of_le hreturned with hlt | heq
        · omega
        · rw [h.start, heq] at hstarted
          exact absurd hstarted (shown_ne halt _)
      refine h.moveChild hi ⟨Nat.le_of_eq hround, ?_, fun hp => absurd rfl hp⟩ ?_
      · simp [Position.announced, hround]
      · simp [Position.announces, Position.announced, hpc, hround]

theorem parent_step (h : Inv sched n s) (hstep : parentStep sched s = some s') :
    Inv sched n s' := by
  unfold parentStep at hstep
  cases hpc : s.parent.pc with
  | outside =>
    simp only [hpc, Option.ite_none_right_eq_some, Option.some.injEq] at hstep
    obtain ⟨hmore, rfl⟩ := hstep
    have hready := h.ready
    rw [hpc, if_neg (by decide)] at hready
    refine ⟨h.numChildren, h.start, h.children, fun _ => hmore, ?_, ?_⟩
    · intro hp
      rcases hp with hp | hp <;> cases hp
    · simpa using hready
  | waiting =>
    simp only [hpc, Option.some.injEq] at hstep
    subst hstep
    split
    · exact h
    · rename_i hall
      have hready := h.ready
      rw [hpc, if_neg (by decide)] at hready
      simp only [RendezvousBarrierVariable.childrenMissing, decide_eq_true_eq] at hall
      have hle : tally (Position.announces s.parent.returned) (List.range n) s.child ≤ n := by
        have := List.countP_le_length (l := List.range n)
          (p := fun i => (s.child i).announces s.parent.returned)
        rwa [List.length_range] at this
      have hfull : tally (Position.announces s.parent.returned) (List.range n) s.child =
          (List.range n).length := by
        rw [List.length_range]
        omega
      refine ⟨h.numChildren, h.start, h.children, ?_, ?_, ?_⟩
      · exact fun _ => h.calls (by rw [hpc]; decide)
      · intro _ i hi
        exact tally_eq_length.mp hfull i (List.mem_range.mpr hi)
      · simpa using hready
  | initializing =>
    simp only [hpc, Option.some.injEq] at hstep
    subst hstep
    refine ⟨h.numChildren, h.start, h.children, ?_, ?_, ?_⟩
    · exact fun _ => h.calls (by rw [hpc]; decide)
    · exact fun _ => h.collected (Or.inl hpc)
    · simp [RendezvousBarrierVariable.initializeReady, h.numChildren]
  | sending =>
    simp only [hpc, Option.some.injEq] at hstep
    subst hstep
    have hall := h.collected (Or.inr hpc)
    simp only [Position.announces, decide_eq_true_eq] at hall
    refine ⟨h.numChildren, rfl, ?_, fun hp => absurd rfl hp, ?_, ?_⟩
    · intro i hi
      obtain ⟨hreturned, _, hcalls⟩ := h.children i hi
      have := hall i hi
      exact ⟨Nat.le_succ_of_le hreturned, by simp only; omega, hcalls⟩
    · intro hp
      rcases hp with hp | hp <;> cases hp
    · have hready := h.ready
      rw [if_pos hpc] at hready
      have ht : tally (Position.announces (s.parent.returned + 1)) (List.range n) s.child = 0 := by
        rw [tally_eq_zero]
        intro i hi
        have := hall i (List.mem_range.mp hi)
        simp only [Position.announces, decide_eq_false_iff_not]
        omega
      simp [RendezvousBarrierVariable.sendStartToAllChildren, hready, ht]

theorem inv_step (halt : sched.Alternates) (h : Inv sched n s) {c : Choice}
    (hstep : step sched c s = some s') : Inv sched n s' := by
  cases c with
  | parent => exact parent_step h hstep
  | child i =>
    simp only [step, Option.ite_none_right_eq_some, h.numChildren] at hstep
    exact child_step halt h hstep.1 hstep.2

theorem Reachable.inv (halt : sched.Alternates) (h : Reachable sched n s) : Inv sched n s :=
  TransitionSystem.Reachable.invariant h (fun _ he => he ▸ inv_initial sched n)
    (fun _ _ _ hi hstep => inv_step halt hi hstep)

/-- A child whose next announcement is still missing is not stuck. -/
theorem Inv.child_moves (h : Inv sched n s) (hi : i < n) (hcalls : sched.Calls (s.child i).returned)
    (hmissing : (s.child i).announces s.parent.returned = false) :
    ∃ s', step sched (.child i) s = some s' ∧ s' ≠ s := by
  obtain ⟨hreturned, ⟨hlow, hhigh⟩, _⟩ := h.children i hi
  have hmoved : ∀ (p : Position ChildPc) (v : RendezvousBarrierVariable),
      p.pc ≠ (s.child i).pc → { s.moveChild i p with variable_ := v } ≠ s := by
    intro p v hp he
    have hc := congrFun (congrArg State.child he) i
    simp only [State.moveChild, Function.update_self] at hc
    exact hp (congrArg Position.pc hc)
  have hn : i < s.variable_.numChildren := h.numChildren ▸ hi
  cases hpc : (s.child i).pc with
  | outside =>
    refine ⟨s.moveChild i { s.child i with pc := .sending }, ?_, ?_⟩
    · simp [step, childStep, hn, hpc, hcalls]
    · exact hmoved { s.child i with pc := .sending } s.variable_ (by simp [hpc])
  | sending =>
    refine ⟨{ s.moveChild i { s.child i with pc := .waiting } with
      variable_ := s.variable_.sendReadyToParent }, ?_, ?_⟩
    · simp [step, childStep, hn, hpc]
    · exact hmoved _ _ (by simp [hpc])
  | waiting =>
    simp only [Position.announces, Position.announced, hpc, if_true,
      decide_eq_false_iff_not] at hmissing hlow
    have hround : (s.child i).returned + 1 = s.parent.returned := by omega
    have hstart : s.variable_.start = sched.type (s.child i).returned := by
      rw [h.start, ← hround]
      rfl
    refine ⟨s.moveChild i ⟨(s.child i).returned + 1, .outside⟩, ?_, ?_⟩
    · simp [step, childStep, hn, hpc, RendezvousBarrierVariable.notStarted, hstart]
    · exact hmoved ⟨(s.child i).returned + 1, .outside⟩ s.variable_ (by simp [hpc])

/-- Some thread has calls left. -/
def Unfinished (sched : Schedule) (n : Nat) (s : State) : Prop :=
  sched.Calls s.parent.returned ∨ ∃ i < n, sched.Calls (s.child i).returned

theorem Inv.progress (h : Inv sched n s) (hu : Unfinished sched n s) :
    ∃ c s', step sched c s = some s' ∧ s' ≠ s := by
  have hmoved : ∀ (p : Position ParentPc) (v : RendezvousBarrierVariable),
      p.pc ≠ s.parent.pc → { s with parent := p, variable_ := v } ≠ s := by
    intro p v hp he
    exact hp (congrArg (fun s : State => s.parent.pc) he)
  cases hpc : s.parent.pc with
  | outside =>
    by_cases hmore : sched.Calls s.parent.returned
    · refine ⟨.parent, { s with parent := { s.parent with pc := .waiting } }, ?_, ?_⟩
      · simp [step, parentStep, hpc, hmore]
      · exact hmoved { s.parent with pc := .waiting } s.variable_ (by simp [hpc])
    · obtain ⟨i, hi, hcalls⟩ := hu.resolve_left hmore
      -- a child with calls left is a round behind the parent, which has none
      have hmissing : (s.child i).announces s.parent.returned = false := by
        obtain ⟨hreturned, _, _⟩ := h.children i hi
        rw [Position.announces, decide_eq_false_iff_not]
        intro ha
        have hle : s.parent.returned ≤ (s.child i).returned := by
          unfold Position.announced at ha
          split at ha <;> omega
        exact hmore (hcalls.mono hle)
      obtain ⟨s', hs'⟩ := h.child_moves hi hcalls hmissing
      exact ⟨.child i, s', hs'⟩
  | waiting =>
    have hready := h.ready
    rw [hpc, if_neg (by decide)] at hready
    by_cases hall : ∀ i ∈ List.range n, (s.child i).announces s.parent.returned = true
    · have hfull := tally_eq_length.mpr hall
      rw [List.length_range] at hfull
      refine ⟨.parent, { s with parent := { s.parent with pc := .initializing } }, ?_, ?_⟩
      · simp [step, parentStep, hpc, RendezvousBarrierVariable.childrenMissing, hready, hfull]
      · exact hmoved { s.parent with pc := .initializing } s.variable_ (by simp [hpc])
    · simp only [not_forall, Bool.not_eq_true] at hall
      obtain ⟨i, hm, hmissing⟩ := hall
      have hi := List.mem_range.mp hm
      have hcalls := (h.calls (by simp [hpc])).mono (h.children i hi).returned
      obtain ⟨s', hs'⟩ := h.child_moves hi hcalls hmissing
      exact ⟨.child i, s', hs'⟩
  | initializing =>
    refine ⟨.parent, { s with
      variable_ := s.variable_.initializeReady
      parent := { s.parent with pc := .sending } }, ?_, ?_⟩
    · simp [step, parentStep, hpc]
    · exact hmoved _ _ (by simp [hpc])
  | sending =>
    refine ⟨.parent, { s with
      variable_ := s.variable_.sendStartToAllChildren (sched.type s.parent.returned)
      parent := ⟨s.parent.returned + 1, .outside⟩ }, ?_, ?_⟩
    · simp [step, parentStep, hpc]
    · exact hmoved _ _ (by simp [hpc])

/-- Every one of the `n + 1` threads has entered its call number `k`. -/
def AllEntered (n : Nat) (s : State) (k : Nat) : Prop :=
  k ≤ s.parent.entered .outside ∧ ∀ i < n, k ≤ (s.child i).entered .outside

theorem Inv.allEntered (h : Inv sched n s) : AllEntered n s s.parent.returned := by
  refine ⟨Nat.le_add_right _ _, ?_⟩
  intro i hi
  obtain ⟨_, ⟨hlow, _⟩, _⟩ := h.children i hi
  unfold Position.announced at hlow
  unfold Position.entered
  cases hpc : (s.child i).pc <;> simp [hpc] at hlow ⊢ <;> omega

/-- No thread leaves a call before all have entered it, the counter stays within its
bounds, and as long as a thread has calls left some thread can do more than spin. -/
theorem separates_phases (halt : sched.Alternates) (h : Reachable sched n s) :
    (AllEntered n s s.parent.returned ∧ ∀ i < n, AllEntered n s (s.child i).returned) ∧
    (0 ≤ s.variable_.ready ∧ s.variable_.ready ≤ n) ∧
    (Unfinished sched n s → ∃ c s', step sched c s = some s' ∧ s' ≠ s) := by
  have hi := h.inv halt
  have hentered := hi.allEntered
  refine ⟨⟨hentered, ?_⟩, ?_, hi.progress⟩
  · intro i hn
    have hle := (hi.children i hn).returned
    exact ⟨Nat.le_trans hle hentered.1, fun j hj => Nat.le_trans hle (hentered.2 j hj)⟩
  · have hle : tally (Position.announces s.parent.returned) (List.range n) s.child ≤ n := by
      have := List.countP_le_length (l := List.range n)
        (p := fun i => (s.child i).announces s.parent.returned)
      rwa [List.length_range] at this
    have hready := hi.ready
    split at hready <;> omega

end Safety

section Run

/-- The barriers of two epochs, as `run_tx` issues them. -/
def twoEpochs : Schedule where
  type := fun k => match k with
    | 0 => .exp
    | k + 1 => if k % 3 = 0 then .initPhase else if k % 3 = 1 then .execPhase else .newEpoc
  calls := some 7

theorem twoEpochs_alternates : twoEpochs.Alternates := by
  refine ⟨by decide, ?_⟩
  intro k
  cases k with
  | zero => decide
  | succ k =>
    have hlt := Nat.mod_lt k (show 3 > 0 by decide)
    rcases (by omega : k % 3 = 0 ∨ k % 3 = 1 ∨ k % 3 = 2) with hk | hk | hk
    · have hk' : (k + 1) % 3 = 1 := by omega
      simp [twoEpochs, hk, hk']
    · have hk' : (k + 1) % 3 = 2 := by omega
      simp [twoEpochs, hk, hk']
    · have hk' : (k + 1) % 3 = 0 := by omega
      simp [twoEpochs, hk, hk']

/-- Child 0 is in its second call before child 1 has left the first. -/
def overtaking : List Choice :=
  [.child 0, .child 0, .child 1, .child 1, .parent, .parent, .parent, .parent, .child 0, .child 0,
    .child 0]

theorem overtaking_separated : ∃ s, Reachable twoEpochs 2 s ∧
    (s.parent, s.child 0, s.child 1) = (⟨1, .outside⟩, ⟨1, .waiting⟩, ⟨0, .waiting⟩) ∧
      (AllEntered 2 s s.parent.returned ∧ ∀ i < 2, AllEntered 2 s (s.child i).returned) ∧
      (0 ≤ s.variable_.ready ∧ s.variable_.ready ≤ 2) ∧
      (Unfinished twoEpochs 2 s → ∃ c s', step twoEpochs c s = some s' ∧ s' ≠ s) := by
  have hstart : Reachable twoEpochs 2 (initial 2) := .start rfl
  have hrun : ((system twoEpochs).run overtaking (initial 2)).map
      (fun s => (s.parent, s.child 0, s.child 1)) =
        some (⟨1, .outside⟩, ⟨1, .waiting⟩, ⟨0, .waiting⟩) := by
    decide +kernel
  obtain ⟨s, hs, hshow⟩ := hstart.of_run_map hrun
  exact ⟨s, hs, hshow, separates_phases twoEpochs_alternates hs⟩

end Run

end Mvdcc.Barrier
