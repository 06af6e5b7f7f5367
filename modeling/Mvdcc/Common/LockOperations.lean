import Mathlib.Algebra.Order.BigOperators.Group.Finset
import Mathlib.Data.Fintype.Basic
import Mvdcc.Common.RWLock
import Mvdcc.Library.Simulation
import Mvdcc.Library.Threads

namespace Mvdcc.LockOperations
open Library

/-- What an operation does after it has looked at the counter. -/
inductive Next where
  | load
  | exchange (expected desired : Int)
  | done (result : Bool)
  deriving DecidableEq

/-- An operation that acquires: after the load, and after a failed exchange, which has written
what it found into `expected`. A successful exchange returns true. -/
structure Code where
  loaded : Int → Next
  failed : Int → Next

def lockShared : Code where
  loaded expected := if 0 ≤ expected then .exchange expected (expected + 1) else .load
  failed _ := .load

def lockUpgrade : Code where
  loaded expected := if expected = 1 then .exchange expected (-1) else .load
  failed _ := .load

def lock : Code where
  loaded expected := if expected = 0 then .exchange expected (-1) else .load
  failed _ := .load

/-- The loop does not load again. -/
def tryLockShared : Code where
  loaded expected := if 0 ≤ expected then .exchange expected (expected + 1) else .done false
  failed expected := if 0 ≤ expected then .exchange expected (expected + 1) else .done false

def tryLockUpgrade : Code where
  loaded expected := if expected = 1 then .exchange expected (-1) else .done false
  failed _ := .done false

def tryLock : Code where
  loaded expected := if expected = 0 then .exchange expected (-1) else .done false
  failed _ := .done false

inductive Acquire where
  | lock | tryLock | lockShared | tryLockShared | lockUpgrade | tryLockUpgrade
  deriving DecidableEq

inductive Release where
  | unlock | unlockShared
  deriving DecidableEq

inductive Op where
  | acquire (a : Acquire)
  | release (r : Release)
  deriving DecidableEq

def Acquire.code : Acquire → Code
  | lock => LockOperations.lock
  | tryLock => LockOperations.tryLock
  | lockShared => LockOperations.lockShared
  | tryLockShared => LockOperations.tryLockShared
  | lockUpgrade => LockOperations.lockUpgrade
  | tryLockUpgrade => LockOperations.tryLockUpgrade

/-- The argument of `fetch_add`. -/
def Release.addend : Release → Int
  | unlock => 1
  | unlockShared => -1

/-- What a thread holds. -/
structure Holds where
  shared : Nat := 0
  exclusive : Bool := false
  deriving DecidableEq

def Acquire.gain : Acquire → Holds → Holds
  | lock, h | tryLock, h => { h with exclusive := true }
  | lockShared, h | tryLockShared, h => { h with shared := h.shared + 1 }
  | lockUpgrade, h | tryLockUpgrade, h => ⟨h.shared - 1, true⟩

def Release.give : Release → Holds → Holds
  | unlock, h => { h with exclusive := false }
  | unlockShared, h => { h with shared := h.shared - 1 }

def Op.effect : Op → Holds → Holds
  | .acquire a => a.gain
  | .release r => r.give

/-- The mode that an operation takes the lock in. -/
def Acquire.HeldIn : Acquire → Holds → Prop
  | lock, h | tryLock, h | lockUpgrade, h | tryLockUpgrade, h => h.exclusive = true
  | lockShared, h | tryLockShared, h => 0 < h.shared

/-- An operation that gives up a hold of this mode. -/
def Op.GivesUp : Op → Acquire → Prop
  | .release .unlock, a => a ≠ .lockShared ∧ a ≠ .tryLockShared
  | .release .unlockShared, a | .acquire .lockUpgrade, a | .acquire .tryLockUpgrade, a =>
    a = .lockShared ∨ a = .tryLockShared
  | _, _ => False

/-- A thread releases only what it holds, and upgrades only its own shared hold. -/
def Op.Allowed : Op → Holds → Prop
  | .release .unlock, h => h.exclusive = true
  | .release .unlockShared, h | .acquire .lockUpgrade, h | .acquire .tryLockUpgrade, h =>
    0 < h.shared
  | _, _ => True

instance : (op : Op) → (h : Holds) → Decidable (op.Allowed h)
  | .release .unlock, h => inferInstanceAs (Decidable (h.exclusive = true))
  | .release .unlockShared, h | .acquire .lockUpgrade, h | .acquire .tryLockUpgrade, h =>
    inferInstanceAs (Decidable (0 < h.shared))
  | .acquire .lock, _ | .acquire .tryLock, _ | .acquire .lockShared, _
  | .acquire .tryLockShared, _ => inferInstanceAs (Decidable True)

/-- Between two atomic operations of a thread. -/
inductive Pc where
  | idle (last : Option (Op × Bool))
  | load (a : Acquire)
  | exchange (a : Acquire) (expected desired : Int)
  | add (r : Release)
  deriving DecidableEq

def Pc.call : Op → Pc
  | .acquire a => .load a
  | .release r => .add r

def Pc.after (a : Acquire) : Next → Pc
  | .load => .load a
  | .exchange expected desired => .exchange a expected desired
  | .done result => .idle (some (.acquire a, result))

/-- The operation that a thread is in. -/
def Pc.op : Pc → Option Op
  | .idle _ => none
  | .load a | .exchange a _ _ => some (.acquire a)
  | .add r => some (.release r)

/-- What the operation that a thread has left has returned. -/
def Pc.last : Pc → Option (Op × Bool)
  | .idle last => last
  | _ => none

structure State (ι : Type) where
  cnt : Int
  pc : ι → Pc
  holds : ι → Holds

section System
variable {ι : Type} [DecidableEq ι]

/-- The lock is constructed, and no thread has called it yet. -/
def initial : State ι := ⟨0, fun _ => .idle none, fun _ => {}⟩

/-- A thread calls an operation, or makes its next atomic access. -/
def step : ι × Option Op → State ι → Option (State ι)
  | (i, some op), s =>
    match s.pc i with
    | .idle _ =>
      if op.Allowed (s.holds i) then some { s with pc := Function.update s.pc i (.call op) }
      else none
    | _ => none
  | (i, none), s =>
    match s.pc i with
    | .idle _ => none
    | .load a => some { s with pc := Function.update s.pc i (.after a (a.code.loaded s.cnt)) }
    | .exchange a expected desired =>
      if s.cnt = expected then some {
        cnt := desired
        pc := Function.update s.pc i (.idle (some (.acquire a, true)))
        holds := Function.update s.holds i (a.gain (s.holds i)) }
      else some { s with pc := Function.update s.pc i (.after a (a.code.failed s.cnt)) }
    | .add r => some {
        cnt := s.cnt + r.addend
        pc := Function.update s.pc i (.idle (some (.release r, true)))
        holds := Function.update s.holds i (r.give (s.holds i)) }

def system : TransitionSystem (State ι) (ι × Option Op) := ⟨step⟩

/-- What a step hands back to the caller of its thread. -/
def returns (c : ι × Option Op) (s : State ι) : List (ι × Op × Bool) :=
  (((step c s).bind (fun s' => (s'.pc c.1).last)).map (fun r => (c.1, r))).toList

/-- What a thread holds after the operations that have returned, each with its thread and
its result. -/
def held (i : ι) (log : List (ι × Op × Bool)) : Holds :=
  log.foldl (fun h x => if x.1 = i ∧ x.2.2 = true then x.2.1.effect h else h) {}

variable {s s' : State ι} {i : ι}

/-- What one step of a thread does. -/
inductive Access (i : ι) (s : State ι) : Option Op → State ι → Prop where
  | call (op : Op) (last : Option (Op × Bool)) : s.pc i = .idle last → op.Allowed (s.holds i) →
      Access i s (some op) { s with pc := Function.update s.pc i (.call op) }
  /-- A load, or an exchange that fails. -/
  | look (a : Acquire) (n : Next) : (s.pc i).op = some (.acquire a) →
      (n = a.code.loaded s.cnt ∨ n = a.code.failed s.cnt ∧
        ∃ expected desired, s.pc i = .exchange a expected desired ∧ s.cnt ≠ expected) →
      Access i s none { s with pc := Function.update s.pc i (.after a n) }
  | acquire (a : Acquire) (desired : Int) : s.pc i = .exchange a s.cnt desired →
      Access i s none ⟨desired, Function.update s.pc i (.idle (some (.acquire a, true))),
        Function.update s.holds i (a.gain (s.holds i))⟩
  | release (r : Release) : s.pc i = .add r →
      Access i s none ⟨s.cnt + r.addend, Function.update s.pc i (.idle (some (.release r, true))),
        Function.update s.holds i (r.give (s.holds i))⟩

theorem step_access {c : Option Op} (h : step (i, c) s = some s') : Access i s c s' := by
  cases c with
  | some op =>
    cases hpc : s.pc i <;> simp only [step, hpc, Option.ite_none_right_eq_some,
      Option.some.injEq, reduceCtorEq] at h
    obtain ⟨hallowed, rfl⟩ := h
    exact .call op _ hpc hallowed
  | none =>
    cases hpc : s.pc i with
    | idle last =>
      simp only [step, hpc] at h
      cases h
    | load a =>
      simp only [step, hpc, Option.some.injEq] at h
      exact h ▸ .look a _ (by rw [hpc]; rfl) (Or.inl rfl)
    | exchange a expected desired =>
      simp only [step, hpc] at h
      split at h
      · rename_i he
        subst he
        exact Option.some.inj h ▸ .acquire a desired hpc
      · rename_i hne
        exact Option.some.inj h ▸
          .look a _ (by rw [hpc]; rfl) (Or.inr ⟨rfl, expected, desired, hpc, hne⟩)
    | add r =>
      simp only [step, hpc, Option.some.injEq] at h
      exact h ▸ .release r hpc

end System

/-- The exchange that an operation attempts. -/
def Acquire.Attempts : Acquire → Int → Int → Prop
  | lock, expected, desired | tryLock, expected, desired => expected = 0 ∧ desired = -1
  | lockShared, expected, desired | tryLockShared, expected, desired =>
    0 ≤ expected ∧ desired = expected + 1
  | lockUpgrade, expected, desired | tryLockUpgrade, expected, desired =>
    expected = 1 ∧ desired = -1

/-- Every exchange comes after its guard. -/
theorem exchange_of_guard {p : Prop} [Decidable p] {e d expected desired : Int} {n : Next}
    (hn : ∀ e d, n ≠ .exchange e d)
    (h : (if p then .exchange e d else n) = Next.exchange expected desired) :
    p ∧ expected = e ∧ desired = d := by
  split at h
  · rename_i hp
    simp only [Next.exchange.injEq] at h
    exact ⟨hp, h.1.symm, h.2.symm⟩
  · exact absurd h (hn _ _)

theorem code_attempts {a : Acquire} {cnt expected desired : Int} {n : Next}
    (hn : n = a.code.loaded cnt ∨ n = a.code.failed cnt) (h : n = .exchange expected desired) :
    a.Attempts expected desired := by
  have hload : ∀ e d, Next.load ≠ .exchange e d := nofun
  have hdone : ∀ e d, Next.done false ≠ .exchange e d := nofun
  subst h
  cases a with
  | lock =>
    obtain ⟨rfl, rfl, rfl⟩ := exchange_of_guard hload (hn.resolve_right nofun).symm
    exact ⟨rfl, rfl⟩
  | tryLock =>
    obtain ⟨rfl, rfl, rfl⟩ := exchange_of_guard hdone (hn.resolve_right nofun).symm
    exact ⟨rfl, rfl⟩
  | lockShared =>
    obtain ⟨hpos, rfl, rfl⟩ := exchange_of_guard hload (hn.resolve_right nofun).symm
    exact ⟨hpos, rfl⟩
  | tryLockShared =>
    obtain ⟨hpos, rfl, rfl⟩ := exchange_of_guard hdone (or_self_iff.mp hn).symm
    exact ⟨hpos, rfl⟩
  | lockUpgrade =>
    obtain ⟨rfl, rfl, rfl⟩ := exchange_of_guard hload (hn.resolve_right nofun).symm
    exact ⟨rfl, rfl⟩
  | tryLockUpgrade =>
    obtain ⟨rfl, rfl, rfl⟩ := exchange_of_guard hdone (hn.resolve_right nofun).symm
    exact ⟨rfl, rfl⟩

section Invariant
variable {ι : Type} [Fintype ι]

/-- The counter says who holds the lock. -/
def Agrees (cnt : Int) (holds : ι → Holds) : Prop :=
  (cnt = -1 ∧ (∃! i, (holds i).exclusive = true) ∧ ∀ i, (holds i).shared = 0) ∨
    (0 ≤ cnt ∧ cnt = ∑ i, ((holds i).shared : Int) ∧ ∀ i, (holds i).exclusive = false)

/-- What a thread is about to do, it has looked for and is allowed to. -/
structure Inv (s : State ι) : Prop where
  agrees : Agrees s.cnt s.holds
  attempts : ∀ i a expected desired, s.pc i = .exchange a expected desired →
    a.Attempts expected desired
  allowed : ∀ i op, (s.pc i).op = some op → op.Allowed (s.holds i)

variable {cnt : Int} {holds : ι → Holds} {i : ι}

theorem sum_holds_le (holds : ι → Holds) (i : ι) :
    ((holds i).shared : Int) ≤ ∑ j, ((holds j).shared : Int) :=
  Finset.single_le_sum (f := fun j => ((holds j).shared : Int)) (fun _ _ => Int.natCast_nonneg _)
    (Finset.mem_univ i)

variable [DecidableEq ι]

/-- One thread's holds change, and the others' shared holds with them by the difference. -/
theorem sum_holds_update (holds : ι → Holds) (i : ι) (h : Holds) :
    (∑ j, ((Function.update holds i h j).shared : Int)) + (holds i).shared =
      (∑ j, ((holds j).shared : Int)) + h.shared :=
  sum_update (fun h : Holds => (h.shared : Int)) holds (Finset.mem_univ i) h

/-- Nobody holds the lock, so the thread that takes it is alone. -/
theorem agrees_taken {h : Holds} (hrest : ∀ j, j ≠ i → (holds j).shared = 0 ∧
    (holds j).exclusive = false) (hshared : h.shared = 0) (hexclusive : h.exclusive = true) :
    Agrees (-1) (Function.update holds i h) := by
  refine Or.inl ⟨rfl, ⟨i, ?_, ?_⟩, ?_⟩
  · dsimp only
    rw [Function.update_self]
    exact hexclusive
  · intro j hj
    by_contra hne
    rw [Function.update_of_ne hne, (hrest j hne).2] at hj
    cases hj
  · intro j
    by_cases hj : j = i
    · rw [hj, Function.update_self]
      exact hshared
    · rw [Function.update_of_ne hj]
      exact (hrest j hj).1

/-- The lock is shared, and the sum follows one thread's holds. -/
theorem agrees_shared {h : Holds} (hnone : ∀ j, (holds j).exclusive = false)
    (hexclusive : h.exclusive = false)
    (hcnt : cnt + (holds i).shared = (∑ j, ((holds j).shared : Int)) + h.shared) :
    Agrees cnt (Function.update holds i h) := by
  have hsum := sum_holds_update holds i h
  have heq : cnt = ∑ j, ((Function.update holds i h j).shared : Int) := by omega
  refine Or.inr ⟨?_, heq, ?_⟩
  · rw [heq]
    exact Finset.sum_nonneg (fun j _ => Int.natCast_nonneg _)
  · intro j
    by_cases hj : j = i
    · rw [hj, Function.update_self]
      exact hexclusive
    · rw [Function.update_of_ne hj]
      exact hnone j

/-- What the other threads hold shared. -/
theorem others_shared_le (holds : ι → Holds) {j : ι} (hne : j ≠ i) :
    ((holds j).shared : Int) ≤ (∑ k, ((holds k).shared : Int)) - (holds i).shared := by
  have hsum := sum_holds_update holds i {}
  have hle := sum_holds_le (Function.update holds i {}) j
  rw [Function.update_of_ne hne] at hle
  change _ = _ + (0 : Int) at hsum
  omega

theorem Agrees.acquire (h : Agrees cnt holds) {a : Acquire} {desired : Int}
    (ha : a.Attempts cnt desired) (hallowed : (Op.acquire a).Allowed (holds i)) :
    Agrees desired (Function.update holds i (a.gain (holds i))) := by
  have hpos : 0 ≤ cnt := by
    cases a <;> obtain ⟨hc, _⟩ := ha <;> omega
  obtain ⟨hc, _⟩ | ⟨_, hcnt, hnone⟩ := h
  · omega
  have hmine := sum_holds_le holds i
  have hothers := fun (j : ι) (hne : j ≠ i) => others_shared_le holds hne
  cases a with
  | lock | tryLock =>
    obtain ⟨rfl, rfl⟩ := ha
    refine agrees_taken (fun j hne => ⟨?_, hnone j⟩) ?_ rfl
    · have := hothers j hne
      omega
    · change (holds i).shared = 0
      omega
  | lockShared | tryLockShared =>
    obtain ⟨_, rfl⟩ := ha
    refine agrees_shared hnone (hnone i) ?_
    change cnt + 1 + (holds i).shared = _ + (((holds i).shared + 1 : Nat) : Int)
    omega
  | lockUpgrade | tryLockUpgrade =>
    obtain ⟨rfl, rfl⟩ := ha
    change 0 < (holds i).shared at hallowed
    refine agrees_taken (fun j hne => ⟨?_, hnone j⟩) ?_ rfl
    · have := hothers j hne
      omega
    · change (holds i).shared - 1 = 0
      omega

theorem Agrees.release (h : Agrees cnt holds) {r : Release}
    (hallowed : (Op.release r).Allowed (holds i)) :
    Agrees (cnt + r.addend) (Function.update holds i (r.give (holds i))) := by
  cases r with
  | unlock =>
    change (holds i).exclusive = true at hallowed
    obtain ⟨rfl, ⟨k, _, hk⟩, hzero⟩ | ⟨_, _, hnone⟩ := h
    · refine Or.inr ⟨by decide, ?_, ?_⟩
      · have hsum := sum_holds_update holds i (Release.unlock.give (holds i))
        change _ = _ + ((holds i).shared : Int) at hsum
        rw [add_right_cancel hsum, Finset.sum_eq_zero (fun j _ => by rw [hzero j]; rfl)]
        rfl
      · intro j
        by_cases hj : j = i
        · rw [hj, Function.update_self]
          rfl
        · rw [Function.update_of_ne hj]
          by_contra he
          rw [Bool.not_eq_false] at he
          exact hj ((hk j he).trans (hk i hallowed).symm)
    · rw [hnone i] at hallowed
      cases hallowed
  | unlockShared =>
    change 0 < (holds i).shared at hallowed
    obtain ⟨_, _, hzero⟩ | ⟨_, hcnt, hnone⟩ := h
    · rw [hzero i] at hallowed
      cases hallowed
    · refine agrees_shared hnone (hnone i) ?_
      change cnt + -1 + (holds i).shared = _ + (((holds i).shared - 1 : Nat) : Int)
      omega

/-- A step moves one thread. -/
theorem Inv.move {s : State ι} (h : Inv s) (pc : Pc) {held : Holds}
    (hagrees : Agrees cnt (Function.update s.holds i held))
    (hattempts : ∀ a expected desired, pc = .exchange a expected desired →
      a.Attempts expected desired)
    (hallowed : ∀ op, pc.op = some op → op.Allowed held) :
    Inv ⟨cnt, Function.update s.pc i pc, Function.update s.holds i held⟩ := by
  refine ⟨hagrees, ?_, ?_⟩
  · intro j a expected desired hpc
    by_cases hj : j = i
    · subst hj
      exact hattempts a expected desired ((Function.update_self _ _ _).symm.trans hpc)
    · exact h.attempts j a expected desired ((Function.update_of_ne hj _ _).symm.trans hpc)
  · intro j op hop
    by_cases hj : j = i
    · subst hj
      dsimp only at hop ⊢
      rw [Function.update_self] at hop ⊢
      exact hallowed op hop
    · dsimp only at hop ⊢
      rw [Function.update_of_ne hj] at hop ⊢
      exact h.allowed j op hop

theorem Inv.step {s s' : State ι} {c : Option Op} (h : Inv s)
    (hstep : LockOperations.step (i, c) s = some s') : Inv s' := by
  have hsame := Function.update_eq_self i s.holds
  have hagrees : Agrees s.cnt (Function.update s.holds i (s.holds i)) := by
    rw [hsame]
    exact h.agrees
  obtain ⟨op, last, hpc, hallowed⟩ | ⟨a, n, hop, hn⟩ | ⟨a, desired, hpc⟩ | ⟨r, hpc⟩ :=
    step_access hstep
  · have hmoved := h.move (.call op) hagrees (by cases op <;> nofun) (by
      intro op' hop'
      cases op <;> exact Option.some.inj hop' ▸ hallowed)
    rwa [hsame] at hmoved
  · have hmoved := h.move (.after a n) hagrees (by
      intro a' expected desired he
      cases n <;> cases he
      exact code_attempts (hn.imp_right And.left) rfl) (by
      intro op' hop'
      have hin : op' = .acquire a := by
        cases n <;> cases hop' <;> rfl
      exact hin ▸ h.allowed i _ hop)
    rwa [hsame] at hmoved
  · have hattempts := h.attempts i a _ _ hpc
    exact h.move _ (h.agrees.acquire hattempts (h.allowed i _ (by rw [hpc]; rfl))) nofun nofun
  · exact h.move _ (h.agrees.release (h.allowed i _ (by rw [hpc]; rfl))) nofun nofun

theorem reachable_inv {s : State ι} (h : system.Reachable (· = initial) s) : Inv s := by
  refine h.invariant ?_ (fun _ _ _ hinv hstep => hinv.step hstep)
  rintro s rfl
  exact ⟨Or.inr ⟨le_rfl, (Finset.sum_eq_zero (fun _ _ => rfl)).symm, fun _ => rfl⟩, nofun, nofun⟩

end Invariant

section Tries
variable {ι : Type} [DecidableEq ι] {s t : State ι} {i : ι} {a : Acquire}
variable {is : List (ι × Option Op)}

/-- Threads move themselves only. -/
theorem step_other {j : ι} {c : Option Op} {s' : State ι} (h : step (j, c) s = some s')
    (hne : i ≠ j) : s'.pc i = s.pc i ∧ s'.holds i = s.holds i := by
  cases step_access h with
  | call | look => exact ⟨Function.update_of_ne hne _ _, rfl⟩
  | acquire | release => exact ⟨Function.update_of_ne hne _ _, Function.update_of_ne hne _ _⟩

/-- A thread that makes no call stays where it is. -/
theorem run_idle {last : Option (Op × Bool)} (hpc : s.pc i = .idle last)
    (hcalls : ∀ op, (i, some op) ∉ is) (hrun : system.run is s = some t) :
    t.pc i = .idle last := by
  induction is generalizing s with
  | nil => exact Option.some.inj hrun ▸ hpc
  | cons c is ih =>
    obtain ⟨u, hstep, hrest⟩ := Option.bind_eq_some_iff.mp hrun
    refine ih ?_ (fun op hop => hcalls op (List.mem_cons_of_mem _ hop)) hrest
    obtain ⟨j, c⟩ := c
    have hstep : step (j, c) s = some u := hstep
    by_cases hj : i = j
    · subst hj
      cases c with
      | some op => exact absurd List.mem_cons_self (hcalls op)
      | none =>
        simp only [step, hpc] at hstep
        cases hstep
    · rw [(step_other hstep hj).1, hpc]

/-- Where a try is that has not succeeded. -/
def Unsuccessful (a : Acquire) (pc : Pc) : Prop :=
  pc.op = some (.acquire a) ∨ pc = .idle (some (.acquire a, false))

/-- The accesses of a try that returns false write nothing. -/
theorem run_unsuccessful (hpc : Unsuccessful a (s.pc i)) (hcalls : ∀ op, (i, some op) ∉ is)
    (hrun : system.run is s = some t) (hfalse : t.pc i = .idle (some (.acquire a, false))) :
    t.holds i = s.holds i ∧
      ∀ u c u', system.Takes is s u (i, c) u' → u'.cnt = u.cnt := by
  induction is generalizing s with
  | nil =>
    refine ⟨Option.some.inj hrun ▸ rfl, ?_⟩
    rintro u c u' ⟨before, after, hlist, _⟩
    cases before <;> cases hlist
  | cons c is ih =>
    obtain ⟨v, hstep, hrest⟩ := Option.bind_eq_some_iff.mp hrun
    obtain ⟨j, c⟩ := c
    have hstep : step (j, c) s = some v := hstep
    have hcalls' : ∀ op, (i, some op) ∉ is := fun op hop => hcalls op (List.mem_cons_of_mem _ hop)
    suffices hfirst : Unsuccessful a (v.pc i) ∧ v.holds i = s.holds i ∧ (i = j → v.cnt = s.cnt) by
      obtain ⟨hv, hholds, hcnt⟩ := hfirst
      obtain ⟨hheld, htakes⟩ := ih hv hcalls' hrest
      refine ⟨hheld.trans hholds, ?_⟩
      intro u d u' htake
      rcases htake.cons with ⟨rfl, he⟩ | ⟨v', hv', htake⟩
      · obtain ⟨rfl, rfl⟩ := Prod.mk.inj he
        have hu' := htake.step
        have he' : u' = v := Option.some.inj (hu'.symm.trans hstep)
        exact he' ▸ hcnt rfl
      · have he' : v' = v := Option.some.inj (hv'.symm.trans hstep)
        exact htakes u d u' (he' ▸ htake)
    by_cases hj : i = j
    · subst hj
      -- a success would still show at the end, since no further call is made
      have htrue : ∀ {b}, v.pc i = .idle (some b) → b = (.acquire a, false) := by
        intro b hb
        have hend := (run_idle hb hcalls' hrest).symm.trans hfalse
        exact Option.some.inj (Pc.idle.inj hend)
      cases step_access hstep with
      | call op => exact absurd List.mem_cons_self (hcalls op)
      | look a' n hop =>
        have ha : a' = a := by
          rcases hpc with hpc | hpc
          · exact Op.acquire.inj (Option.some.inj (hop.symm.trans hpc))
          · rw [hpc] at hop
            cases hop
        subst ha
        refine ⟨?_, rfl, fun _ => rfl⟩
        dsimp only at htrue ⊢
        rw [Function.update_self] at htrue ⊢
        cases n with
        | load | exchange => exact Or.inl rfl
        | done b => exact Or.inr (congrArg (fun r => Pc.idle (some r)) (htrue rfl))
      | acquire a' desired =>
        cases htrue (Function.update_self _ _ _)
      | release r hadd =>
        cases htrue (Function.update_self _ _ _)
    · obtain ⟨hsame, hheld⟩ := step_other hstep hj
      exact ⟨hsame ▸ hpc, hheld, fun he => absurd he hj⟩

end Tries

section Returns
variable {ι : Type} [DecidableEq ι] {s s' : State ι} {i j : ι} {c : Option Op} {a : Acquire}
variable {log after : List (ι × Op × Bool)}

theorem returns_of_step {pc : Pc} (h : step (i, c) s = some s') (hpc : s'.pc i = pc) :
    returns (i, c) s = (pc.last.map (fun r => (i, r))).toList := by
  rw [returns, h, Option.bind_some, hpc]

theorem held_append : held i (log ++ after) =
    after.foldl (fun h x => if x.1 = i ∧ x.2.2 = true then x.2.1.effect h else h) (held i log) :=
  List.foldl_append

theorem held_return (i j : ι) (log : List (ι × Op × Bool)) (op : Op) (result : Bool) :
    held i (log ++ [(j, op, result)]) =
      if j = i ∧ result = true then op.effect (held i log) else held i log :=
  held_append

/-- An acquire that ends without an exchange returns false. -/
theorem code_done {cnt : Int} {n : Next} {result : Bool}
    (hn : n = a.code.loaded cnt ∨ n = a.code.failed cnt) (h : n = .done result) :
    result = false := by
  subst h
  cases a <;> rcases hn with hn | hn <;>
    simp only [Acquire.code, lock, tryLock, lockShared, tryLockShared, lockUpgrade,
      tryLockUpgrade] at hn <;> grind

/-- A thread's holds change by what its operations return, and by nothing else. -/
theorem step_held (h : s.holds i = held i log) (hstep : step (j, c) s = some s') :
    s'.holds i = held i (log ++ returns (j, c) s) := by
  have hsilent : s.holds i = held i (log ++ []) := h.trans (congrArg (held i) (by simp))
  have hmoved : ∀ op : Op, Function.update s.holds j (op.effect (s.holds j)) i =
      held i (log ++ [(j, op, true)]) := by
    intro op
    rw [held_return]
    by_cases hj : j = i
    · subst hj
      rw [if_pos ⟨rfl, rfl⟩, ← h, Function.update_self]
    · rw [if_neg (fun hc => hj hc.1), ← h, Function.update_of_ne (Ne.symm hj)]
  cases step_access hstep with
  | call op =>
    rw [returns_of_step hstep (Function.update_self _ _ _)]
    cases op with
    | acquire | release => exact hsilent
  | look a n _ hn =>
    rw [returns_of_step hstep (Function.update_self _ _ _)]
    cases n with
    | load | exchange => exact hsilent
    | done result =>
      obtain rfl := code_done (hn.imp_right And.left) rfl
      have hfalse := held_return i j log (.acquire a) false
      rw [if_neg (fun hc => Bool.false_ne_true hc.2)] at hfalse
      exact h.trans hfalse.symm
  | acquire a =>
    rw [returns_of_step hstep (Function.update_self _ _ _)]
    exact hmoved (.acquire a)
  | release r =>
    rw [returns_of_step hstep (Function.update_self _ _ _)]
    exact hmoved (.release r)

/-- What a thread holds is what its operations have returned. -/
theorem holds_eq_held (h : (system.logged returns).Reachable (· = (initial, [])) (s, log)) (i : ι) :
    s.holds i = held i log := by
  suffices hx : ∀ x, (system.logged returns).Reachable (· = (initial, [])) x →
      x.1.holds i = held i x.2 from hx _ h
  intro x hx
  induction hx with
  | start hx =>
    subst hx
    rfl
  | @next x y c _ hstep ih =>
    obtain ⟨hs, hlog⟩ := TransitionSystem.logged_step hstep
    obtain ⟨j, c⟩ := c
    rw [hlog]
    exact step_held ih hs

/-- An operation takes the lock in its mode. -/
theorem Acquire.heldIn_gain (a : Acquire) (h : Holds) : a.HeldIn (a.gain h) := by
  cases a with
  | lock | tryLock | lockUpgrade | tryLockUpgrade => exact rfl
  | lockShared | tryLockShared => exact Nat.succ_pos _

/-- A hold stays until an operation gives it up. -/
theorem Acquire.HeldIn.effect {op : Op} {h : Holds} (hh : a.HeldIn h) (hkeep : ¬ op.GivesUp a) :
    a.HeldIn (op.effect h) := by
  cases op with
  | acquire b =>
    cases a <;> cases b <;> simp_all [HeldIn, Op.GivesUp, Op.effect, Acquire.gain]
  | release r =>
    cases a <;> cases r <;> simp_all [HeldIn, Op.GivesUp, Op.effect, Release.give]

/-- A thread whose operation has returned true holds the lock in its mode until it gives it up. -/
theorem held_since (log after : List (ι × Op × Bool))
    (hkeep : ∀ op, (i, op, true) ∈ after → ¬ op.GivesUp a) :
    a.HeldIn (held i (log ++ (i, .acquire a, true) :: after)) := by
  induction after using List.reverseRecOn with
  | nil =>
    rw [held_return, if_pos ⟨rfl, rfl⟩]
    exact a.heldIn_gain _
  | append_singleton after x ih =>
    obtain ⟨j, op, result⟩ := x
    have hprefix := ih (fun op hop => hkeep op (List.mem_append_left _ hop))
    rw [← List.cons_append, ← List.append_assoc, held_return]
    split
    · rename_i hmine
      obtain ⟨rfl, rfl⟩ := hmine
      exact hprefix.effect (hkeep op (by simp))
    · exact hprefix

end Returns

section Exclusion
variable {ι : Type} [Fintype ι] [DecidableEq ι] {s : State ι} {log : List (ι × Op × Bool)}

/-- Threads hold what their operations have returned: exactly one holds the lock exclusively
and none shared, or as many hold it shared as the counter says; an acquire that has returned
true holds in its mode until it is given up, and one that returns false has left the lock
unchanged. -/
theorem lock_excludes (h : (system.logged returns).Reachable (· = (initial, [])) (s, log)) :
    ((∀ i, s.holds i = held i log) ∧ Agrees s.cnt (fun i => held i log)) ∧
      (∀ i a before after, log = before ++ (i, .acquire a, true) :: after →
        (∀ op, (i, op, true) ∈ after → ¬ op.GivesUp a) → a.HeldIn (s.holds i)) ∧
      ∀ i a is t, s.pc i = .load a → (∀ op, (i, some op) ∉ is) → system.run is s = some t →
        t.pc i = .idle (some (.acquire a, false)) → t.holds i = s.holds i ∧
          ∀ u c u', system.Takes is s u (i, c) u' → u'.cnt = u.cnt := by
  have hholds := holds_eq_held h
  have hagrees := (reachable_inv h.unlogged).agrees
  refine ⟨⟨hholds, (funext hholds : s.holds = _) ▸ hagrees⟩, ?_, ?_⟩
  · rintro i a before after rfl hkeep
    rw [hholds]
    exact held_since before after hkeep
  · intro i a is t hpc hcalls hrun hfalse
    refine run_unsuccessful (Or.inl ?_) hcalls hrun hfalse
    rw [hpc]
    rfl

/-- One thread has the lock shared, so another one tries in vain. -/
theorem lock_excludes_two : ∃ (s t : State Bool) (log : List (Bool × Op × Bool)),
    (system.logged returns).Reachable (· = (initial, [])) (s, log) ∧
      s.cnt = 1 ∧ Agrees s.cnt (fun i => held i log) ∧ 0 < (s.holds false).shared ∧
      system.run [(true, none)] s = some t ∧
      t.pc true = .idle (some (.acquire .tryLock, false)) ∧ t.holds true = s.holds true := by
  have hrun : ((system.logged returns).run [(false, some (.acquire .lockShared)), (false, none),
      (false, none), (true, some (.acquire .tryLock))] ((initial : State Bool), [])).map
      (fun x => (x.1.cnt, x.1.pc true, x.2)) =
        some (1, .load .tryLock, [(false, .acquire .lockShared, true)]) := by
    decide
  have hstart : (system.logged returns).Reachable (· = ((initial : State Bool), []))
      (initial, []) := .start rfl
  obtain ⟨⟨s, log⟩, hs, hf⟩ := hstart.of_run_map hrun
  simp only [Prod.mk.injEq] at hf
  obtain ⟨hcnt, hpc, rfl⟩ := hf
  obtain ⟨⟨_, hagrees⟩, hmode, htry⟩ := lock_excludes hs
  have hshared := hmode false .lockShared [] [] rfl (by simp)
  have hstep : system.run [(true, none)] s = some
      { s with pc := Function.update s.pc true (.idle (some (.acquire .tryLock, false))) } := by
    simp [TransitionSystem.run, system, step, hpc, hcnt, Acquire.code, tryLock, Pc.after]
  have hdone : Function.update s.pc true (.idle (some (.acquire .tryLock, false))) true =
      .idle (some (.acquire .tryLock, false)) := Function.update_self _ _ _
  exact ⟨s, _, _, hs, hcnt, hagrees, hshared, hstep, hdone,
    (htry true .tryLock [(true, none)] _ hpc (by simp) hstep hdone).1⟩

end Exclusion

section Atomic

def Acquire.atomic : Acquire → RWLock → Option RWLock
  | lock, l => l.lock
  | tryLock, l => l.tryLock
  | lockShared, l | tryLockShared, l => l.tryLockShared
  | lockUpgrade, l | tryLockUpgrade, l => l.tryLockUpgrade

def Release.atomic : Release → RWLock → RWLock
  | unlock, l => l.unlock
  | unlockShared, l => l.unlockShared

/-- The acquires that do not wait. -/
def Acquire.tries : Acquire → Bool
  | tryLock | tryLockShared | tryLockUpgrade => true
  | lock | lockShared | lockUpgrade => false

/-- A lock whose operations are one step each. An acquire that would have to wait is refused,
and a try that would have to returns false. -/
def atomicLock (ι : Type) : TransitionSystem RWLock (ι × Op × Bool) where
  step x l :=
    match x.2 with
    | (.acquire a, true) => a.atomic l
    | (.acquire a, false) => if a.tries = true ∧ a.atomic l = none then some l else none
    | (.release r, true) => some (r.atomic l)
    | (.release _, false) => none

variable {ι : Type} {s s' : State ι} {a : Acquire} {i : ι}

theorem Acquire.Attempts.atomic {cnt desired : Int} (h : a.Attempts cnt desired) :
    a.atomic ⟨cnt⟩ = some ⟨desired⟩ := by
  cases a with
  | lock | tryLock | lockUpgrade | tryLockUpgrade =>
    obtain ⟨rfl, rfl⟩ := h
    rfl
  | lockShared | tryLockShared =>
    obtain ⟨hpos, rfl⟩ := h
    exact if_pos hpos

/-- An acquire returns false only as a try that finds the lock taken. -/
theorem refused_of_done {cnt : Int} (hn : .done false = a.code.loaded cnt ∨
    .done false = a.code.failed cnt ∧
      ∃ expected desired, a.Attempts expected desired ∧ cnt ≠ expected) :
    a.tries = true ∧ a.atomic ⟨cnt⟩ = none := by
  have hguard : ∀ {p : Prop} [Decidable p] {n m : Next}, n ≠ .done false →
      .done false = (if p then n else m) → ¬ p := by
    intro p _ n m hne h hp
    rw [if_pos hp] at h
    exact hne h.symm
  cases a with
  | lock | lockShared | lockUpgrade =>
    rcases hn with hn | ⟨hn, _⟩
    · simp only [Acquire.code, lock, lockShared, lockUpgrade] at hn
      split at hn <;> cases hn
    · cases hn
  | tryLock =>
    refine ⟨rfl, if_neg ?_⟩
    rcases hn with hn | ⟨_, expected, _, ⟨rfl, _⟩, hne⟩
    · exact hguard (by simp) hn
    · exact hne
  | tryLockShared =>
    refine ⟨rfl, if_neg ?_⟩
    rcases hn with hn | ⟨hn, _⟩
    · exact hguard (by simp) hn
    · exact hguard (by simp) hn
  | tryLockUpgrade =>
    refine ⟨rfl, if_neg ?_⟩
    rcases hn with hn | ⟨_, expected, _, ⟨rfl, _⟩, hne⟩
    · exact hguard (by simp) hn
    · exact hne

theorem Release.atomic_add (r : Release) (cnt : Int) : r.atomic ⟨cnt⟩ = ⟨cnt + r.addend⟩ := by
  cases r <;> rfl

variable [Fintype ι] [DecidableEq ι] {c : Option Op}

/-- A step that returns does to the counter what the atomic operation does to the lock, and
every other step leaves the counter alone. -/
theorem Inv.step_atomic (h : Inv s) (hstep : LockOperations.step (i, c) s = some s') :
    (atomicLock ι).run (returns (i, c) s) ⟨s.cnt⟩ = some ⟨s'.cnt⟩ := by
  cases step_access hstep with
  | call op =>
    rw [returns_of_step hstep (Function.update_self _ _ _)]
    cases op with
    | acquire | release => rfl
  | look a n _ hn =>
    rw [returns_of_step hstep (Function.update_self _ _ _)]
    cases n with
    | load | exchange => rfl
    | done result =>
      obtain rfl := code_done (hn.imp_right And.left) rfl
      have hrefused : a.tries = true ∧ a.atomic ⟨s.cnt⟩ = none := by
        apply refused_of_done
        rcases hn with hn | ⟨hn, expected, desired, hpc, hne⟩
        · exact Or.inl hn
        · exact Or.inr ⟨hn, expected, desired, h.attempts i a _ _ hpc, hne⟩
      change Option.bind (if _ then some _ else none) some = _
      rw [if_pos hrefused]
      rfl
  | acquire a desired hpc =>
    rw [returns_of_step hstep (Function.update_self _ _ _)]
    change Option.bind (a.atomic ⟨s.cnt⟩) some = _
    rw [(h.attempts i a _ _ hpc).atomic]
    rfl
  | release r =>
    rw [returns_of_step hstep (Function.update_self _ _ _)]
    exact congrArg some (r.atomic_add s.cnt)

/-- In every run the operations return what they would return from a lock that does each of
them in one step, in the order in which they return. -/
theorem returns_as_atomic {log : List (ι × Op × Bool)}
    (h : (system.logged returns).Reachable (· = (initial, [])) (s, log)) :
    (atomicLock ι).run log {} = some ⟨s.cnt⟩ := by
  suffices hx : ∀ x, (system.logged returns).Reachable (· = (initial, [])) x →
      (atomicLock ι).run x.2 {} = some ⟨x.1.cnt⟩ from hx _ h
  intro x hx
  induction hx with
  | start hx =>
    subst hx
    rfl
  | @next x y c hx hstep ih =>
    obtain ⟨hs, hlog⟩ := TransitionSystem.logged_step hstep
    obtain ⟨j, c⟩ := c
    rw [hlog, TransitionSystem.run_append, ih, Option.bind_some]
    exact (reachable_inv hx.unlogged).step_atomic hs

/-- Two threads in turn, and a try between them. -/
theorem returns_as_atomic_two : ∃ (s : State Bool) (log : List (Bool × Op × Bool)),
    (system.logged returns).Reachable (· = (initial, [])) (s, log) ∧
      log = [(false, .acquire .lock, true), (true, .acquire .tryLock, false),
        (false, .release .unlock, true), (true, .acquire .lockShared, true)] ∧
      (atomicLock Bool).run log {} = some ⟨s.cnt⟩ := by
  have hrun : ((system.logged returns).run [(false, some (.acquire .lock)), (false, none),
      (true, some (.acquire .tryLock)), (true, none), (false, none), (true, none),
      (true, some (.acquire .lockShared)), (true, none), (false, some (.release .unlock)),
      (false, none), (true, none), (true, none)] ((initial : State Bool), [])).map Prod.snd =
        some [(false, .acquire .lock, true), (true, .acquire .tryLock, false),
          (false, .release .unlock, true), (true, .acquire .lockShared, true)] := by
    decide
  have hstart : (system.logged returns).Reachable (· = ((initial : State Bool), []))
      (initial, []) := .start rfl
  obtain ⟨⟨s, log⟩, hs, hlog⟩ := hstart.of_run_map hrun
  exact ⟨s, log, hs, hlog, returns_as_atomic hs⟩

end Atomic
end Mvdcc.LockOperations
