import Mvdcc.Common.RunTx

namespace Mvdcc
open Library

namespace Barrier
variable {sched : Schedule} {n m : Nat} {b b' : State} {c : Choice}

def ParentPc.rank : ParentPc → Nat
  | .outside => 0
  | .waiting => 1
  | .initializing => 2
  | .sending => 3

def ChildPc.rank : ChildPc → Nat
  | .outside => 0
  | .sending => 1
  | .waiting => 2

/-- The accesses a thread still makes before it has returned from `m` calls, its spinning
apart. -/
def parentLeft (m : Nat) (p : Position ParentPc) : Nat := 4 * m - (4 * p.returned + p.pc.rank)
def childLeft (m : Nat) (p : Position ChildPc) : Nat := 3 * m - (3 * p.returned + p.pc.rank)

def State.left (n m : Nat) (b : State) : Nat :=
  parentLeft m b.parent + ∑ i ∈ Finset.range n, childLeft m (b.child i)

theorem childLeft_next {p p' : Position ChildPc} (hlt : p.returned < m)
    (hnext : 3 * p'.returned + p'.pc.rank = 3 * p.returned + p.pc.rank + 1) :
    childLeft m p' < childLeft m p := by
  have hrank : p.pc.rank ≤ 2 := by
    cases p.pc <;> simp [ChildPc.rank]
  unfold childLeft
  omega

theorem parentLeft_next {p p' : Position ParentPc} (hlt : p.returned < m)
    (hnext : 4 * p'.returned + p'.pc.rank = 4 * p.returned + p.pc.rank + 1) :
    parentLeft m p' < parentLeft m p := by
  have hrank : p.pc.rank ≤ 3 := by
    cases p.pc <;> simp [ParentPc.rank]
  unfold parentLeft
  omega

/-- A child that moves has less to do, and nobody else has more. -/
theorem left_moveChild {i : Nat} {p : Position ChildPc} (v : RendezvousBarrierVariable)
    (hi : i < n) (hlt : (b.child i).returned < m)
    (hnext : 3 * p.returned + p.pc.rank = 3 * (b.child i).returned + (b.child i).pc.rank + 1) :
    State.left n m { b.moveChild i p with variable_ := v } < b.left n m := by
  have hsum := sum_update (childLeft m) b.child (Finset.mem_range.mpr hi) p
  have hless := childLeft_next hlt hnext
  unfold State.left State.moveChild
  simp only
  omega

/-- Every access that is not one more round of a spin loop brings the end nearer. -/
theorem Inv.left_decreases (h : Inv sched n b) (hm : sched.calls = some m)
    (hstep : step sched c b = some b') (hne : b' ≠ b) : b'.left n m < b.left n m := by
  have hbound : ∀ {k}, sched.Calls k → k < m := fun hk => hk m hm
  cases c with
  | parent =>
    have hparent : ∀ (p : Position ParentPc) (v : RendezvousBarrierVariable),
        b.parent.returned < m →
        4 * p.returned + p.pc.rank = 4 * b.parent.returned + b.parent.pc.rank + 1 →
        State.left n m { b with parent := p, variable_ := v } < b.left n m := by
      intro p v hlt hnext
      have hless := parentLeft_next hlt hnext
      unfold State.left
      simp only
      omega
    simp only [step, parentStep] at hstep
    cases hpc : b.parent.pc with
    | outside =>
      simp only [hpc, Option.ite_none_right_eq_some, Option.some.injEq] at hstep
      obtain ⟨hcalls, rfl⟩ := hstep
      exact hparent _ _ (hbound hcalls) (by simp [hpc, ParentPc.rank])
    | waiting =>
      have hlt := hbound (h.calls (by simp [hpc]))
      simp only [hpc, Option.some.injEq] at hstep
      subst hstep
      split at hne
      · exact absurd rfl hne
      · rename_i hall
        rw [if_neg hall]
        exact hparent _ _ hlt (by simp [hpc, ParentPc.rank])
    | initializing =>
      simp only [hpc, Option.some.injEq] at hstep
      subst hstep
      exact hparent _ _ (hbound (h.calls (by simp [hpc]))) (by simp [hpc, ParentPc.rank])
    | sending =>
      simp only [hpc, Option.some.injEq] at hstep
      subst hstep
      refine hparent _ _ (hbound (h.calls (by simp [hpc]))) ?_
      simp only [hpc, ParentPc.rank]
      omega
  | child i =>
    simp only [step, Option.ite_none_right_eq_some, h.numChildren] at hstep
    obtain ⟨hi, hstep⟩ := hstep
    have hcalls := (h.children i hi).calls
    unfold childStep at hstep
    cases hpc : (b.child i).pc with
    | outside =>
      simp only [hpc, Option.ite_none_right_eq_some, Option.some.injEq] at hstep
      obtain ⟨hmore, rfl⟩ := hstep
      exact left_moveChild b.variable_ hi (hbound hmore) (by simp [hpc, ChildPc.rank])
    | sending =>
      simp only [hpc, Option.some.injEq] at hstep
      subst hstep
      exact left_moveChild _ hi (hbound (hcalls (by simp [hpc]))) (by simp [hpc, ChildPc.rank])
    | waiting =>
      simp only [hpc, Option.some.injEq] at hstep
      subst hstep
      split at hne
      · exact absurd rfl hne
      · rename_i hstarted
        rw [if_neg hstarted]
        refine left_moveChild b.variable_ hi (hbound (hcalls (by simp [hpc]))) ?_
        simp only [hpc, ChildPc.rank]
        omega

/-- A worker that is in the barrier is in the call that the parent is in, or can leave. -/
theorem Inv.inside_cases (h : Inv sched n b) {w : Nat} (hw : w ≤ n) (ho : ¬ b.outside n w) :
    b.returned n w = b.parent.returned ∨
      ∃ b', step sched (.child w) b = some b' ∧ b' ≠ b ∧ w ≠ n := by
  by_cases hn : w = n
  · exact Or.inl (if_pos hn)
  · have hi : w < n := by omega
    obtain ⟨hreturned, ⟨hlow, _⟩, hcalls⟩ := h.children w hi
    simp only [State.outside, if_neg hn] at ho
    simp only [State.returned, if_neg hn]
    rcases Nat.lt_or_eq_of_le hreturned with hlt | heq
    · have hmissing : (b.child w).announces b.parent.returned = false := by
        rw [Position.announces, decide_eq_false_iff_not, Position.announced]
        split <;> omega
      obtain ⟨b', hstep, hne⟩ := h.child_moves hi (hcalls ho) hmissing
      exact Or.inr ⟨b', hstep, hne, hn⟩
    · exact Or.inl heq

/-- A worker that is in no call and takes an access has calls left. -/
theorem Inv.calls_of_step (h : Inv sched n b) (hstep : step sched c b = some b')
    (ho : b.outside n (c.worker n)) :
    c.worker n ≤ n ∧ sched.Calls (b.returned n (c.worker n)) := by
  cases c with
  | parent =>
    simp only [State.outside, Choice.worker, if_pos] at ho
    simp only [step, parentStep, ho, Option.ite_none_right_eq_some] at hstep
    refine ⟨Nat.le_refl n, ?_⟩
    simpa only [State.returned, Choice.worker, if_pos] using hstep.1
  | child i =>
    simp only [step, Option.ite_none_right_eq_some, h.numChildren] at hstep
    obtain ⟨hi, hstep⟩ := hstep
    have hne : (Choice.child i).worker n ≠ n := Nat.ne_of_lt hi
    rw [State.outside, if_neg hne] at ho
    have hpc : (b.child i).pc = .outside := ho
    simp only [childStep, hpc, Option.ite_none_right_eq_some] at hstep
    refine ⟨Nat.le_of_lt hi, ?_⟩
    rw [State.returned, if_neg hne]
    exact hstep.1

end Barrier

namespace RunTx
variable {Memory : Type u} {Local : Type v} {ι : Type w}
variable {p : Phased Memory Local ι} {sched : Barrier.Schedule} {n m : Nat}
variable {s s' : State Memory Local} {memory : Memory} {locals : Nat → Local}

/-- A worker that has not left the first call has nothing to do. -/
theorem fresh_reachable (halt : sched.Alternates) (hfresh : ∀ w, p.idle (locals w) = true)
    (h : (system p sched n).Reachable (· = initial n memory locals) s) :
    ∀ w ≤ n, s.barrier.returned n w = 0 → p.idle (s.locals w) = true := by
  induction h with
  | start he =>
    subst he
    exact fun w _ _ => hfresh w
  | @next s s' c hs hstep ih =>
    intro w hw hzero
    have hinv := inv_reachable halt hs
    cases c with
    | work w' i =>
      simp only [system, step, Option.ite_none_right_eq_some, Option.map_eq_some_iff] at hstep
      obtain ⟨⟨_, _, hpos, _⟩, ⟨m, l⟩, _, rfl⟩ := hstep
      have hne : w ≠ w' := by
        rintro rfl
        exact absurd hzero (Nat.pos_iff_ne_zero.mp hpos)
      exact (congrArg p.idle (Function.update_of_ne hne _ _)).trans (ih w hw hzero)
    | synchronize c =>
      simp only [system, step, Option.ite_none_right_eq_some, Option.map_eq_some_iff] at hstep
      obtain ⟨_, b, hb, rfl⟩ := hstep
      rw [synchronize_barrier] at hzero
      by_cases hne : w = c.worker n
      · subst hne
        -- the count of a worker never goes back to zero
        have hsame : b.returned n (c.worker n) = s.barrier.returned n (c.worker n) := by
          rcases hinv.barrier.step_returns halt hb with ⟨_, hsame, _⟩ |
            ⟨i, hi, rfl, _, hchild, hbehind⟩ | ⟨rfl, hparent, _⟩
          · exact hsame _
          · have hn : i ≠ n := Nat.ne_of_lt hi
            simp only [Barrier.State.returned, Barrier.Choice.worker, if_neg hn, hchild,
              Function.update_self] at hzero
            omega
          · simp [Barrier.State.returned, Barrier.Choice.worker, hparent] at hzero
        rw [synchronize_locals hsame]
        exact ih _ hw (hsame ▸ hzero)
      · rw [synchronize_other hne]
        refine ih w hw (Nat.le_zero.mp (hzero ▸ ?_))
        rcases hinv.barrier.step_returns halt hb with ⟨_, hsame, _⟩ |
          ⟨i, hi, rfl, hparent, hchild, _⟩ | ⟨rfl, _, hchild, _⟩
        · exact Nat.le_of_eq (hsame w).symm
        · rw [Barrier.Choice.worker] at hne
          simp only [Barrier.State.returned, hparent, hchild, Function.update_of_ne hne]
          exact Nat.le_refl _
        · rw [Barrier.Choice.worker] at hne
          simp only [Barrier.State.returned, if_neg hne, hchild]
          exact Nat.le_refl _

/-- As long as a worker of a round is busy, some worker can do a part of what the round
has left; `left` says how much a worker has left. -/
structure Progresses (p : Phased Memory Local ι) (threads : Nat) (start : Lockstep Memory Local)
    (left : Local → Nat) : Prop where
  idle : ∀ round w i m l, p.idle l = true → p.work round w i m l = none
  busy : ∀ x, (Lockstep.system p threads).Reachable (· = start) x →
    ∀ w < threads, p.idle (x.locals w) = false →
      ∃ w' < threads, ∃ i m l, p.work x.round w' i x.memory (x.locals w') = some (m, l) ∧
        left l < left (x.locals w')

/-- How far the threads are from the end: the accesses to the barrier, then the work of
the round. -/
def State.distance (p : Phased Memory Local ι) (n m : Nat) (left : Local → Nat)
    (s : State Memory Local) : Nat × Nat :=
  (s.barrier.left n m, ∑ w ∈ Finset.range (n + 1), left ((s.lockstep p n).locals w))

def Nearer : Nat × Nat → Nat × Nat → Prop := Prod.Lex (· < ·) (· < ·)

theorem nearer_wf : WellFounded Nearer :=
  WellFounded.prod_lex Nat.lt_wfRel.wf Nat.lt_wfRel.wf

variable {left : Local → Nat}

/-- An access to the barrier brings the end nearer. -/
theorem synchronize_nearer {c : Barrier.Choice} {b : Barrier.State} (h : Inv p sched n s)
    (hm : sched.calls = some m) (hb : Barrier.step sched c s.barrier = some b)
    (hne : b ≠ s.barrier)
    (hidle : s.barrier.outside n (c.worker n) → p.idle (s.locals (c.worker n)) = true) :
    ∃ c s', step p sched n c s = some s' ∧
      Nearer (s'.distance p n m left) (s.distance p n m left) := by
  refine ⟨.synchronize c, s.synchronize p n (c.worker n) b, ?_, Prod.Lex.left _ _ ?_⟩
  · simp only [step, if_pos hidle, hb, Option.map_some]
  · rw [synchronize_barrier]
    exact h.barrier.left_decreases hm hb hne

/-- So does a worker that does a part of its round. -/
theorem work_nearer {w : Nat} {i : ι} {memory' : Memory} {l : Local} (h : Inv p sched n s)
    (hw : w ≤ n) (ho : s.barrier.outside n w) (hpos : 0 < s.barrier.returned n w)
    (hcalls : sched.Calls (s.barrier.returned n w))
    (hwork : p.work (s.barrier.returned n w) w i s.memory (s.locals w) = some (memory', l))
    (hless : left l < left (s.locals w)) :
    ∃ c s', step p sched n c s = some s' ∧
      Nearer (s'.distance p n m left) (s.distance p n m left) := by
  have hthread := work_simulated h hw ho hpos hwork
  obtain ⟨hround, hlocal⟩ := work_round (p := p) h hw ho hpos
  have hlocals : (State.lockstep p n
      { s with memory := memory', locals := Function.update s.locals w l }).locals =
        Function.update (s.lockstep p n).locals w l := by
    have hmoved : p.work (s.lockstep p n).round w i (s.lockstep p n).memory
        ((s.lockstep p n).locals w) = some (memory', l) := by
      rw [hlocal, show (s.lockstep p n).round = _ from hround.symm]
      exact hwork
    simp only [Lockstep.step, if_pos (Nat.lt_succ_of_le hw), hmoved, Option.map_some,
      Option.some.injEq] at hthread
    exact (congrArg Lockstep.locals hthread).symm
  refine ⟨.work w i, { s with memory := memory', locals := Function.update s.locals w l }, ?_, ?_⟩
  · have hguard : w ≤ n ∧ s.barrier.outside n w ∧ 0 < s.barrier.returned n w ∧
        sched.Calls (s.barrier.returned n w) := ⟨hw, ho, hpos, hcalls⟩
    simp only [step, if_pos hguard, hwork, Option.map_some]
  · refine Prod.Lex.right _ ?_
    have hmem : w ∈ Finset.range (n + 1) := Finset.mem_range.mpr (Nat.lt_succ_of_le hw)
    have hsum := sum_update left (s.lockstep p n).locals hmem l
    rw [hlocal] at hsum
    rw [hlocals]
    omega

/-- Before the end some thread can do more than spin. -/
theorem progress (halt : sched.Alternates) (hm : sched.calls = some m)
    (hfresh : ∀ w, p.idle (locals w) = true)
    (hp : Progresses p (n + 1) ⟨1, memory, fun w => p.enter 1 w (locals w)⟩ left)
    (h : (system p sched n).Reachable (· = initial n memory locals) s)
    (hn : ¬ s.Finished sched n) : ∃ c s', step p sched n c s = some s' ∧
      Nearer (s'.distance p n m left) (s.distance p n m left) := by
  have hinv := inv_reachable halt h
  have hunfinished : Barrier.Unfinished sched n s.barrier := by
    simp only [State.Finished, not_forall, not_not] at hn
    obtain ⟨w, hw, hcalls⟩ := hn
    unfold Barrier.State.returned at hcalls
    split at hcalls
    · exact Or.inl hcalls
    · exact Or.inr ⟨w, by omega, hcalls⟩
  obtain ⟨c, b, hb, hne⟩ := hinv.barrier.progress hunfinished
  by_cases hidle : s.barrier.outside n (c.worker n) → p.idle (s.locals (c.worker n)) = true
  · exact synchronize_nearer hinv hm hb hne hidle
  · -- the thread that could enter the barrier is busy with its round
    rw [Classical.not_imp, Bool.not_eq_true] at hidle
    obtain ⟨ho, hbusy⟩ := hidle
    obtain ⟨hw, hcalls⟩ := hinv.barrier.calls_of_step hb ho
    have hreturned := hinv.barrier.returned_outside hw ho
    have hpos : 0 < s.barrier.returned n (c.worker n) := by
      refine Nat.pos_of_ne_zero (fun hzero => ?_)
      rw [fresh_reachable halt hfresh h _ hw hzero] at hbusy
      cases hbusy
    obtain ⟨hround, hlocal⟩ := work_round (p := p) hinv hw ho hpos
    obtain ⟨w', hw', i, m', l, hwork, hless⟩ := hp.busy _ (lockstep_reachable halt h) _
      (Nat.lt_succ_of_le hw) (hlocal.symm ▸ hbusy)
    have hle := Nat.le_of_lt_succ hw'
    by_cases ho' : s.barrier.outside n w'
    · have hreturned' := hinv.barrier.returned_outside hle ho'
      obtain ⟨hround', hlocal'⟩ :=
        work_round (p := p) hinv hle ho' (by rw [hreturned', ← hreturned]; exact hpos)
      rw [hlocal', show (s.lockstep p n).round = _ from hround'.symm] at hwork
      rw [hlocal'] at hless
      refine work_nearer hinv hle ho' ?_ ?_ hwork hless
      · rw [hreturned', ← hreturned]
        exact hpos
      · rw [hreturned', ← hreturned]
        exact hcalls
    · rcases hinv.barrier.inside_cases hle ho' with hsame | ⟨b', hb', hne', hother⟩
      · have hlocal' : (s.lockstep p n).locals w' = s.locals w' :=
          if_pos ⟨hle, hsame.trans (hreturned.symm.trans hround)⟩
        rw [hlocal', hp.idle _ _ _ _ _ (hinv.waiting w' hle ho')] at hwork
        cases hwork
      · exact synchronize_nearer hinv hm hb' hne' (fun hout => absurd hout ho')

/-- Whatever the threads have done so far, all of them can still return. -/
theorem completes (halt : sched.Alternates) (hm : sched.calls = some m)
    (hfresh : ∀ w, p.idle (locals w) = true)
    (hp : Progresses p (n + 1) ⟨1, memory, fun w => p.enter 1 w (locals w)⟩ left)
    (h : (system p sched n).Reachable (· = initial n memory locals) s) :
    ∃ t, (system p sched n).Reachable (· = s) t ∧ t.Finished sched n :=
  h.completes nearer_wf (State.distance p n m left)
    (fun _ hs hn => progress halt hm hfresh hp hs hn)

end RunTx
end Mvdcc
