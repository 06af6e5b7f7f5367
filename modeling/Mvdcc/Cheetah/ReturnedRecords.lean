import Mathlib.Algebra.Order.BigOperators.Group.Finset
import Mathlib.Logic.Relation
import Mvdcc.Cheetah.Completion
import Mvdcc.Cheetah.Reclamation

namespace Mvdcc.Cheetah
open Library Bitmap

section Order
variable {Key : Type u} [DecidableEq Key] {wl : Workload Key} {s s' : State Key} {e : Nat}
variable {w position : Nat} {c c' : Call Key} {rest : List (Call Key)} {k : Key} {serial : Nat}

/-- In every run of the execution phase the one call is over before the other begins. -/
def Precedes (wl : Workload Key) (e : Nat) : Call Key → Call Key → Prop :=
  Relation.TransGen (Waits wl e)

/-- A call that has begun has nothing left to wait for. -/
theorem Waits.over (h : Reachable wl s) (hphase : s.phase = .execution)
    (hw : Waits wl s.epoch c c') (hb : s.at c' ≠ .start) : s.at c = .done := by
  have hi := h.inv
  have hassigned := program_assigned wl s.phase s.epoch
  cases hw with
  | @turn w _ _ hsub =>
    rw [← hphase] at hsub
    have hown : ∀ x ∈ [c, c'], owner s.phase x.serial = w :=
      fun x hx => hassigned.owned w x (hsub.subset hx)
    have hnodup := (hassigned.ordered w).imp Call.Before.ne
    unfold State.at view at hb ⊢
    rw [hown c' (by simp)] at hb
    rw [hown c (by simp)]
    exact Thread.pcOf_earlier hnodup (hi.remaining w) hsub hb
  | @version k serial σ hR hg =>
    obtain ⟨m, hrow⟩ := (rowInv_execution k hphase).mp (hi.rows k)
    have hW := ((greatestBelow_eq_some (wl.writers_pairwise _ _)).mp hg).1
    obtain ⟨v, hv⟩ := hrow.assigned.exists_pending hR
    have hstable := hrow.stable_of_past hR hb hv
    exact (hrow.written_of_stable hW (Or.inl ⟨serial, hR, hg, hv⟩) hstable).1

theorem Precedes.over (h : Reachable wl s) (hphase : s.phase = .execution)
    (hp : Precedes wl s.epoch c c') (hb : s.at c' ≠ .start) : s.at c = .done := by
  induction hp with
  | single hw => exact hw.over h hphase hb
  | tail _ hw ih => exact ih (by rw [hw.over h hphase hb]; simp)

/-- A call's place in the order of its serial ids and of its worker's program. -/
def rank (wl : Workload Key) (e : Nat) (c : Call Key) : Nat ×ₗ Nat :=
  toLex (c.serial, (program wl .execution e (owner .execution c.serial)).idxOf c)

theorem Waits.rank_lt (h : Waits wl e c c') : rank wl e c < rank wl e c' := by
  rw [rank, rank, Prod.Lex.toLex_lt_toLex]
  cases h with
  | @turn w _ _ hsub =>
    have hassigned := program_assigned wl .execution e
    have hnodup := (hassigned.ordered w).imp Call.Before.ne
    rw [hassigned.owned w c (hsub.subset (by simp)), hassigned.owned w c' (hsub.subset (by simp))]
    rcases Nat.lt_or_eq_of_le (Waits.turn hsub).le with hlt | heq
    · exact Or.inl hlt
    · exact Or.inr ⟨heq, Thread.idxOf_lt_of_sublist hnodup hsub⟩
  | version _ hg => exact Or.inl ((greatestBelow_eq_some (wl.writers_pairwise _ _)).mp hg).2.1

/-- No call is before itself. -/
theorem Precedes.irrefl : ¬ Precedes wl e c c := by
  have hlt : ∀ {c'}, Precedes wl e c c' → rank wl e c < rank wl e c' := by
    intro c' h
    induction h with
    | single h => exact h.rank_lt
    | tail _ h ih => exact ih.trans h.rank_lt
  exact fun h => lt_irrefl _ (hlt h)

end Order

section Schedule
variable {Key : Type u} [DecidableEq Key] {wl : Workload Key} {s s' : State Key} {e : Nat}
variable {w position : Nat} {c c' : Call Key} {rest : List (Call Key)} {k : Key} {serial : Nat}

/-- A worker moves nothing of the other workers. -/
theorem worker_step_frame (hstep : step wl (.worker w position) s = some s') :
    s'.phase = s.phase ∧ s'.epoch = s.epoch ∧
      ∀ w', w' ≠ w → s'.workers w' = s.workers w' ∧ s'.markers w' = s.markers w' := by
  have hself : SameTo w s s := ⟨rfl, rfl, rfl, rfl, rfl⟩
  have hmoved := Option.some.inj (hstep.symm.trans (worker_step_local hself hstep))
  rw [hmoved]
  exact ⟨rfl, rfl, fun w' hw => ⟨Function.update_of_ne hw _ _, Function.update_of_ne hw _ _⟩⟩

/-- What all the workers have left of a phase. -/
def State.left (s : State Key) : Nat := ∑ w ∈ cores, Local.left ⟨s.workers w, s.markers w⟩

theorem left_decreases (hstep : step wl (.worker w position) s = some s') (hw : w < 64)
    (hless : Local.left ⟨s'.workers w, s'.markers w⟩ < Local.left ⟨s.workers w, s.markers w⟩) :
    s'.left < s.left := by
  refine Finset.sum_lt_sum ?_ ⟨w, mem_cores.mpr hw, hless⟩
  intro w' _
  by_cases he : w' = w
  · exact he ▸ Nat.le_of_lt hless
  · obtain ⟨hworker, hmarker⟩ := (worker_step_frame hstep).2.2 w' he
    rw [hworker, hmarker]

/-- The workers can finish every phase they are in. -/
theorem phase_ends (h : Reachable wl s) : ∃ t, Reachable wl t ∧ t.phase = s.phase ∧
    t.epoch = s.epoch ∧ ∀ w < 64, (t.workers w).todo = [] ∧ t.markers w = .idle := by
  have hnear : ∀ t, (Reachable wl t ∧ t.phase = s.phase ∧ t.epoch = s.epoch) →
      ¬ (∀ w < 64, (t.workers w).todo = [] ∧ t.markers w = .idle) →
        ∃ i t', (system wl).step i t = some t' ∧
          (Reachable wl t' ∧ t'.phase = s.phase ∧ t'.epoch = s.epoch) ∧ t'.left < t.left := by
    intro t ht hbusy
    simp only [not_forall] at hbusy
    obtain ⟨w, _, hbusy⟩ := hbusy
    obtain ⟨w', hw', position, t', hstep, hless⟩ := busy_moves ht.1 hbusy
    obtain ⟨hphase, hepoch, _⟩ := worker_step_frame hstep
    exact ⟨.worker w' position, t', hstep,
      ⟨ht.1.next (.worker w' position) hstep, hphase.trans ht.2.1, hepoch.trans ht.2.2⟩,
      left_decreases hstep hw' hless⟩
  obtain ⟨t, _, ⟨ht, hphase, hepoch⟩, hidle⟩ :=
    (system wl).exists_reachable _ _ Nat.lt_wfRel.wf State.left hnear ⟨h, rfl, rfl⟩
  exact ⟨t, ht, hphase, hepoch, hidle⟩

/-- So they can pass the barrier behind it. -/
theorem phase_follows (h : Reachable wl s) : ∃ u : State Key, Reachable wl (match s.phase with
    | .write => u.enter wl .read s.epoch
    | .read => u.enter wl .execution s.epoch
    | .execution => u.enter wl .write (s.epoch + 1)) := by
  obtain ⟨t, ht, hphase, hepoch, hidle⟩ := phase_ends h
  refine ⟨t, ht.next .barrier ?_⟩
  rw [← hphase, ← hepoch]
  exact if_pos hidle

/-- Every execution phase is reached. -/
theorem execution_begins (wl : Workload Key) (he : 1 ≤ e) :
    ∃ u : State Key, Reachable wl (u.enter wl .execution e) := by
  have hphases : ∀ {s : State Key} {e}, Reachable wl s → s.phase = .write → s.epoch = e →
      ∃ u : State Key, Reachable wl (u.enter wl .execution e) := by
    intro s e hs hphase hepoch
    obtain ⟨u, hu⟩ := phase_follows hs
    rw [hphase, hepoch] at hu
    exact phase_follows hu
  induction e, he using Nat.le_induction with
  | base => exact hphases (.start rfl) rfl rfl
  | succ e _ ih =>
    obtain ⟨u, hu⟩ := ih
    obtain ⟨u', hu'⟩ := phase_follows hu
    exact hphases hu' rfl rfl

def readOf (k : Key) (serial : Nat) : Call Key := ⟨serial, ⟨.read, k⟩⟩
def writeOf (k : Key) (serial : Nat) : Call Key := ⟨serial, ⟨.update, k⟩⟩

/-- A read is over when it returns and not before. -/
theorem executionStep_unreturned {core : Nat} {pc pc' : Pc} {r r' : Row}
    (hok : ReaderOk e r serial pc) (hret : ∀ record, pc ≠ .returning record)
    (h : executionStep e core serial .read pc r = some (pc', r')) : pc' ≠ .done := by
  cases pc <;> simp only [executionStep, reduceCtorEq] at h <;> try exact hok.elim
  case start =>
    split at h
    · cases h
      split <;> simp
    · cases h
  case decrement record =>
    cases h
    split <;> simp
  case lastLock record =>
    obtain ⟨_, _, rfl, _⟩ := Row.lock_step h
    simp
  case returning record => exact absurd rfl (hret record)
  all_goals
    cases h
    simp

theorem unreturned_step (h : Reachable wl s) (hphase : s.phase = .execution)
    (hR : serial ∈ wl.readers k s.epoch) (hn : s.at (readOf k serial) ≠ .done)
    (hstep : step wl (.worker w position) s = some s') (htodo : (s.workers w).todo = c :: rest)
    (hret : c = readOf k serial → ∀ r, (s.workers w).pc ≠ .returning r) :
    s'.at (readOf k serial) ≠ .done := by
  have hi := h.inv
  have hp : s.phase ≠ .write := by simp [hphase]
  by_cases hd : (s.workers w).pc = .done
  · simp only [step, htodo, if_pos hd, Option.some.injEq] at hstep
    subst hstep
    have hsame : (s.return w rest).at = s.at :=
      view_return (program_assigned wl s.phase s.epoch) hi.remaining htodo hd
    rw [hsame]
    exact hn
  · simp only [step, htodo, if_neg hd, if_neg hp] at hstep
    obtain ⟨⟨pc, r⟩, hcall, rfl⟩ := Option.map_eq_some_iff.mp hstep
    rw [at_advance hi htodo]
    by_cases hc : readOf k serial = c
    · subst hc
      rw [Function.update_self]
      obtain ⟨m, hrow⟩ := (rowInv_execution k hphase).mp (hi.rows k)
      have hok := hrow.readers serial hR
      rw [show s.place k .read serial = (s.workers w).pc from at_head hi htodo] at hok
      simp only [callStep, hphase] at hcall
      exact executionStep_unreturned hok (hret rfl) hcall
    · rw [Function.update_of_ne hc]
      exact hn

/-- As long as a read has not come to its return behind all the calls that need not wait
for it, it or one of those calls can move on. -/
theorem last_read_moves (h : Reachable wl s) (hphase : s.phase = .execution)
    (hn : s.at (readOf k serial) ≠ .done)
    (hgoal : ¬ ((∃ w rest r, (s.workers w).todo = readOf k serial :: rest ∧
        (s.workers w).pc = .returning r) ∧
      ∀ c, c ≠ readOf k serial → ¬ Precedes wl s.epoch (readOf k serial) c → s.at c = .done)) :
    ∃ w c rest, (s.workers w).todo = c :: rest ∧
      (c = readOf k serial → ∀ r, (s.workers w).pc ≠ .returning r) ∧
        ∃ s', step wl (.worker w 0) s = some s' ∧ s' ≠ s := by
  have hlocked : ∀ {pc : Pc}, pc.holdsLock = true → ∀ r, pc ≠ .returning r := by
    rintro _ hlock r rfl
    cases hlock
  by_cases hothers : ∀ c, c ≠ readOf k serial → ¬ Precedes wl s.epoch (readOf k serial) c →
      s.at c = .done
  · -- the read is at the head of its worker's calls, and waits for none of the others
    obtain ⟨c, rest, htodo⟩ :=
      List.exists_cons_of_ne_nil (List.ne_nil_of_mem (Thread.mem_of_pcOf_ne hn))
    by_cases hd : (s.workers (owner s.phase (readOf k serial).serial)).pc = .done
    · exact ⟨_, c, rest, htodo, fun _ r => by simp [hd], return_changes htodo hd⟩
    · have hc : c = readOf k serial := by
        rcases List.mem_cons.mp (htodo ▸ Thread.mem_of_pcOf_ne hn) with he | hrest
        · exact he.symm
        · by_contra hne
          have hwaits := Waits.of_head h hphase htodo hrest
          have hover := hothers c hne (fun hp => Precedes.irrefl (hp.tail hwaits))
          exact hd ((at_head h.inv htodo).symm.trans hover)
      subst hc
      have hret : ∀ r, (s.workers (owner s.phase (readOf k serial).serial)).pc ≠ .returning r :=
        fun r hr => hgoal ⟨⟨_, rest, r, htodo, hr⟩, hothers⟩
      rcases call_moves h hphase htodo hd with hm | hb | ⟨_, c', hwaits, hlt, hc'⟩
      · exact ⟨_, _, rest, htodo, fun _ => hret, worker_moves hphase htodo hd hm⟩
      · obtain ⟨w', c', rest', htodo', hlock, hstep⟩ := blocker_moves h hphase hb
        exact ⟨w', c', rest', htodo', fun _ => hlocked hlock, hstep⟩
      · refine absurd (hothers c' ?_ (fun hp => Precedes.irrefl (hp.tail hwaits))) hc'
        rintro rfl
        exact Nat.lt_irrefl _ hlt
  · simp only [not_forall] at hothers
    obtain ⟨c, hne, hfree, hc⟩ := hothers
    have hclosed : ∀ c c', Waits wl s.epoch c c' →
        (c = readOf k serial ∨ Precedes wl s.epoch (readOf k serial) c) →
        (c' = readOf k serial ∨ Precedes wl s.epoch (readOf k serial) c') := by
      rintro c c' hwaits (rfl | hp)
      · exact Or.inr (.single hwaits)
      · exact Or.inr (hp.tail hwaits)
    obtain ⟨w', c', rest, htodo, hlock, hstep⟩ := progress_below h hphase hclosed c.serial _ c
      (Thread.mem_of_pcOf_ne hc) rfl (not_or.mpr ⟨hne, hfree⟩)
    exact ⟨w', c', rest, htodo, fun he => hlocked (hlock (Or.inl he)), hstep⟩

/-- In some run a read returns after all the calls that need not wait for it. -/
theorem last_read_returns (he : 1 ≤ e) (hR : serial ∈ wl.readers k e) :
    ∃ t, Reachable wl t ∧ t.phase = .execution ∧ t.epoch = e ∧
      (∃ w rest r, (t.workers w).todo = readOf k serial :: rest ∧
        (t.workers w).pc = .returning r) ∧
      ∀ c, c ≠ readOf k serial → ¬ Precedes wl e (readOf k serial) c → t.at c = .done := by
  obtain ⟨u, hu⟩ := execution_begins wl he
  have hnear : ∀ t, (Reachable wl t ∧ t.phase = .execution ∧ t.epoch = e ∧
        t.at (readOf k serial) ≠ .done) →
      ¬ ((∃ w rest r, (t.workers w).todo = readOf k serial :: rest ∧
          (t.workers w).pc = .returning r) ∧
        ∀ c, c ≠ readOf k serial → ¬ Precedes wl e (readOf k serial) c → t.at c = .done) →
      ∃ i t', (system wl).step i t = some t' ∧
        (Reachable wl t' ∧ t'.phase = .execution ∧ t'.epoch = e ∧
          t'.at (readOf k serial) ≠ .done) ∧ t'.left < t.left := by
    rintro t ⟨ht, hphase, rfl, hn⟩ hgoal
    obtain ⟨w, c, rest, htodo, hret, t', hstep, hne⟩ := last_read_moves ht hphase hn hgoal
    obtain ⟨hphase', hepoch', _⟩ := worker_step_frame hstep
    have hless := execution_step_left hphase hstep hne
    have hw : w < 64 := Moves.lt ht ⟨0, t', hstep, hless⟩
    exact ⟨.worker w 0, t', hstep, ⟨ht.next (.worker w 0) hstep, hphase'.trans hphase, hepoch',
      unreturned_step ht hphase hR hn hstep htodo hret⟩, left_decreases hstep hw hless⟩
  have hstart : (u.enter wl .execution e).at (readOf k serial) ≠ .done := by
    have hprogram : readOf k serial ∈ program wl .execution e (owner .execution serial) :=
      (reader_mem_program (by simp)).mpr hR
    rw [at_enter wl u hprogram]
    simp
  obtain ⟨t, _, ⟨ht, hphase, hepoch, _⟩, hgoal⟩ := (system wl).exists_reachable _ _
    Nat.lt_wfRel.wf State.left hnear ⟨hu, rfl, rfl, hstart⟩
  exact ⟨t, ht, hphase, hepoch, hgoal⟩

end Schedule

section Returns
variable {Key : Type u} [DecidableEq Key] {wl : Workload Key} {s : State Key} {e : Nat}
variable {w : Nat} {c : Call Key} {rest : List (Call Key)} {k : Key} {r : Option Rec}

/-- Every record that a read of the row returns in the epoch belongs to a version that has
not been reclaimed. -/
def ReturnsLive (wl : Workload Key) (k : Key) (e : Nat) : Prop :=
  ∀ s, Reachable wl s → s.phase = .execution → s.epoch = e → ∀ w c rest r,
    (s.workers w).todo = c :: rest → c.index = k → (s.workers w).pc = .returning r →
      ∃ v, (s.rows k).pending e c.serial = some v ∧ r = ((s.rows k).heap.version v).record ∧
        v ∉ (s.rows k).heap.freed

/-- A read that has a writer of the row above it is in every run over before some other read
of the row begins, or, if it reads the version of before the epoch, before the final write does. -/
def ReadsFollowed (wl : Workload Key) (k : Key) (e : Nat) : Prop :=
  ∀ serial ∈ wl.readers k e, (∀ σ ∈ wl.writers k e, σ < serial) ∨
    (∃ other ∈ wl.readers k e, Precedes wl e (readOf k serial) (readOf k other)) ∨
    ((∀ σ ∈ wl.writers k e, serial < σ) ∧ ∃ final, (wl.writers k e).getLast? = some final ∧
      Precedes wl e (readOf k serial) (writeOf k final))

/-- What waits for a returning read has not begun. -/
theorem not_begun (h : Reachable wl s) (hphase : s.phase = .execution)
    (htodo : (s.workers w).todo = c :: rest) (hpc : (s.workers w).pc = .returning r)
    {c' : Call Key} (hp : Precedes wl s.epoch (readOf c.index c.serial) c') :
    s.at c' = .start := by
  have hread : readOf c.index c.serial = c := by
    obtain ⟨hR, _⟩ := returning_ok h hphase htodo hpc
    obtain ⟨_, hop, _⟩ := executing_of_head h hphase htodo
    exact congrArg (Call.mk c.serial) (wl.operation_unique (wl.mem_readers.mp hR).2 hop rfl)
  rw [hread] at hp
  by_contra hb
  have hover := hp.over h hphase hb
  rw [at_head h.inv htodo, hpc] at hover
  cases hover

/-- A read that is followed returns in time. -/
theorem ReadsFollowed.returnsLive (hf : ReadsFollowed wl k e) : ReturnsLive wl k e := by
  rintro s h hphase rfl w c rest r htodo rfl hpc
  obtain ⟨hR, _⟩ := returning_ok h hphase htodo hpc
  obtain ⟨_, _, m, hrow⟩ := executing_of_head h hphase htodo
  rw [returning_live_iff h hphase htodo hpc]
  rcases hf c.serial hR with habove | ⟨other, hother, hp⟩ | ⟨hbelow, final, hfinal, hp⟩
  · exact Or.inr (Or.inl habove)
  · refine Or.inl (fun hz => ?_)
    have hreading := tally_eq_zero.mp (hrow.held.refCnt_eq_zero.mp hz).1 other hother
    rw [show s.place c.index .read other = .start from not_begun h hphase htodo hpc hp] at hreading
    cases hreading
  · refine Or.inr (Or.inr ⟨hbelow, ?_⟩)
    have hunwritten : finalized (wl.writers c.index s.epoch) (s.place c.index .update) = false := by
      rw [finalized_eq hfinal,
        show s.place c.index .update final = .start from not_begun h hphase htodo hpc hp]
      rfl
    rw [ne_eq, (hrow.before hunwritten).marked.coreBitmap_eq_zero]
    exact List.ne_nil_of_mem (List.mem_of_getLast? hfinal)

/-- Any other can be made to return last. -/
theorem ReturnsLive.readsFollowed (he : 1 ≤ e) (hl : ReturnsLive wl k e) :
    ReadsFollowed wl k e := by
  intro serial hR
  by_contra hn
  simp only [not_or, not_exists, not_and] at hn
  obtain ⟨hbelow, hread, hwrite⟩ := hn
  obtain ⟨s, h, hphase, rfl, ⟨w, rest, r, htodo, hpc⟩, hlast⟩ := last_read_returns he hR
  have hat : s.at (readOf k serial) = .returning r := (at_head h.inv htodo).trans hpc
  obtain ⟨m, hrow⟩ := (rowInv_execution k hphase).mp (h.inv.rows k)
  rcases (returning_live_iff h hphase htodo hpc).mp (hl s h hphase rfl w _ rest r htodo rfl hpc)
    with href | habove | ⟨hall, hcore⟩
  · -- no other read of the row is left
    have hover : ∀ other ∈ wl.readers k s.epoch,
        s.place k .read other = .done ∨ s.place k .read other = .returning r := by
      intro other hother
      by_cases hne : readOf k other = readOf k serial
      · exact Or.inr ((congrArg s.at hne).trans hat)
      · exact Or.inl (hlast _ hne (hread other hother))
    refine href (hrow.held.refCnt_eq_zero.mpr ⟨tally_eq_zero.mpr ?_, tally_eq_zero.mpr ?_⟩)
    · intro other hother
      rcases hover other hother with hp | hp <;> exact (congrArg Pc.reading hp).trans rfl
    · intro other hother
      rcases hover other hother with hp | hp <;> exact (congrArg Pc.closing hp).trans rfl
  · exact hbelow habove
  · -- the final writer has replaced the master version
    cases hfinal : (wl.writers k s.epoch).getLast? with
    | none =>
      rw [List.getLast?_eq_none_iff] at hfinal
      exact hbelow (by simp [hfinal])
    | some final =>
      have hover : s.place k .update final = .done :=
        hlast _ (by simp [readOf]) (hwrite hall final hfinal)
      refine hcore (hrow.after ?_).coreBitmap
      rw [finalized_eq hfinal]
      exact (congrArg Pc.written hover).trans rfl

/-- In every run the reads of the row in the epoch return records that are still there,
exactly if the workload has something come after each read with a writer above it. -/
theorem returned_records_live_iff (he : 1 ≤ e) : ReturnsLive wl k e ↔ ReadsFollowed wl k e :=
  ⟨ReturnsLive.readsFollowed he, ReadsFollowed.returnsLive⟩

end Returns

section Runs

/-- A read, a write after it, and a read of that write by the worker of the first one. -/
def readWriteRead : Workload Unit where
  txs i := if i = 0 ∨ i = 64 then [⟨.read, ()⟩] else if i = 1 then [⟨.update, ()⟩] else []
  distinct := by
    intro i
    split
    · simp
    · split <;> simp

theorem followed_read_is_live : ReturnsLive readWriteRead () 1 := by
  refine (returned_records_live_iff (Nat.le_refl 1)).mpr ?_
  intro serial hR
  have hserial : serial = 0 ∨ serial = 64 := by
    have hread := (readWriteRead.mem_readers.mp hR).2
    simp only [Workload.rwSet, readWriteRead] at hread
    grind
  have hsub : [readOf () 0, readOf () 64].Sublist (program readWriteRead .execution 1 0) := by
    decide +kernel
  rcases hserial with rfl | rfl
  · exact Or.inr (Or.inl ⟨64, by decide +kernel, .single (.turn hsub)⟩)
  · exact Or.inl (by decide +kernel)

end Runs
end Mvdcc.Cheetah
