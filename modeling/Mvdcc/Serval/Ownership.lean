import Mvdcc.Serval.Safety

namespace Mvdcc.Serval
open Library Bitmap

section Ownership
variable {Key : Type u} [DecidableEq Key] {wl : Workload Key} {numRegions : Nat} {s t : State Key}

/-- The epoch counter never goes back, and within an execution phase nothing is reclaimed. -/
def SamePhase (s t : State Key) : Prop :=
  s.epoch < t.epoch ∨ (t.epoch = s.epoch ∧ t.phase = .execution ∧
    ∀ k, (t.rows k).heap.reclaimed = (s.rows k).heap.reclaimed)

theorem SamePhase.step {i : Choice} {t u : State Key} (h : SamePhase s t)
    (hstep : step wl numRegions i t = some u) : SamePhase s u := by
  rcases step_cases hstep with ⟨w, c, rest, htodo, hpc, rfl⟩ | ⟨w, c, rest, pc, m, htodo, hcall, rfl⟩ |
    ⟨hall, ⟨hp, rfl⟩ | ⟨hp, rfl⟩⟩
  · exact h
  · rcases h with hlt | ⟨he, hp, hr⟩
    · exact Or.inl hlt
    · refine Or.inr ⟨he, hp, fun k => ?_⟩
      by_cases hk : k = c.index
      · subst hk
        simp only [callStep, hp] at hcall
        have hrows : (t.advance w c.index pc m).rows c.index = m.toRow := Function.update_self _ _ _
        rw [hrows]
        exact (executionStep_keeps hcall).2.2.2.trans (hr c.index)
      · rw [rows_advance hk]
        exact hr k
  · rcases h with hlt | ⟨_, hp', _⟩
    · exact Or.inl hlt
    · rw [hp] at hp'
      cases hp'
  · rcases h with hlt | ⟨he, _, _⟩
    · exact Or.inl (Nat.lt_succ_of_lt hlt)
    · exact Or.inl (by simp only [State.enter]; omega)

theorem nothing_reclaimed (hp : s.phase = .execution)
    (ht : (system wl numRegions).Reachable (· = s) t) (he : t.epoch = s.epoch) (k : Key) :
    (t.rows k).heap.reclaimed = (s.rows k).heap.reclaimed := by
  have hstart : ∀ u, u = s → SamePhase s u := by
    rintro _ rfl
    exact Or.inr ⟨rfl, hp, fun _ => rfl⟩
  have hsame : SamePhase s t := ht.invariant hstart (fun _ _ _ h hstep => h.step hstep)
  rcases hsame with hlt | ⟨_, _, hr⟩
  · omega
  · exact hr k

theorem live_of_visible {W : List Nat} {e serial : Nat} {tr : Trail} {row : Row} {own : RowRegion}
    {pcs : Nat → Pc} {v : Ptr} {b : Bool} (h : Running W e tr row own pcs)
    (hv : visibleOf row own e serial = (some v, b)) : v ∈ live row own := by
  obtain ⟨q, hm, _⟩ := h.master
  have hq : q ∈ live row own := mem_live.mpr (Or.inl hm)
  unfold visibleOf at hv
  split at hv
  · rw [hm, Prod.mk.injEq, Option.some.injEq] at hv
    exact hv.1 ▸ hq
  · split at hv
    · rename_i i p hb
      rw [Prod.mk.injEq, Option.some.injEq] at hv
      rw [(contents_ascending h.kept).entryBelow_eq_some] at hb
      exact hv.1 ▸ mem_live_of_contents hb.1
    · rw [hm, Prod.mk.injEq, Option.some.injEq] at hv
      exact hv.1 ▸ hq

def State.hands (s : State Key) (k : Key) : Multiset Ptr :=
  ∑ serial ∈ serials, (s.place k .update serial).hands

/-- Where the versions of a row are, and what may be reclaimed. A core whose bit
is set has a slot, unless its worker is between setting the bit and the append. -/
structure Owned (wl : Workload Key) (numRegions : Nat) (s : State Key) (k : Key) : Prop where
  places : ((s.rows k).heap.freed : Multiset Ptr) + ((s.rows k).value.master.toList : Multiset Ptr) +
    ((s.rows k).value.globalArray.idsSlots.map Prod.snd : Multiset Ptr) + (s.own k).owned +
      s.hands k = Multiset.range (s.rows k).heap.next
  once : (s.rows k).heap.freed.Nodup
  finished : (s.rows k).heap.CleanLog
  readable : s.phase = .execution → ∀ serial v wait,
    (s.memory k).readVisible s.epoch (getCoreSerial serial) serial = (some v, wait) →
      ∀ t, (system wl numRegions).Reachable (· = s) t → t.epoch = s.epoch →
        v ∉ (t.rows k).heap.freed
  slots : ∀ region, (s.rows k).value.rowRegion = some region → ∀ c,
    (s.controller.regions region).coreBitmap.getMsbD c = true →
      ((s.controller.regions region).arrays c).length =
          ((s.controller.regions region).arrays c).slots.length ∧
        (1 ≤ ((s.controller.regions region).arrays c).slots.length ∨
          ∃ serial v, serial / 64 = c ∧ s.place k .update serial = .appendSlot region v)

theorem Inv.hands_eq_zero (hi : Inv wl s) {k : Key}
    (hz : ∀ serial ∈ wl.writers k s.epoch, (s.place k .update serial).hands = 0) :
    s.hands k = 0 := by
  apply Finset.sum_eq_zero
  intro serial _
  by_cases hW : serial ∈ wl.writers k s.epoch
  · exact hz serial hW
  · rw [hi.place_not_writer hW]
    rfl

theorem kept_of_inv (hi : Inv wl s) (k : Key) : Kept (s.rows k) (s.own k) (s.hands k) := by
  have hrow := hi.rows k
  unfold RowInv at hrow
  cases hp : s.phase with
  | initialization =>
    rw [hp] at hrow
    rcases hrow with h | h
    · rw [hi.hands_eq_zero (fun serial hW => (h.calls serial hW).hands)]
      exact h.settled.kept
    · exact h.kept
  | execution =>
    rw [hp] at hrow
    have hz : s.hands k = 0 := by
      refine hi.hands_eq_zero (fun serial hW => ?_)
      rcases hrow.1 with ⟨hnil, _⟩ | ⟨_, h⟩
      · rw [hnil] at hW
        cases hW
      · obtain ⟨p, _, hok⟩ := h.writers serial hW
        cases hpc : s.place k .update serial <;> rw [hpc] at hok <;>
          first | rfl | exact hok.elim
    rw [hz]
    exact hrow.1.kept

/-- In every reachable state every version of a row is in exactly one place. -/
theorem versions_owned (h : Reachable wl numRegions s) (k : Key) : Owned wl numRegions s k := by
  have hi := h.inv
  have hk := kept_of_inv hi k
  have hrow := hi.rows k
  unfold RowInv at hrow
  refine ⟨?_, ?_, hk.clean, ?_, ?_⟩
  · rw [← hk.places, live]
    abel
  · have hn := hk.nodup
    exact Multiset.coe_nodup.mp (Multiset.nodup_add.mp (Multiset.nodup_add.mp hn).1).1
  · intro hp serial v wait hv t ht he
    rw [hp] at hrow
    rw [readVisible_eq (m := s.memory k) hrow.1.kept hrow.1.populated] at hv
    have hlive := live_of_visible hrow.1 hv
    unfold Heap.freed
    rw [nothing_reclaimed hp ht he k]
    exact hk.not_freed hlive
  · intro region hr c hc
    have hown : s.own k = s.controller.regions region := Memory.own_of_some hr
    have hwf := hk.wellFormed
    rw [hown] at hwf
    have hlen := hwf c hc
    refine ⟨by rw [PerCoreVersionArray.length, popcount_eq]; exact hlen, ?_⟩
    cases hp : s.phase with
    | initialization =>
      rw [hp] at hrow
      rcases hrow with h' | h'
      · have := h'.settled.populated.nonempty c (hown ▸ hc)
        rw [hown] at this
        exact Or.inl (List.length_pos_of_ne_nil this)
      · rcases h'.populated c (hown ▸ hc) with hne | ⟨serial, hs, hcore, region', v, hpc⟩
        · rw [hown] at hne
          exact Or.inl (List.length_pos_of_ne_nil hne)
        · have hok := h'.calls serial hs
          rw [hpc] at hok
          have hreg := hok.2.1
          rw [hr, Option.some.injEq] at hreg
          exact Or.inr ⟨serial, v, hcore, hreg ▸ hpc⟩
    | execution =>
      rw [hp] at hrow
      have := hrow.1.populated.nonempty c (hown ▸ hc)
      rw [hown] at this
      exact Or.inl (List.length_pos_of_ne_nil this)

end Ownership

/-- `installing`, the execution phase, and the next epoch up to where worker 0 holds the row
and worker 1 has a version in its hands. -/
def nextEpoch : List Choice :=
  installing ++ [.barrier] ++ List.replicate 6 (.worker 0) ++ List.replicate 3 (.worker 1) ++
    [.barrier] ++ List.replicate 5 (.worker 0) ++ List.replicate 5 (.worker 1) ++ [.worker 0]

/-- Seven versions, four of them reclaimed, each in one place. -/
theorem next_versions_owned : ∃ s : State Unit, Reachable writeAcross 1 s ∧
    (s.rows ()).value.rowRegion = some 0 ∧ (s.rows ()).heap.next = 7 ∧
      (s.rows ()).heap.freed = [1, 0, 2, 4] ∧ s.place () .update 64 = .appendSlot 0 5 ∧
        Owned writeAcross 1 s () := by
  have hstart : Reachable writeAcross 1 (initial writeAcross) := .start rfl
  have hrun : ((system writeAcross 1).run nextEpoch (initial writeAcross)).map
      (fun s => ((s.rows ()).value.rowRegion, (s.rows ()).heap.next, (s.rows ()).heap.freed,
        s.place () .update 64)) = some (some 0, 7, [1, 0, 2, 4], .appendSlot 0 5) := by
    decide +kernel
  obtain ⟨s, hs, hx⟩ := hstart.of_run_map hrun
  simp only [Prod.mk.injEq] at hx
  obtain ⟨hregion, hnext, hfreed, hplace⟩ := hx
  exact ⟨s, hs, hregion, hnext, hfreed, hplace, versions_owned hs ()⟩

end Mvdcc.Serval
