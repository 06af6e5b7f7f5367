import Mvdcc.Serval.System

namespace Mvdcc.Serval
open Library Bitmap

/-- Appends by core, transaction and version, as workers make them one after another. -/
def appendVersions : List (Nat × Nat × Ptr) → RowRegion × Heap → RowRegion × Heap
  | [], acc => acc
  | (core, tx, version) :: rest, (region, heap) =>
    appendVersions rest (region.append core version tx heap)

/-- An append as an entry under its serial id. -/
def entryOf (a : Nat × Nat × Ptr) : Int × Ptr := (((a.1 * 64 + a.2.1 : Nat) : Int), a.2.2)

/-- The entries of one core come in ascending order. -/
def CoreOrdered (es : List (Int × Ptr)) : Prop :=
  es.Pairwise (fun a b => a.1 / 64 = b.1 / 64 → a.1 < b.1)

/-- The two bitmap levels and the binary search hand every reader the same version. -/
def RowRegion.ReadsAs (r : RowRegion) (g : GlobalVersionArray) : Prop :=
  ∀ s : Nat, match r.identifyVisibleVersion (getCoreSerial s) (getTxSerial s) with
    | some (core, tx) => ∃ v, (r.arrays core).get tx = some v ∧
        g.searchVisibleVersion s = some (((core * 64 + tx : Nat) : Int), v)
    | none => g.searchVisibleVersion s = none

/-- `pop_final_state` pops one of the 64 arrays, and returns what the other
representation returns. -/
def RowRegion.PopsAs (r : RowRegion) (g : GlobalVersionArray) : Prop :=
  (∃ core : Nat, core < 64 ∧ findTheLargest r.coreBitmap = (core : Int)) ∧
    r.popFinalState.1.2 = g.popFinalState.1.map Prod.snd

section Append
variable {r : RowRegion}

/-- The region ends up holding every entry it was given. -/
theorem appendVersions_spec {more : List (Nat × Nat × Ptr)} (heap : Heap) (hp : r.Populated)
    (h64 : ∀ a ∈ more, a.1 < 64 ∧ a.2.1 < 64) (hord : CoreOrdered (more.map entryOf))
    (hbelow : ∀ e ∈ r.entries, ∀ a ∈ more.map entryOf, e.1 / 64 = a.1 / 64 → e.1 < a.1) :
    (appendVersions more (r, heap)).1.Populated ∧
      (appendVersions more (r, heap)).1.entries.Perm (r.entries ++ more.map entryOf) := by
  induction more generalizing r heap with
  | nil => exact ⟨hp, by simp [appendVersions]⟩
  | cons a more ih =>
    obtain ⟨core, tx, version⟩ := a
    obtain ⟨hc, htx⟩ := h64 _ List.mem_cons_self
    obtain ⟨hfirst, hrest⟩ := List.pairwise_cons.mp hord
    have hcore : ∀ e ∈ r.entries, e.1 / 64 = (core : Int) →
        e.1 < ((core * 64 + tx : Nat) : Int) := by
      intro e he heq
      refine hbelow e he _ List.mem_cons_self ?_
      simp only [entryOf] at htx ⊢
      omega
    have ha := RowRegion.append_spec version heap hp.wellFormed hc htx
      (fun hb => RowRegion.tx_lt_of_entries tx hp.wellFormed hb hcore)
    rw [appendVersions]
    generalize r.append core version tx heap = next at ha ⊢
    obtain ⟨r', heap'⟩ := next
    have hbelow' : ∀ e ∈ r'.entries, ∀ a ∈ more.map entryOf, e.1 / 64 = a.1 / 64 →
        e.1 < a.1 := by
      intro e he a hm
      rw [ha.entries, mem_insertEntry] at he
      rcases he with rfl | he
      · exact hfirst a hm
      · exact hbelow e he a (List.mem_cons_of_mem _ hm)
    obtain ⟨hpop, hperm⟩ := ih heap' (hp.append ha)
      (fun a hm => h64 a (List.mem_cons_of_mem _ hm)) hrest hbelow'
    refine ⟨hpop, hperm.trans ?_⟩
    rw [ha.entries, List.map_cons]
    exact ((insertEntry_perm _ _ _).append_right _).trans List.perm_middle.symm

end Append

section Agree
variable {g g' : GlobalVersionArray} {heap : Heap} {more : List (Nat × Nat × Ptr)}

/-- A region that took over an array and then served further appends holds exactly
the entries of the array that served them all. -/
theorem region_entries (heap : Heap) (hasc : Ascending g.idsSlots)
    (hr : ∀ e ∈ g.idsSlots, 0 ≤ e.1 ∧ e.1 < 4096)
    (h64 : ∀ a ∈ more, a.1 < 64 ∧ a.2.1 < 64)
    (hord : CoreOrdered (g.idsSlots ++ more.map entryOf)) (hasc' : Ascending g'.idsSlots)
    (hperm : g'.idsSlots.Perm (g.idsSlots ++ more.map entryOf)) :
    (appendVersions more (moveGlobalArrayToRowRegion g RowRegion.fresh heap).2).1.Populated ∧
      (appendVersions more (moveGlobalArrayToRowRegion g RowRegion.fresh heap).2).1.entries =
        g'.idsSlots := by
  obtain ⟨region, hmove, hpop, _, hent, _⟩ := @move_spec g heap hasc hr
  obtain ⟨_, hmore, hbelow⟩ := List.pairwise_append.mp hord
  rw [hmove]
  obtain ⟨hpop', hperm'⟩ := appendVersions_spec heap hpop h64 hmore (by rwa [hent])
  rw [hent] at hperm'
  refine ⟨hpop', (RowRegion.entries_ascending _).ext hasc' ?_⟩
  intro e
  rw [hperm'.mem_iff, hperm.mem_iff]

theorem reads_agree {r : RowRegion} (hpop : r.Populated) (hent : r.entries = g.idsSlots) :
    r.ReadsAs g := by
  intro s
  have hid : getCoreSerial s * 64 + getTxSerial s = s := by
    unfold getCoreSerial getTxSerial
    omega
  have hs := @RowRegion.identify_spec r (getCoreSerial s) (getTxSerial s) hpop
    (Nat.mod_lt _ (by omega))
  have hsearch := g.search_eq (hent ▸ r.entries_ascending) s
  rw [hid, hent, ← hsearch] at hs
  exact hs

theorem pops_agree {r : RowRegion} (hpop : r.Populated) (hent : r.entries = g.idsSlots)
    (hne : g.idsSlots ≠ []) : r.PopsAs g := by
  have hcore : r.coreBitmap ≠ 0 := by
    intro hz
    apply hne
    rw [← hent, RowRegion.entries, positions_eq_nil.mpr hz]
    rfl
  obtain ⟨m, hm, hbit, _⟩ := largest_of_ne_zero hcore
  obtain ⟨i, p, hlast, hp, _⟩ := RowRegion.popFinalState_spec hpop
    (by simpa [RowRegion.isDirty] using hcore)
  refine ⟨⟨m, lt_of_getMsbD hbit, hm⟩, ?_⟩
  rw [hp, GlobalVersionArray.popFinalState, ← hent, hlast]
  rfl

/-- Both representations of a row hand out the same version to every reader, and
the same final state once there is one. -/
theorem representations_agree (hasc : Ascending g.idsSlots)
    (hr : ∀ e ∈ g.idsSlots, 0 ≤ e.1 ∧ e.1 < 4096) (h64 : ∀ a ∈ more, a.1 < 64 ∧ a.2.1 < 64)
    (hord : CoreOrdered (g.idsSlots ++ more.map entryOf)) (hasc' : Ascending g'.idsSlots)
    (hperm : g'.idsSlots.Perm (g.idsSlots ++ more.map entryOf)) :
    let region := (appendVersions more (moveGlobalArrayToRowRegion g RowRegion.fresh heap).2).1
    region.ReadsAs g' ∧ (g'.idsSlots ≠ [] → region.PopsAs g') := by
  obtain ⟨hpop, hent⟩ := region_entries heap hasc hr h64 hord hasc' hperm
  exact ⟨reads_agree hpop hent, pops_agree hpop hent⟩

/-- Two versions taken over, then one more of the first core and one of the last. -/
theorem grown_region_agrees :
    let region := (appendVersions [(0, 9, 3), (63, 0, 4)]
      (moveGlobalArrayToRowRegion ⟨[(5, 1), (70, 2)]⟩ RowRegion.fresh loadedRow.heap).2).1
    region.ReadsAs ⟨[(5, 1), (9, 3), (70, 2), (4032, 4)]⟩ ∧
      (([(5, 1), (9, 3), (70, 2), (4032, 4)] : List (Int × Ptr)) ≠ [] →
        region.PopsAs ⟨[(5, 1), (9, 3), (70, 2), (4032, 4)]⟩) :=
  representations_agree (by simp [Ascending]) (by simp) (by simp)
    (by simp [CoreOrdered, entryOf]) (by simp [Ascending]) (by decide)

/-- A region that nothing was appended to has no array to pop. -/
theorem empty_region_pops :
    let region := (appendVersions []
      (moveGlobalArrayToRowRegion ⟨[]⟩ RowRegion.fresh loadedRow.heap).2).1
    ¬ (region.ReadsAs ⟨[]⟩ ∧ region.PopsAs ⟨[]⟩) := by
  intro region hall
  obtain ⟨⟨core, hlt, hcore⟩, _⟩ := hall.2
  have hlargest : findTheLargest region.coreBitmap = 64 := by decide
  omega

end Agree
end Mvdcc.Serval
