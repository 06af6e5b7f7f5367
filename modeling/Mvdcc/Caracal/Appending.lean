import Mathlib.Algebra.Order.Group.Multiset
import Mathlib.Tactic.Abel
import Mvdcc.Caracal.Exclusion

namespace Mvdcc.Caracal
open Library

section Definitions
variable (W : List Nat) (e : Nat) (before slots : List (Nat × Ptr))
variable (slices : Nat → List (Nat × Ptr)) (held : Nat → Option Ptr)

def ofEpoch : List (Nat × Ptr) :=
  slots.filter (fun x => decide (convertToSerialIdWithEpoch e 0 ≤ x.1))

/-- The versions that the epoch's writes have created so far, under their ids. -/
def createdEntries : List (Nat × Ptr) :=
  W.filterMap (fun s => (held s).map (fun v => (convertToSerialIdWithEpoch e s, v)))

/-- An array between two epochs. -/
structure Ready : Prop where
  nonempty : before ≠ []
  ascending : Ascending before
  below : ∀ x ∈ before, x.1 < convertToSerialIdWithEpoch e 0

/-- A row in the initialization phase: its array is as before, or collected and
followed by versions of the epoch, and what the epoch has created is in the array
or in the slices. -/
structure Appending : Prop where
  ascending : Ascending slots
  array : slots = before ∨
    (W ≠ [] ∧ ∃ last, before.getLast? = some last ∧ slots = last :: ofEpoch e slots)
  entries : (ofEpoch e slots : Multiset (Nat × Ptr)) + ∑ c ∈ cores, (slices c : Multiset (Nat × Ptr)) =
    (createdEntries W e held : Multiset (Nat × Ptr))

end Definitions

section Lists
variable {W : List Nat} {e s : Nat} {before slots es : List (Nat × Ptr)} {last : Nat × Ptr}
variable {slices slices' : Nat → List (Nat × Ptr)} {held held' : Nat → Option Ptr} {v : Ptr}

theorem mem_ofEpoch {x : Nat × Ptr} :
    x ∈ ofEpoch e slots ↔ x ∈ slots ∧ convertToSerialIdWithEpoch e 0 ≤ x.1 := by
  simp [ofEpoch]

theorem serial_lt_word {s : Nat} (h : s < numTxsInOneEpoch) : s < 2 ^ 32 := by
  unfold numTxsInOneEpoch at h
  omega

theorem mem_createdEntries {x : Nat × Ptr} : x ∈ createdEntries W e held ↔
    ∃ s ∈ W, held s = some x.2 ∧ x.1 = convertToSerialIdWithEpoch e s := by
  simp only [createdEntries, List.mem_filterMap, Option.map_eq_some_iff]
  constructor
  · rintro ⟨s, hs, v, hv, rfl⟩
    exact ⟨s, hs, hv, rfl⟩
  · rintro ⟨s, hs, hv, hi⟩
    exact ⟨s, hs, x.2, hv, by rw [← hi]⟩

/-- Created entries carry ids of the epoch. -/
theorem le_of_created (hlt : ∀ s ∈ W, s < numTxsInOneEpoch) {x : Nat × Ptr}
    (hx : x ∈ createdEntries W e held) : convertToSerialIdWithEpoch e 0 ≤ x.1 := by
  obtain ⟨s, hs, _, hi⟩ := mem_createdEntries.mp hx
  rw [hi, convert_add (serial_lt_word (hlt s hs))]
  exact Nat.le_add_right _ _

theorem createdEntries_ascending (hW : W.Pairwise (· < ·)) (hlt : ∀ s ∈ W, s < numTxsInOneEpoch) :
    Ascending (createdEntries W e held) := by
  unfold createdEntries Ascending
  rw [List.pairwise_filterMap]
  refine hW.imp_of_mem ?_
  intro s s' hs hs' hlt' x hx y hy
  obtain ⟨_, _, rfl⟩ := Option.map_eq_some_iff.mp hx
  obtain ⟨_, _, rfl⟩ := Option.map_eq_some_iff.mp hy
  simp only
  rw [convert_add (serial_lt_word (hlt s hs)), convert_add (serial_lt_word (hlt s' hs'))]
  omega

/-- A write that creates its version adds one entry. -/
theorem createdEntries_create (hW : W.Nodup) (hs : s ∈ W) (hnone : held s = none)
    (hself : held' s = some v) (hother : ∀ s' ∈ W, s' ≠ s → held' s' = held s') :
    (createdEntries W e held' : Multiset (Nat × Ptr)) =
      (convertToSerialIdWithEpoch e s, v) ::ₘ (createdEntries W e held : Multiset (Nat × Ptr)) := by
  have hperm := filterMap_update_perm hW hs
    (f := fun s => (held s).map (fun v => (convertToSerialIdWithEpoch e s, v))) (by simp [hnone])
    (convertToSerialIdWithEpoch e s, v)
  rw [Multiset.cons_coe, Multiset.coe_eq_coe]
  refine List.Perm.trans (List.Perm.of_eq ?_) hperm
  apply List.filterMap_congr
  intro s' hs'
  by_cases he : s' = s
  · rw [he, hself, Function.update_self]
    rfl
  · rw [Function.update_of_ne he, hother s' hs' he]

theorem ofEpoch_append (hbelow : ∀ x ∈ slots, x.1 < convertToSerialIdWithEpoch e 0)
    (habove : ∀ x ∈ es, convertToSerialIdWithEpoch e 0 ≤ x.1) : ofEpoch e (slots ++ es) = es := by
  unfold ofEpoch
  rw [List.filter_append, List.filter_eq_nil_iff.mpr, List.filter_eq_self.mpr, List.nil_append]
  · simpa using habove
  · intro x hx
    simpa using hbelow x hx

theorem Ready.last_mem (h : Ready e before) : ∃ last, before.getLast? = some last ∧
    last.1 < convertToSerialIdWithEpoch e 0 := by
  cases hl : before.getLast? with
  | none => exact absurd (List.getLast?_eq_none_iff.mp hl) h.nonempty
  | some last => exact ⟨last, rfl, h.below last (List.mem_of_getLast? hl)⟩

/-- At the start of the phase nothing is created yet. -/
theorem Ready.appending (h : Ready e before) (hheld : ∀ s ∈ W, held s = none) :
    Appending W e before before (fun _ => []) held := by
  refine ⟨h.ascending, Or.inl rfl, ?_⟩
  have hold : ofEpoch e before = [] := by
    have : ofEpoch e (before ++ []) = [] := ofEpoch_append h.below (by simp)
    rwa [List.append_nil] at this
  have hnew : createdEntries W e held = [] := by
    apply List.eq_nil_iff_forall_not_mem.mpr
    intro x hx
    obtain ⟨s, hs, hv, _⟩ := mem_createdEntries.mp hx
    rw [hheld s hs] at hv
    cases hv
  rw [hold, hnew]
  simp

/-- The slices of a row with one worker's slice replaced. -/
theorem sum_slices (slices : Nat → List (Nat × Ptr)) {w : Nat} (hw : w < 64) (l : List (Nat × Ptr)) :
    ∑ c ∈ cores, (Function.update slices w l c : Multiset (Nat × Ptr)) + (slices w : Multiset (Nat × Ptr)) =
      ∑ c ∈ cores, (slices c : Multiset (Nat × Ptr)) + (l : Multiset (Nat × Ptr)) :=
  sum_update (fun l : List (Nat × Ptr) => (l : Multiset (Nat × Ptr))) slices (mem_cores.mpr hw) l

namespace Appending

/-- What collection leaves, and what it deletes. -/
theorem collect (h : Appending W e before slots slices held) (hr : Ready e before) (heap : Heap) :
    ∃ removed last, before.getLast? = some last ∧ slots = removed ++ last :: ofEpoch e slots ∧
      (∀ x ∈ removed, x ∈ before) ∧
      GlobalVersionArray.minorGcLoop (convertToSerialIdWithEpoch e 0) slots heap =
        (last :: ofEpoch e slots, heap.deleteAll (removed.map Prod.snd)) := by
  obtain ⟨last, hlast, hlt⟩ := hr.last_mem
  have hnew : ∀ x ∈ ofEpoch e slots, convertToSerialIdWithEpoch e 0 ≤ x.1 :=
    fun x hx => (mem_ofEpoch.mp hx).2
  rcases h.array with hs | ⟨_, last', hlast', hs⟩
  · obtain ⟨removed, hinit⟩ := List.getLast?_eq_some_iff.mp hlast
    have hnil : ofEpoch e slots = [] := by
      rw [hs]
      have : ofEpoch e (before ++ []) = [] := ofEpoch_append hr.below (by simp)
      rwa [List.append_nil] at this
    have hremoved : ∀ x ∈ removed, x ∈ before := by
      intro x hx
      rw [hinit]
      exact List.mem_append_left _ hx
    rw [hnil]
    refine ⟨removed, last, hlast, hs.trans hinit, hremoved, ?_⟩
    rw [hs, hinit]
    exact GlobalVersionArray.minorGcLoop_eq
      (fun x hx => hr.below x (hremoved x hx)) hlt (by simp)
  · have heq : last' = last := Option.some.inj (hlast'.symm.trans hlast)
    subst heq
    refine ⟨[], last', hlast, hs, by simp, ?_⟩
    conv_lhs => rw [hs]
    exact @GlobalVersionArray.minorGcLoop_eq (convertToSerialIdWithEpoch e 0) [] _ last' heap
      (by simp) hlt hnew

/-- The array after collection and the insertion of some entries. -/
theorem insert (h : Appending W e before slots slices held) (hr : Ready e before)
    (hW : W.Pairwise (· < ·)) (hlt : ∀ s ∈ W, s < numTxsInOneEpoch) (hne : W ≠ [])
    (hlast : before.getLast? = some last)
    (hbalance : (es : Multiset (Nat × Ptr)) + (ofEpoch e slots : Multiset (Nat × Ptr)) +
      ∑ c ∈ cores, (slices' c : Multiset (Nat × Ptr)) =
        (createdEntries W e held' : Multiset (Nat × Ptr))) :
    ofEpoch e (insertAll es (last :: ofEpoch e slots)) = insertAll es (ofEpoch e slots) ∧
    Appending W e before (insertAll es (last :: ofEpoch e slots)) slices' held' := by
  have hbelow : last.1 < convertToSerialIdWithEpoch e 0 :=
    hr.below last (List.mem_of_getLast? hlast)
  have hcreated : Ascending (createdEntries W e held') := createdEntries_ascending hW hlt
  have hle : ((es ++ ofEpoch e slots : List (Nat × Ptr)) : Multiset (Nat × Ptr)) ≤
      (createdEntries W e held' : Multiset (Nat × Ptr)) := by
    rw [← hbalance, ← Multiset.coe_add]
    exact Multiset.le_add_right _ _
  have hnodup : ((es ++ ofEpoch e slots).map Prod.fst).Nodup := by
    have hkeys : ((createdEntries W e held').map Prod.fst).Nodup :=
      List.pairwise_map.mpr (hcreated.imp Nat.ne_of_lt)
    have hsub := Multiset.map_le_map (f := Prod.fst) hle
    exact Multiset.coe_nodup.mp (Multiset.nodup_of_le hsub (Multiset.coe_nodup.mpr hkeys))
  have habove : ∀ x ∈ insertAll es (ofEpoch e slots), convertToSerialIdWithEpoch e 0 ≤ x.1 := by
    intro x hx
    have hm := (insertAll_perm es (ofEpoch e slots)).mem_iff.mp hx
    exact le_of_created hlt (Multiset.mem_of_le hle (Multiset.mem_coe.mpr hm))
  have hnew : Ascending (ofEpoch e slots) := h.ascending.sublist List.filter_sublist
  have hsplit : insertAll es (last :: ofEpoch e slots) = last :: insertAll es (ofEpoch e slots) := by
    refine insertAll_append (l := [last]) ?_ (ofEpoch e slots)
    intro x hx y hy
    rw [List.mem_singleton.mp hy]
    have hm : x ∈ es ++ ofEpoch e slots := List.mem_append_left _ hx
    exact Nat.le_trans (Nat.le_of_lt hbelow)
      (le_of_created hlt (Multiset.mem_of_le hle (Multiset.mem_coe.mpr hm)))
  have hof : ofEpoch e (insertAll es (last :: ofEpoch e slots)) = insertAll es (ofEpoch e slots) := by
    rw [hsplit]
    have hone : ∀ x ∈ [last], x.1 < convertToSerialIdWithEpoch e 0 := by simpa using hbelow
    exact ofEpoch_append hone habove
  refine ⟨hof, ?_, ?_, ?_⟩
  · rw [hsplit]
    refine List.pairwise_cons.mpr ⟨?_, hnew.insertAll hnodup⟩
    intro x hx
    exact Nat.lt_of_lt_of_le hbelow (habove x hx)
  · exact Or.inr ⟨hne, last, hlast, by rw [hof, hsplit]⟩
  · have hperm : (insertAll es (ofEpoch e slots) : Multiset (Nat × Ptr)) =
        (es : Multiset (Nat × Ptr)) + (ofEpoch e slots : Multiset (Nat × Ptr)) := by
      rw [Multiset.coe_add, Multiset.coe_eq_coe]
      exact insertAll_perm _ _
    rw [hof, hperm]
    exact hbalance

/-- An entry that goes into a slice. -/
theorem buffer (h : Appending W e before slots slices held) {w : Nat} (hw : w < 64)
    (hcreated : (createdEntries W e held' : Multiset (Nat × Ptr)) =
      (convertToSerialIdWithEpoch e s, v) ::ₘ (createdEntries W e held : Multiset (Nat × Ptr))) :
    Appending W e before slots
      (Function.update slices w (insertEntry (convertToSerialIdWithEpoch e s) v (slices w)))
      held' := by
  refine ⟨h.ascending, h.array, ?_⟩
  have hsum := sum_slices slices hw
    (insertEntry (convertToSerialIdWithEpoch e s) v (slices w))
  have hinsert : (insertEntry (convertToSerialIdWithEpoch e s) v (slices w) : Multiset (Nat × Ptr)) =
      (convertToSerialIdWithEpoch e s, v) ::ₘ (slices w : Multiset (Nat × Ptr)) := by
    rw [Multiset.cons_coe, Multiset.coe_eq_coe]
    exact insertEntry_perm _ _ _
  rw [hinsert, ← Multiset.singleton_add, ← add_assoc] at hsum
  rw [add_right_cancel hsum, hcreated, ← h.entries, ← Multiset.singleton_add]
  abel

/-- A slice that goes into the array. -/
theorem flush (h : Appending W e before slots slices held) (hr : Ready e before)
    (hW : W.Pairwise (· < ·)) (hlt : ∀ s ∈ W, s < numTxsInOneEpoch) (hne : W ≠ [])
    (hlast : before.getLast? = some last) {w : Nat} (hw : w < 64) :
    Appending W e before (insertAll (slices w) (last :: ofEpoch e slots))
      (Function.update slices w []) held := by
  have hsum := sum_slices slices hw []
  rw [Multiset.coe_nil, add_zero] at hsum
  refine (h.insert hr hW hlt hne hlast ?_).2
  rw [← h.entries, ← hsum]
  abel

/-- An entry that goes into the array. -/
theorem append (h : Appending W e before slots slices held) (hr : Ready e before)
    (hW : W.Pairwise (· < ·)) (hlt : ∀ s ∈ W, s < numTxsInOneEpoch) (hne : W ≠ [])
    (hlast : before.getLast? = some last)
    (hcreated : (createdEntries W e held' : Multiset (Nat × Ptr)) =
      (convertToSerialIdWithEpoch e s, v) ::ₘ (createdEntries W e held : Multiset (Nat × Ptr))) :
    Appending W e before
      (insertEntry (convertToSerialIdWithEpoch e s) v (last :: ofEpoch e slots)) slices held' := by
  have hbalance : ([(convertToSerialIdWithEpoch e s, v)] : Multiset (Nat × Ptr)) +
      (ofEpoch e slots : Multiset (Nat × Ptr)) + ∑ c ∈ cores, (slices c : Multiset (Nat × Ptr)) =
        (createdEntries W e held' : Multiset (Nat × Ptr)) := by
    rw [hcreated, ← h.entries, Multiset.coe_singleton, ← Multiset.singleton_add]
    abel
  exact (h.insert hr hW hlt hne hlast hbalance).2

/-- When the slices are empty and every write has its version, the array holds the
last entry of before and the epoch's versions in the order of their ids. -/
theorem finish (h : Appending W e before slots slices held) (hr : Ready e before)
    (hW : W.Pairwise (· < ·)) (hlt : ∀ s ∈ W, s < numTxsInOneEpoch)
    (hempty : ∀ c < 64, slices c = []) (hheld : ∀ s ∈ W, held s ≠ none) :
    (W = [] → slots = before) ∧
    (W ≠ [] → ∃ last new, before.getLast? = some last ∧ slots = last :: new ∧
      new.map Prod.fst = W.map (convertToSerialIdWithEpoch e) ∧
      new.map (fun x => some x.2) = W.map held) := by
  have hsum : ∑ c ∈ cores, (slices c : Multiset (Nat × Ptr)) = 0 :=
    Finset.sum_eq_zero (fun c hc => by rw [hempty c (mem_cores.mp hc)]; rfl)
  have hentries := h.entries
  rw [hsum, add_zero, Multiset.coe_eq_coe] at hentries
  have hnew : ofEpoch e slots = createdEntries W e held :=
    Ascending.ext (h.ascending.sublist List.filter_sublist) (createdEntries_ascending hW hlt)
      (fun x => hentries.mem_iff)
  have hmaps : (createdEntries W e held).map Prod.fst = W.map (convertToSerialIdWithEpoch e) ∧
      (createdEntries W e held).map (fun x => some x.2) = W.map held := by
    unfold createdEntries
    clear hW hlt h hr hentries hnew
    induction W with
    | nil => exact ⟨rfl, rfl⟩
    | cons s W ih =>
      obtain ⟨v, hv⟩ := Option.ne_none_iff_exists'.mp (hheld s List.mem_cons_self)
      obtain ⟨h1, h2⟩ := ih (fun s hs => hheld s (List.mem_cons_of_mem _ hs))
      simp [hv, h1, h2]
  constructor
  · intro hnil
    rcases h.array with hs | ⟨hne, _⟩
    · exact hs
    · exact absurd hnil hne
  · intro hne
    rcases h.array with hs | ⟨_, last, hlast, hs⟩
    · exfalso
      obtain ⟨s, hsW⟩ := List.exists_mem_of_ne_nil W hne
      obtain ⟨v, hv⟩ := Option.ne_none_iff_exists'.mp (hheld s hsW)
      have hm : (convertToSerialIdWithEpoch e s, v) ∈ ofEpoch e slots := by
        rw [hnew]
        exact mem_createdEntries.mpr ⟨s, hsW, hv, rfl⟩
      obtain ⟨hm, hle⟩ := mem_ofEpoch.mp hm
      exact Nat.lt_irrefl _ (Nat.lt_of_lt_of_le (hr.below _ (hs ▸ hm)) hle)
    · rw [hnew] at hs
      exact ⟨last, _, hlast, hs, hmaps.1, hmaps.2⟩

end Appending
end Lists

section Versions
variable (W : List Nat) (before : List (Nat × Ptr)) (home : Multiset Ptr) (held : Nat → Option Ptr)
variable (heap : Heap) (x : Version)

/-- Where the versions of a row are. -/
def homeOf (slots : List (Nat × Ptr)) (slices : Nat → List (Nat × Ptr)) : Multiset Ptr :=
  (slots.map Prod.snd : Multiset Ptr) + ∑ c ∈ cores, ((slices c).map Prod.snd : Multiset Ptr)

/-- Every version ever created is reclaimed or has one home; those of before the
epoch are finished and the last of them is `x`, those of the epoch are pending. -/
structure Storing : Prop where
  places : (heap.freed : Multiset Ptr) + home = Multiset.range heap.next
  clean : heap.CleanLog
  old : ∀ y ∈ before, y.2 < heap.next ∧ heap.Finished y.2
  base : ∀ last, before.getLast? = some last → heap.version last.2 = x
  pending : ∀ s ∈ W, ∀ v, held s = some v → v < heap.next ∧ heap.version v = ⟨none, .pending⟩

namespace Storing
variable {W : List Nat} {before : List (Nat × Ptr)} {home : Multiset Ptr} {s : Nat}
variable {held held' : Nat → Option Ptr} {heap : Heap} {x : Version}

/-- A version is created and given a home. -/
theorem create (h : Storing W before home held heap x)
    (hself : held' s = some heap.next) (hother : ∀ s' ∈ W, s' ≠ s → held' s' = held s') :
    Storing W before (heap.next ::ₘ home) held' heap.createPendingVersion.2 x := by
  have hsame : ∀ y ∈ before, heap.createPendingVersion.2.version y.2 = heap.version y.2 :=
    fun y hy => Heap.createPendingVersion_old (h.old y hy).1
  refine ⟨?_, h.clean, ?_, ?_, ?_⟩
  · rw [Heap.createPendingVersion_freed, Heap.createPendingVersion_next, Multiset.range_succ,
      ← h.places, Multiset.add_cons]
  · intro y hy
    refine ⟨Nat.lt_succ_of_lt (h.old y hy).1, ?_⟩
    unfold Heap.Finished
    rw [hsame y hy]
    exact (h.old y hy).2
  · intro last hlast
    rw [hsame last (List.mem_of_getLast? hlast)]
    exact h.base last hlast
  · intro s' hs' v hv
    by_cases he : s' = s
    · rw [he, hself, Option.some.injEq] at hv
      subst hv
      exact ⟨Nat.lt_succ_self _, by rw [Heap.createPendingVersion_version, if_pos rfl]⟩
    · rw [hother s' hs' he] at hv
      obtain ⟨hlt, hver⟩ := h.pending s' hs' v hv
      exact ⟨Nat.lt_succ_of_lt hlt, by rw [Heap.createPendingVersion_old hlt, hver]⟩

/-- Versions of before the epoch lose their home. -/
theorem collect {removed : List (Nat × Ptr)}
    (h : Storing W before ((removed.map Prod.snd : Multiset Ptr) + home) held heap x)
    (hremoved : ∀ y ∈ removed, y ∈ before) :
    Storing W before home held (heap.deleteAll (removed.map Prod.snd)) x := by
  refine ⟨?_, h.clean.deleteAll ?_, ?_, ?_, ?_⟩
  · rw [Heap.deleteAll_freed, Heap.deleteAll_next, ← h.places, ← Multiset.coe_add, add_assoc]
  · intro p hp
    obtain ⟨y, hy, rfl⟩ := List.mem_map.mp hp
    exact (h.old y (hremoved y hy)).2
  · intro y hy
    unfold Heap.Finished
    rw [Heap.deleteAll_version, Heap.deleteAll_next]
    exact h.old y hy
  · intro last hlast
    rw [Heap.deleteAll_version]
    exact h.base last hlast
  · intro s hs v hv
    rw [Heap.deleteAll_version, Heap.deleteAll_next]
    exact h.pending s hs v hv

end Storing

section Homes
variable {slots es : List (Nat × Ptr)} {slices : Nat → List (Nat × Ptr)} {w : Nat}

theorem sum_homes (slices : Nat → List (Nat × Ptr)) (hw : w < 64) (l : List (Nat × Ptr)) :
    ∑ c ∈ cores, ((Function.update slices w l c).map Prod.snd : Multiset Ptr) +
        ((slices w).map Prod.snd : Multiset Ptr) =
      ∑ c ∈ cores, ((slices c).map Prod.snd : Multiset Ptr) + (l.map Prod.snd : Multiset Ptr) :=
  sum_update (fun l : List (Nat × Ptr) => (l.map Prod.snd : Multiset Ptr)) slices
    (mem_cores.mpr hw) l

theorem homeOf_insertEntry (i : Nat) (v : Ptr) :
    homeOf (insertEntry i v slots) slices = v ::ₘ homeOf slots slices := by
  have hperm : ((insertEntry i v slots).map Prod.snd : Multiset Ptr) =
      v ::ₘ (slots.map Prod.snd : Multiset Ptr) := by
    rw [Multiset.cons_coe, Multiset.coe_eq_coe]
    exact (insertEntry_perm i v slots).map Prod.snd
  unfold homeOf
  rw [hperm, Multiset.cons_add]

theorem homeOf_buffer (hw : w < 64) (i : Nat) (v : Ptr) :
    homeOf slots (Function.update slices w (insertEntry i v (slices w))) =
      v ::ₘ homeOf slots slices := by
  have hsum := sum_homes slices hw (insertEntry i v (slices w))
  have hinsert : ((insertEntry i v (slices w)).map Prod.snd : Multiset Ptr) =
      v ::ₘ ((slices w).map Prod.snd : Multiset Ptr) := by
    rw [Multiset.cons_coe, Multiset.coe_eq_coe]
    exact (insertEntry_perm i v (slices w)).map Prod.snd
  rw [hinsert, ← Multiset.singleton_add, ← add_assoc] at hsum
  unfold homeOf
  rw [add_right_cancel hsum, ← Multiset.singleton_add]
  abel

theorem homeOf_flush (hw : w < 64) :
    homeOf (insertAll (slices w) slots) (Function.update slices w []) = homeOf slots slices := by
  have hsum := sum_homes slices hw []
  have hinsert : ((insertAll (slices w) slots).map Prod.snd : Multiset Ptr) =
      ((slices w).map Prod.snd : Multiset Ptr) + (slots.map Prod.snd : Multiset Ptr) := by
    rw [Multiset.coe_add, Multiset.coe_eq_coe, ← List.map_append]
    exact (insertAll_perm (slices w) slots).map Prod.snd
  rw [List.map_nil, Multiset.coe_nil, add_zero] at hsum
  unfold homeOf
  rw [hinsert, ← hsum]
  abel

theorem homeOf_append (removed : List (Nat × Ptr)) :
    homeOf (removed ++ slots) slices =
      (removed.map Prod.snd : Multiset Ptr) + homeOf slots slices := by
  unfold homeOf
  rw [List.map_append, ← Multiset.coe_add, add_assoc]

end Homes
end Versions

/-- What a row's versions are kept in, and what its writes have created. -/
structure RowData where
  slots : List (Nat × Ptr)
  heap : Heap
  slices : Nat → List (Nat × Ptr)
  held : Nat → Option Ptr

/-- What `minor_gc` makes of the array and the heap. -/
def RowData.minorGc (d : RowData) (e : Nat) (heap : Heap) : List (Nat × Ptr) × Heap :=
  GlobalVersionArray.minorGcLoop (convertToSerialIdWithEpoch e 0) d.slots heap

/-- The ways in which worker `w` changes a row in the initialization phase. -/
inductive RowMove (W : List Nat) (e w : Nat) (d : RowData) : RowData → Prop
  | stay : RowMove W e w d d
  | append (s : Nat) : s ∈ W → d.held s = none →
      RowMove W e w d ⟨insertEntry (convertToSerialIdWithEpoch e s) d.heap.next
          (d.minorGc e d.heap.createPendingVersion.2).1,
        (d.minorGc e d.heap.createPendingVersion.2).2, d.slices,
        Function.update d.held s (some d.heap.next)⟩
  | buffer (s : Nat) : s ∈ W → d.held s = none →
      RowMove W e w d ⟨d.slots, d.heap.createPendingVersion.2,
        Function.update d.slices w
          (insertEntry (convertToSerialIdWithEpoch e s) d.heap.next (d.slices w)),
        Function.update d.held s (some d.heap.next)⟩
  | flush : W ≠ [] →
      RowMove W e w d ⟨insertAll (d.slices w) (d.minorGc e d.heap).1, (d.minorGc e d.heap).2,
        Function.update d.slices w [], d.held⟩

section Moves
variable {W : List Nat} {e w : Nat} {d d' : RowData} {before : List (Nat × Ptr)} {x : Version}

theorem RowMove.appending (h : RowMove W e w d d') (hr : Ready e before)
    (hW : W.Pairwise (· < ·)) (hlt : ∀ s ∈ W, s < numTxsInOneEpoch) (hw : w < 64)
    (ha : Appending W e before d.slots d.slices d.held) :
    Appending W e before d'.slots d'.slices d'.held := by
  cases h with
  | stay => exact ha
  | append s hs hnone =>
    obtain ⟨removed, last, hlast, _, _, hgc⟩ := ha.collect hr d.heap.createPendingVersion.2
    have hcreated := createdEntries_create (e := e) (v := d.heap.next) (hW.imp Nat.ne_of_lt) hs hnone
      (Function.update_self _ _ _) (fun s' _ hne => Function.update_of_ne hne _ _)
    simp only [RowData.minorGc, hgc]
    exact ha.append hr hW hlt (List.ne_nil_of_mem hs) hlast hcreated
  | buffer s hs hnone =>
    exact ha.buffer hw (createdEntries_create (hW.imp Nat.ne_of_lt) hs hnone
      (Function.update_self _ _ _) (fun s' _ hne => Function.update_of_ne hne _ _))
  | flush hne =>
    obtain ⟨removed, last, hlast, _, _, hgc⟩ := ha.collect hr d.heap
    simp only [RowData.minorGc, hgc]
    exact ha.flush hr hW hlt hne hlast hw

theorem RowMove.storing (h : RowMove W e w d d') (hr : Ready e before) (hw : w < 64)
    (ha : Appending W e before d.slots d.slices d.held)
    (hst : Storing W before (homeOf d.slots d.slices) d.held d.heap x) :
    Storing W before (homeOf d'.slots d'.slices) d'.held d'.heap x := by
  cases h with
  | stay => exact hst
  | append s hs hnone =>
    obtain ⟨removed, last, _, hsplit, hremoved, hgc⟩ :=
      ha.collect hr d.heap.createPendingVersion.2
    have hc := hst.create (s := s) (Function.update_self s (some d.heap.next) d.held)
      (fun s' _ hne => Function.update_of_ne hne _ _)
    rw [hsplit, homeOf_append, ← Multiset.add_cons] at hc
    simp only [RowData.minorGc, hgc, homeOf_insertEntry]
    exact hc.collect hremoved
  | buffer s hs hnone =>
    simp only [homeOf_buffer hw]
    exact hst.create (Function.update_self s (some d.heap.next) d.held)
      (fun s' _ hne => Function.update_of_ne hne _ _)
  | flush hne =>
    obtain ⟨removed, last, _, hsplit, hremoved, hgc⟩ := ha.collect hr d.heap
    rw [hsplit, homeOf_append] at hst
    simp only [RowData.minorGc, hgc, homeOf_flush hw]
    exact hst.collect hremoved

end Moves
end Mvdcc.Caracal
