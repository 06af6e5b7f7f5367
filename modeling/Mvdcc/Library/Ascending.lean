import Mathlib.Data.List.Sort
import Mathlib.Order.Basic

namespace Mvdcc.Library

variable {κ : Type u} {ν : Type v} [LinearOrder κ]

/-- Strictly ascending lists are determined by their members. -/
theorem pairwise_lt_ext {l l' : List κ} (h : l.Pairwise (· < ·)) (h' : l'.Pairwise (· < ·))
    (hm : ∀ i, i ∈ l ↔ i ∈ l') : l = l' := by
  have hp : l.Perm l' := (List.perm_ext_iff_of_nodup (h.imp ne_of_lt) (h'.imp ne_of_lt)).mpr hm
  exact hp.eq_of_pairwise (fun _ _ _ _ hab hba => absurd hab (lt_asymm hba)) h h'

theorem le_getLast {l : List κ} (h : l.Pairwise (· < ·)) {x : κ} (hx : l.getLast? = some x)
    {y : κ} (hy : y ∈ l) : y ≤ x := by
  obtain ⟨init, rfl⟩ := List.getLast?_eq_some_iff.mp hx
  rcases List.mem_append.mp hy with hy | hy
  · exact le_of_lt ((List.pairwise_append.mp h).2.2 y hy x (by simp))
  · exact le_of_eq (List.mem_singleton.mp hy)

/-- The last of strictly ascending keys is the greatest. -/
theorem getLast_eq_some {l : List κ} (h : l.Pairwise (· < ·)) {x : κ} :
    l.getLast? = some x ↔ x ∈ l ∧ ∀ y ∈ l, y ≤ x := by
  constructor
  · intro hx
    exact ⟨List.mem_of_getLast? hx, fun y hy => le_getLast h hx hy⟩
  · intro ⟨hx, hmax⟩
    cases hl : l.getLast? with
    | none =>
      rw [List.getLast?_eq_none_iff.mp hl] at hx
      cases hx
    | some y =>
      rw [le_antisymm (hmax y (List.mem_of_getLast? hl)) (le_getLast h hl hx)]

/-- The greatest key below a bound. -/
def greatestBelow (bound : κ) (l : List κ) : Option κ :=
  (l.filter (fun k => decide (k < bound))).getLast?

theorem greatestBelow_eq_none {l : List κ} {bound : κ} :
    greatestBelow bound l = none ↔ ∀ k ∈ l, bound ≤ k := by
  simp [greatestBelow]

theorem greatestBelow_eq_some {l : List κ} (h : l.Pairwise (· < ·)) {bound x : κ} :
    greatestBelow bound l = some x ↔
      x ∈ l ∧ x < bound ∧ ∀ y ∈ l, y < bound → y ≤ x := by
  unfold greatestBelow
  rw [getLast_eq_some (h.sublist List.filter_sublist)]
  simp only [List.mem_filter, decide_eq_true_eq, and_assoc, and_imp]

/-- Keyed entries in strictly ascending key order. -/
def Ascending (l : List (κ × ν)) : Prop :=
  l.Pairwise (fun a b => a.1 < b.1)

/-- Insert before the first entry with a greater key. -/
def insertEntry (k : κ) (v : ν) (l : List (κ × ν)) : List (κ × ν) :=
  l.insertIdx (l.findIdx (fun e => decide (k < e.1))) (k, v)

/-- The entry with the greatest key below the bound. -/
def entryBelow (bound : κ) (l : List (κ × ν)) : Option (κ × ν) :=
  (l.filter (fun e => decide (e.1 < bound))).getLast?

namespace Ascending

theorem nil : Ascending ([] : List (κ × ν)) := List.Pairwise.nil

theorem nodup {l : List (κ × ν)} (h : Ascending l) : l.Nodup := by
  refine List.Pairwise.imp ?_ h
  intro a b hab he
  exact lt_irrefl _ (he ▸ hab)

/-- Ascending lists are determined by their members. -/
theorem ext {l l' : List (κ × ν)} (h : Ascending l) (h' : Ascending l')
    (hm : ∀ e, e ∈ l ↔ e ∈ l') : l = l' := by
  have hp : l.Perm l' := (List.perm_ext_iff_of_nodup h.nodup h'.nodup).mpr hm
  exact hp.eq_of_pairwise (fun a b _ _ hab hba => absurd hab (lt_asymm hba)) h h'

/-- A key has at most one entry. -/
theorem unique {l : List (κ × ν)} (h : Ascending l) {a b : κ × ν}
    (ha : a ∈ l) (hb : b ∈ l) (hk : a.1 = b.1) : a = b := by
  induction l with
  | nil => simp at ha
  | cons c l ih =>
    obtain ⟨hc, hl⟩ := List.pairwise_cons.mp h
    rcases List.mem_cons.mp ha with hac | ha' <;> rcases List.mem_cons.mp hb with hbc | hb'
    · rw [hac, hbc]
    · exact absurd (hc b hb') (by rw [← hk, hac]; exact lt_irrefl _)
    · exact absurd (hc a ha') (by rw [hk, hbc]; exact lt_irrefl _)
    · exact ih hl ha' hb'

theorem sublist {l l' : List (κ × ν)} (h : Ascending l) (hs : l'.Sublist l) : Ascending l' :=
  List.Pairwise.sublist hs h

/-- The last entry carries the greatest key. -/
theorem le_getLast {l : List (κ × ν)} (h : Ascending l) {x y : κ × ν}
    (hx : l.getLast? = some x) (hy : y ∈ l) : y.1 ≤ x.1 := by
  obtain ⟨init, rfl⟩ := List.getLast?_eq_some_iff.mp hx
  rcases List.mem_append.mp hy with hy | hy
  · exact le_of_lt ((List.pairwise_append.mp h).2.2 y hy x (by simp))
  · exact le_of_eq (by rw [List.mem_singleton.mp hy])

/-- A member with the greatest key is the last entry. -/
theorem getLast_of_max {l : List (κ × ν)} (h : Ascending l) {x : κ × ν} (hx : x ∈ l)
    (hmax : ∀ y ∈ l, y.1 ≤ x.1) : l.getLast? = some x := by
  cases hl : l.getLast? with
  | none =>
    rw [List.getLast?_eq_none_iff.mp hl] at hx
    cases hx
  | some y =>
    have hy := List.mem_of_getLast? hl
    rw [h.unique hy hx (le_antisymm (hmax y hy) (h.le_getLast hl hx))]

end Ascending

theorem mem_insertEntry {k : κ} {v : ν} {l : List (κ × ν)} {e : κ × ν} :
    e ∈ insertEntry k v l ↔ e = (k, v) ∨ e ∈ l :=
  List.mem_insertIdx List.findIdx_le_length

theorem insertEntry_perm (k : κ) (v : ν) (l : List (κ × ν)) :
    (insertEntry k v l).Perm ((k, v) :: l) :=
  List.perm_insertIdx _ _ List.findIdx_le_length

theorem insertEntry_nil (k : κ) (v : ν) : insertEntry k v [] = [(k, v)] := rfl

theorem insertEntry_cons (k : κ) (v : ν) (e : κ × ν) (l : List (κ × ν)) :
    insertEntry k v (e :: l) =
      if k < e.1 then (k, v) :: e :: l else e :: insertEntry k v l := by
  unfold insertEntry
  rw [List.findIdx_cons]
  by_cases h : k < e.1 <;> simp [h]

/-- Inserting a fresh key keeps the order. -/
theorem Ascending.insertEntry {l : List (κ × ν)} (h : Ascending l) {k : κ} (v : ν)
    (hk : ∀ e ∈ l, e.1 ≠ k) : Ascending (insertEntry k v l) := by
  induction l with
  | nil => exact List.pairwise_singleton _ _
  | cons e l ih =>
    obtain ⟨he, hl⟩ := List.pairwise_cons.mp h
    rw [insertEntry_cons]
    split
    · rename_i hlt
      refine List.pairwise_cons.mpr ⟨?_, h⟩
      intro a ha
      rcases List.mem_cons.mp ha with rfl | ha
      · exact hlt
      · exact lt_trans hlt (he a ha)
    · rename_i hnlt
      refine List.pairwise_cons.mpr ⟨?_, ih hl (fun a ha => hk a (List.mem_cons_of_mem _ ha))⟩
      intro a ha
      rcases mem_insertEntry.mp ha with rfl | ha
      · exact lt_of_le_of_ne (not_lt.mp hnlt) (hk e List.mem_cons_self)
      · exact he a ha

/-- A key above all others goes to the end. -/
theorem insertEntry_last {l : List (κ × ν)} {k : κ} (v : ν) (hk : ∀ e ∈ l, e.1 < k) :
    insertEntry k v l = l ++ [(k, v)] := by
  induction l with
  | nil => rfl
  | cons e l ih =>
    rw [insertEntry_cons, if_neg (not_lt_of_gt (hk e List.mem_cons_self)),
      ih (fun a ha => hk a (List.mem_cons_of_mem _ ha))]
    rfl

/-- Entries that do not lie above the key stay in front of it. -/
theorem insertEntry_append {l : List (κ × ν)} {k : κ} (v : ν) (hk : ∀ e ∈ l, e.1 ≤ k)
    (l' : List (κ × ν)) : insertEntry k v (l ++ l') = l ++ insertEntry k v l' := by
  induction l with
  | nil => rfl
  | cons e l ih =>
    rw [List.cons_append, insertEntry_cons, if_neg (not_lt_of_ge (hk e List.mem_cons_self)),
      ih (fun a ha => hk a (List.mem_cons_of_mem _ ha))]
    rfl

/-- Insert a list of entries, one after the other. -/
def insertAll (es l : List (κ × ν)) : List (κ × ν) :=
  es.foldl (fun l e => insertEntry e.1 e.2 l) l

theorem insertAll_cons (e : κ × ν) (es l : List (κ × ν)) :
    insertAll (e :: es) l = insertAll es (insertEntry e.1 e.2 l) := rfl

theorem insertAll_perm (es l : List (κ × ν)) : (insertAll es l).Perm (es ++ l) := by
  induction es generalizing l with
  | nil => exact List.Perm.refl _
  | cons e es ih =>
    rw [insertAll_cons]
    exact (ih _).trans (((insertEntry_perm e.1 e.2 l).append_left es).trans List.perm_middle)

/-- Inserting fresh keys keeps the order. -/
theorem Ascending.insertAll {es l : List (κ × ν)} (h : Ascending l)
    (hn : ((es ++ l).map Prod.fst).Nodup) : Ascending (insertAll es l) := by
  induction es generalizing l with
  | nil => exact h
  | cons e es ih =>
    have hfresh : ∀ a ∈ l, a.1 ≠ e.1 := by
      intro a ha he
      rw [List.cons_append, List.map_cons, List.nodup_cons] at hn
      exact hn.1 (he ▸ List.mem_map_of_mem (List.mem_append_right es ha))
    refine ih (h.insertEntry e.2 hfresh) ?_
    have hperm : (es ++ Library.insertEntry e.1 e.2 l).Perm (e :: es ++ l) :=
      ((insertEntry_perm e.1 e.2 l).append_left es).trans List.perm_middle
    exact (hperm.map Prod.fst).nodup_iff.mpr hn

/-- Entries that do not lie above any of the keys stay in front of them. -/
theorem insertAll_append {es l : List (κ × ν)} (hk : ∀ x ∈ es, ∀ e ∈ l, e.1 ≤ x.1)
    (l' : List (κ × ν)) : insertAll es (l ++ l') = l ++ insertAll es l' := by
  induction es generalizing l' with
  | nil => rfl
  | cons e es ih =>
    rw [insertAll_cons, insertEntry_append e.2 (hk e List.mem_cons_self),
      ih (fun x hx => hk x (List.mem_cons_of_mem _ hx)), insertAll_cons]

/-- On ascending entries the first position at or above the bound ends the part below it. -/
theorem Ascending.take_findIdx {l : List (κ × ν)} (h : Ascending l) (bound : κ) :
    l.take (l.findIdx (fun e => decide (bound ≤ e.1))) =
      l.filter (fun e => decide (e.1 < bound)) := by
  induction l with
  | nil => rfl
  | cons e l ih =>
    obtain ⟨he, hl⟩ := List.pairwise_cons.mp h
    rw [List.findIdx_cons]
    by_cases hb : bound ≤ e.1
    · have hn : l.filter (fun a => decide (a.1 < bound)) = [] := by
        apply List.filter_eq_nil_iff.mpr
        intro a ha
        simpa using le_of_lt (lt_of_le_of_lt hb (he a ha))
      simp [hb, hn, not_lt_of_ge hb]
    · simp [hb, not_le.mp hb, ih hl]

/-- The entry before the first one at or above the bound is the greatest below it. -/
theorem Ascending.getElem_findIdx {l : List (κ × ν)} (h : Ascending l) (bound : κ)
    (hpos : 0 < l.findIdx (fun e => decide (bound ≤ e.1))) :
    l[l.findIdx (fun e => decide (bound ≤ e.1)) - 1]? = entryBelow bound l := by
  unfold entryBelow
  rw [← h.take_findIdx bound]
  generalize hn : l.findIdx (fun e => decide (bound ≤ e.1)) = n at hpos ⊢
  have hle : n ≤ l.length := hn ▸ List.findIdx_le_length
  rw [List.getLast?_eq_getElem?, List.length_take, Nat.min_eq_left hle,
    List.getElem?_take_of_lt (by omega)]

theorem entryBelow_eq_none {l : List (κ × ν)} {bound : κ} :
    entryBelow bound l = none ↔ ∀ e ∈ l, bound ≤ e.1 := by
  simp [entryBelow]

/-- Once a later part has an entry below the bound, earlier parts do not matter. -/
theorem entryBelow_append (l : List (κ × ν)) {l' : List (κ × ν)} {bound : κ} {e : κ × ν}
    (he : e ∈ l') (hlt : e.1 < bound) : entryBelow bound (l ++ l') = entryBelow bound l' := by
  have hm : e ∈ l'.filter (fun e => decide (e.1 < bound)) :=
    List.mem_filter.mpr ⟨he, by simpa using hlt⟩
  unfold entryBelow
  rw [List.filter_append, List.getLast?_append_of_ne_nil _ (List.ne_nil_of_mem hm)]

theorem Ascending.entryBelow_eq_some {l : List (κ × ν)} (h : Ascending l) {bound : κ}
    {x : κ × ν} : entryBelow bound l = some x ↔
      x ∈ l ∧ x.1 < bound ∧ ∀ y ∈ l, y.1 < bound → y.1 ≤ x.1 := by
  have hf : Ascending (l.filter (fun e => decide (e.1 < bound))) := h.sublist List.filter_sublist
  constructor
  · intro hx
    have hm := List.mem_of_getLast? hx
    refine ⟨(List.mem_filter.mp hm).1, by simpa using (List.mem_filter.mp hm).2, ?_⟩
    intro y hy hlt
    exact hf.le_getLast hx (List.mem_filter.mpr ⟨hy, by simpa using hlt⟩)
  · rintro ⟨hx, hlt, hmax⟩
    cases he : entryBelow bound l with
    | none => exact absurd hlt (not_lt.mpr (entryBelow_eq_none.mp he x hx))
    | some y =>
      have hm := List.mem_of_getLast? he
      have hy := List.mem_filter.mp hm
      have hyx : y.1 ≤ x.1 := hmax y hy.1 (by simpa using hy.2)
      have hxy : x.1 ≤ y.1 := hf.le_getLast he (List.mem_filter.mpr ⟨hx, by simpa using hlt⟩)
      rw [h.unique hy.1 hx (le_antisymm hyx hxy)]

/-- Assigning one more key of the list adds its entry. -/
theorem filterMap_update_perm {α : Type w} {ks : List κ} (hn : ks.Nodup) {k : κ} (hk : k ∈ ks)
    {f : κ → Option α} (hf : f k = none) (a : α) :
    (ks.filterMap (Function.update f k (some a))).Perm (a :: ks.filterMap f) := by
  obtain ⟨l, l', rfl⟩ := List.append_of_mem hk
  have hsame : ∀ l'' : List κ, k ∉ l'' →
      l''.filterMap (Function.update f k (some a)) = l''.filterMap f := by
    intro l'' hnot
    apply List.filterMap_congr
    intro x hx
    have hne : x ≠ k := by
      rintro rfl
      exact hnot hx
    rw [Function.update_of_ne hne]
  obtain ⟨hl, hl'⟩ : k ∉ l ∧ k ∉ l' := by
    rw [List.nodup_append] at hn
    obtain ⟨_, hcons, hdisj⟩ := hn
    exact ⟨fun hm => hdisj k hm k List.mem_cons_self rfl, (List.nodup_cons.mp hcons).1⟩
  rw [List.filterMap_append, List.filterMap_append, hsame l hl, List.filterMap_cons,
    List.filterMap_cons, hf, Function.update_self, hsame l' hl']
  exact List.perm_middle

end Mvdcc.Library
