import Mathlib.Algebra.BigOperators.Group.Finset.Basic
import Mathlib.Data.Set.Finite.Basic
import Mathlib.Tactic.Abel

namespace Mvdcc.Library

/-- A table with a primary key: finitely many rows, each stored under its own key. -/
structure Table {K : Type u} {R : Type v} (key : R → K) where
  find : K → Option R
  keyed : ∀ k r, find k = some r → key r = k
  finite : {k | find k ≠ none}.Finite

namespace Table
variable {K : Type u} {R : Type v} {key : R → K} {t t' : Table key} {r r' : R} {k k' : K}

theorem ext_find (h : ∀ k, t.find k = t'.find k) : t = t' := by
  cases t
  cases t'
  obtain rfl := funext h
  rfl

section Update
variable [DecidableEq K]

/-- Insert a row, or replace the one with its key. -/
def put (t : Table key) (r : R) : Table key where
  find := Function.update t.find (key r) (some r)
  keyed := by
    intro k r' h
    by_cases hk : k = key r
    · subst hk
      rw [Function.update_self] at h
      rw [Option.some.inj h]
    · rw [Function.update_of_ne hk] at h
      exact t.keyed k r' h
  finite := by
    refine (t.finite.insert (key r)).subset ?_
    intro k hk
    by_cases he : k = key r
    · exact Or.inl he
    · exact Or.inr (by simpa [Function.update_of_ne he] using hk)

def erase (t : Table key) (k : K) : Table key where
  find := Function.update t.find k none
  keyed := by
    intro k' r h
    by_cases hk : k' = k
    · subst hk
      rw [Function.update_self] at h
      cases h
    · rw [Function.update_of_ne hk] at h
      exact t.keyed k' r h
  finite := by
    refine t.finite.subset ?_
    intro k' hk hn
    by_cases he : k' = k
    · simp [he] at hk
    · rw [Set.mem_ofPred_eq, Function.update_of_ne he] at hk
      exact hk hn

@[simp] theorem find_put_self (t : Table key) (r : R) : (t.put r).find (key r) = some r :=
  Function.update_self _ _ _

theorem find_put_other (t : Table key) (r : R) (h : k ≠ key r) : (t.put r).find k = t.find k :=
  Function.update_of_ne h _ _

theorem find_put (t : Table key) (r : R) (k : K) :
    (t.put r).find k = if k = key r then some r else t.find k :=
  Function.update_apply _ _ _ _

theorem find_erase (t : Table key) (k k' : K) :
    (t.erase k).find k' = if k' = k then none else t.find k' :=
  Function.update_apply _ _ _ _

end Update

section Rows
variable [DecidableEq K] {rows : List R}

theorem key_of_find? (h : rows.find? (fun r => key r = k) = some r) : key r = k := by
  simpa using List.find?_some h

/-- A table from a list of rows, where the first one with a key counts. -/
def ofRows (key : R → K) (rows : List R) : Table key where
  find := fun k => rows.find? (fun r => key r = k)
  keyed := fun _ _ => key_of_find?
  finite := by
    refine ((rows.map key).finite_toSet).subset ?_
    intro k hk
    obtain ⟨r, hr⟩ := Option.ne_none_iff_exists'.mp hk
    have hkey : key r = k := key_of_find? hr
    rw [Set.mem_ofPred_eq, ← hkey]
    exact List.mem_map_of_mem (List.mem_of_find?_eq_some hr)

theorem find_ofRows (key : R → K) (rows : List R) (k : K) :
    (ofRows key rows).find k = rows.find? (fun r => key r = k) := rfl

theorem find?_other (h : k ≠ k') :
    (rows.filter (fun r => key r ≠ k')).find? (fun r => key r = k) =
      rows.find? (fun r => key r = k) := by
  rw [List.find?_filter]
  congr 1
  funext r
  by_cases hr : key r = k
  · simp [hr, h]
  · simp [hr]

theorem ofRows_put (rows : List R) (r : R) :
    ofRows key (r :: rows.filter (fun r' => key r' ≠ key r)) = (ofRows key rows).put r := by
  refine ext_find (fun k => ?_)
  rw [find_put, find_ofRows, find_ofRows, List.find?_cons]
  by_cases hk : k = key r
  · simp [hk]
  · rw [if_neg hk, decide_eq_false (Ne.symm hk)]
    exact find?_other hk

theorem ofRows_erase (rows : List R) (k : K) :
    ofRows key (rows.filter (fun r => key r ≠ k)) = (ofRows key rows).erase k := by
  refine ext_find (fun k' => ?_)
  rw [find_erase, find_ofRows, find_ofRows]
  split
  · rename_i hk
    refine List.find?_eq_none.mpr (fun r hr => ?_)
    simpa [hk] using (List.mem_filter.mp hr).2
  · rename_i hk
    exact find?_other hk

end Rows

section Total
variable {M : Type w} [AddCommMonoid M] {f : R → M}

/-- The keys of the rows. -/
noncomputable def keys (t : Table key) : Finset K := t.finite.toFinset

theorem mem_keys : k ∈ t.keys ↔ t.find k ≠ none := by
  simp [keys]

/-- The sum of a value over all rows. -/
noncomputable def total (t : Table key) (f : R → M) : M := ∑ k ∈ t.keys, (t.find k).elim 0 f

theorem total_congr {g : R → M} (h : ∀ k r, t.find k = some r → f r = g r) :
    t.total f = t.total g := by
  refine Finset.sum_congr rfl (fun k _ => ?_)
  cases hr : t.find k with
  | none => rfl
  | some r => exact h k r hr

theorem total_zero : t.total (fun _ => (0 : M)) = 0 := by
  refine Finset.sum_eq_zero (fun k _ => ?_)
  cases t.find k <;> rfl

theorem total_add {g : R → M} : t.total (fun r => f r + g r) = t.total f + t.total g := by
  unfold total
  rw [← Finset.sum_add_distrib]
  refine Finset.sum_congr rfl (fun k _ => ?_)
  cases t.find k with
  | none => exact (add_zero 0).symm
  | some r => rfl

/-- Rows that are replaced one by one keep a total if each of them keeps its value. -/
theorem total_rel {t' : Table key} {g : R → M}
    (h : ∀ k, Option.Rel (fun r r' => f r = g r') (t.find k) (t'.find k)) :
    t.total f = t'.total g := by
  have hkeys : t.keys = t'.keys := by
    ext k
    rw [mem_keys, mem_keys]
    have hk := h k
    generalize t.find k = r, t'.find k = r' at hk
    cases hk <;> simp
  unfold total
  rw [hkeys]
  refine Finset.sum_congr rfl (fun k _ => ?_)
  have hk := h k
  generalize t.find k = r, t'.find k = r' at hk
  cases hk with
  | none => rfl
  | some hfg => exact hfg

variable [DecidableEq K]

/-- The total of the rows with a property, from a list of them. -/
theorem total_filter {p : R → Prop} [DecidablePred p] {rows : List R} (hn : rows.Nodup)
    (h : ∀ r, r ∈ rows ↔ t.find (key r) = some r ∧ p r) :
    t.total (fun r => if p r then f r else 0) = (rows.map f).sum := by
  have hkeys : (rows.map key).Nodup := by
    refine hn.map_on (fun r hr r' hr' he => ?_)
    have hfind := ((h r).mp hr).1
    rw [he, ((h r').mp hr').1] at hfind
    exact (Option.some.inj hfind).symm
  have hsum : (rows.map f).sum =
      ((rows.map key).map (fun k => (t.find k).elim 0 (fun r => if p r then f r else 0))).sum := by
    rw [List.map_map]
    refine congrArg List.sum (List.map_congr_left (fun r hr => ?_))
    obtain ⟨hfind, hp⟩ := (h r).mp hr
    simp [hfind, hp]
  rw [hsum, ← List.sum_toFinset _ hkeys]
  refine (Finset.sum_subset (fun k hk => ?_) (fun k hk hout => ?_)).symm
  · obtain ⟨r, hr, rfl⟩ := List.mem_map.mp (List.mem_toFinset.mp hk)
    rw [mem_keys, ((h r).mp hr).1]
    exact Option.some_ne_none r
  · obtain ⟨r, hr⟩ := Option.ne_none_iff_exists'.mp (mem_keys.mp hk)
    have hkey := t.keyed k r hr
    have hp : ¬ p r := by
      intro hp
      refine hout (List.mem_toFinset.mpr ?_)
      rw [← hkey]
      exact List.mem_map_of_mem ((h r).mpr ⟨by rw [hkey, hr], hp⟩)
    rw [hr, Option.elim_some, if_neg hp]

/-- Summation over the other rows. -/
theorem total_eq_add (h : t.find (key r) = some r') :
    t.total f = f r' + ∑ k ∈ t.keys.erase (key r), (t.find k).elim 0 f := by
  have hmem : key r ∈ t.keys := by
    rw [mem_keys, h]
    exact Option.some_ne_none _
  unfold total
  rw [← Finset.add_sum_erase _ _ hmem, h]
  rfl

theorem keys_put (t : Table key) (r : R) : (t.put r).keys = insert (key r) t.keys := by
  ext k
  rw [Finset.mem_insert, mem_keys, mem_keys, find_put]
  by_cases hk : k = key r
  · simp [hk]
  · simp [hk]

theorem sum_put (t : Table key) (r : R) (s : Finset K) (h : key r ∉ s) :
    ∑ k ∈ s, ((t.put r).find k).elim 0 f = ∑ k ∈ s, (t.find k).elim 0 f := by
  refine Finset.sum_congr rfl (fun k hk => ?_)
  rw [find_put_other]
  rintro rfl
  exact h hk

/-- A new row adds its value. -/
theorem total_put_new (h : t.find (key r) = none) : (t.put r).total f = f r + t.total f := by
  have hmem : key r ∉ t.keys := by
    rw [mem_keys, h]
    exact fun hn => hn rfl
  rw [total_eq_add (find_put_self t r), keys_put, Finset.erase_insert hmem, sum_put _ _ _ hmem]
  rfl

/-- A replaced row trades its old value for the new one. -/
theorem total_put (h : t.find (key r) = some r') :
    (t.put r).total f + f r' = t.total f + f r := by
  have hmem : key r ∈ t.keys := by
    rw [mem_keys, h]
    exact Option.some_ne_none _
  rw [total_eq_add (find_put_self t r), keys_put, Finset.insert_eq_of_mem hmem,
    sum_put _ _ _ (Finset.notMem_erase _ _), total_eq_add (f := f) h]
  abel

/-- The total of rows in a list. -/
theorem total_ofRows {rows : List R} (h : (rows.map key).Nodup) :
    (ofRows key rows).total f = (rows.map f).sum := by
  induction rows with
  | nil =>
    have hkeys : (ofRows key []).keys = ∅ := by
      refine Finset.eq_empty_of_forall_notMem (fun k hk => ?_)
      exact mem_keys.mp hk rfl
    rw [total, hkeys]
    rfl
  | cons r rows ih =>
    obtain ⟨hnew, hrest⟩ := List.nodup_cons.mp h
    have hother : rows.filter (fun r' => key r' ≠ key r) = rows := by
      refine List.filter_eq_self.mpr (fun r' hr' => decide_eq_true ?_)
      rintro he
      exact hnew (he ▸ List.mem_map_of_mem hr')
    have hput : ofRows key (r :: rows) = (ofRows key rows).put r := by
      rw [← ofRows_put, hother]
    have habsent : (ofRows key rows).find (key r) = none := by
      rw [find_ofRows]
      refine List.find?_eq_none.mpr (fun r' hr' he => ?_)
      exact hnew (of_decide_eq_true he ▸ List.mem_map_of_mem hr')
    rw [hput, total_put_new habsent, ih hrest]
    rfl

end Total
end Table
end Mvdcc.Library
