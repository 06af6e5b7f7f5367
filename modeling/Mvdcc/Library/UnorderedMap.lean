import Mathlib.Data.List.Nodup
import Mathlib.Data.Multiset.Basic

namespace Mvdcc.Library

/-- A hash map: its entries in iteration order, which nothing may rely on, and no
key twice. -/
structure UnorderedMap (κ : Type u) (ν : Type v) where
  entries : List (κ × ν)
  unique : (entries.map Prod.fst).Nodup

namespace UnorderedMap
variable {κ : Type u} {ν : Type v} {k k' : κ} {v v' : ν}

instance [DecidableEq κ] [DecidableEq ν] : DecidableEq (UnorderedMap κ ν) := fun a b =>
  decidable_of_iff (a.entries = b.entries) (by cases a; cases b; simp)

def empty : UnorderedMap κ ν := ⟨[], List.nodup_nil⟩

def isEmpty (m : UnorderedMap κ ν) : Bool := m.entries.isEmpty

def values (m : UnorderedMap κ ν) : List ν := m.entries.map Prod.snd

@[simp] theorem entries_empty : (empty : UnorderedMap κ ν).entries = [] := rfl
@[simp] theorem values_empty : (empty : UnorderedMap κ ν).values = [] := rfl

theorem isEmpty_iff {m : UnorderedMap κ ν} : m.isEmpty = true ↔ m = empty := by
  cases m
  simp [isEmpty, empty]

theorem mem_keys {m : UnorderedMap κ ν} : k ∈ m.entries.map Prod.fst ↔ ∃ v, (k, v) ∈ m.entries := by
  simp

theorem mem_values {m : UnorderedMap κ ν} : v ∈ m.values ↔ ∃ k, (k, v) ∈ m.entries := by
  simp [values]

variable [DecidableEq κ]

def find (m : UnorderedMap κ ν) (k : κ) : Option ν := m.entries.lookup k

theorem lookup_of_mem {l : List (κ × ν)} (hu : (l.map Prod.fst).Nodup) (h : (k, v) ∈ l) :
    l.lookup k = some v := by
  induction l with
  | nil => cases h
  | cons e l ih =>
    obtain ⟨hn, hu⟩ := List.nodup_cons.mp hu
    rw [List.lookup_cons]
    rcases List.mem_cons.mp h with rfl | h
    · simp
    · have hne : (k == e.1) = false := by
        rw [beq_eq_false_iff_ne]
        exact fun he => hn (he ▸ List.mem_map_of_mem h)
      rw [hne]
      exact ih hu h

theorem find_eq_some {m : UnorderedMap κ ν} : m.find k = some v ↔ (k, v) ∈ m.entries := by
  constructor
  · intro h
    obtain ⟨l₁, l₂, he, _⟩ := List.lookup_eq_some_iff.mp h
    rw [he]
    simp
  · exact lookup_of_mem m.unique

theorem find_eq_none {m : UnorderedMap κ ν} : m.find k = none ↔ ∀ v, (k, v) ∉ m.entries := by
  constructor
  · intro h v hm
    rw [find_eq_some.mpr hm] at h
    cases h
  · intro h
    cases hf : m.find k with
    | none => rfl
    | some v => exact absurd (find_eq_some.mp hf) (h v)

theorem eq_empty {m : UnorderedMap κ ν} (h : ∀ k, m.find k = none) : m = empty := by
  rw [← isEmpty_iff]
  unfold isEmpty
  rw [List.isEmpty_iff, List.eq_nil_iff_forall_not_mem]
  intro e
  exact find_eq_none.mp (h e.1) e.2

@[simp] theorem find_empty : (empty : UnorderedMap κ ν).find k = none := rfl

/-- Add an entry at some place of the iteration order; a key that is there keeps its value. -/
def emplace (m : UnorderedMap κ ν) (position : Nat) (k : κ) (v : ν) : UnorderedMap κ ν :=
  if h : k ∈ m.entries.map Prod.fst then m
  else {
    entries := m.entries.insertIdx (min position m.entries.length) (k, v)
    unique := by
      have hp : ((k, v) :: m.entries).Perm
          (m.entries.insertIdx (min position m.entries.length) (k, v)) :=
        (List.perm_insertIdx _ _ (Nat.min_le_right _ _)).symm
      exact (hp.map Prod.fst).nodup_iff.mp (List.nodup_cons.mpr ⟨h, m.unique⟩) }

def modify (m : UnorderedMap κ ν) (k : κ) (f : ν → ν) : UnorderedMap κ ν where
  entries := m.entries.map (fun e => (e.1, if e.1 = k then f e.2 else e.2))
  unique := by
    rw [List.map_map]
    exact m.unique

def erase (m : UnorderedMap κ ν) (k : κ) : UnorderedMap κ ν where
  entries := m.entries.filter (fun e => e.1 ≠ k)
  unique := m.unique.sublist (List.Sublist.map _ List.filter_sublist)

theorem emplace_of_mem {m : UnorderedMap κ ν} (h : (k, v') ∈ m.entries) (position : Nat) :
    m.emplace position k v = m :=
  dif_pos (mem_keys.mpr ⟨v', h⟩)

/-- A fresh key adds its entry and nothing else. -/
theorem emplace_perm {m : UnorderedMap κ ν} (h : m.find k = none) (position : Nat) :
    (m.emplace position k v).entries.Perm ((k, v) :: m.entries) := by
  have hn : k ∉ m.entries.map Prod.fst := by
    intro hm
    obtain ⟨v', hv⟩ := mem_keys.mp hm
    exact find_eq_none.mp h v' hv
  unfold emplace
  rw [dif_neg hn]
  exact List.perm_insertIdx _ _ (Nat.min_le_right _ _)

/-- A key that is there already leaves the map as it is. -/
theorem mem_emplace {m : UnorderedMap κ ν} {position : Nat} {e : κ × ν} :
    e ∈ (m.emplace position k v).entries ↔ e ∈ m.entries ∨ (m.find k = none ∧ e = (k, v)) := by
  cases hf : m.find k with
  | some u =>
    rw [emplace_of_mem (find_eq_some.mp hf)]
    simp
  | none =>
    rw [(emplace_perm hf position).mem_iff, List.mem_cons]
    simp [or_comm]

theorem exists_mem_emplace (m : UnorderedMap κ ν) (position : Nat) (k : κ) (v : ν) :
    ∃ u, (k, u) ∈ (m.emplace position k v).entries := by
  cases hf : m.find k with
  | some u => exact ⟨u, mem_emplace.mpr (Or.inl (find_eq_some.mp hf))⟩
  | none => exact ⟨v, mem_emplace.mpr (Or.inr ⟨hf, rfl⟩)⟩

theorem find_emplace (m : UnorderedMap κ ν) (position : Nat) (k k' : κ) (v : ν) :
    (m.emplace position k v).find k' =
      if k' = k then some ((m.find k).getD v) else m.find k' := by
  cases hf : m.find k with
  | some u =>
    rw [emplace_of_mem (find_eq_some.mp hf)]
    split
    · rename_i he
      rw [he, hf]
      rfl
    · rfl
  | none =>
    split
    · rename_i he
      exact find_eq_some.mpr (mem_emplace.mpr (Or.inr ⟨hf, by rw [he]; rfl⟩))
    · rename_i hne
      apply Option.ext
      intro u
      rw [find_eq_some, find_eq_some, mem_emplace]
      simp [hne]

theorem find_modify (m : UnorderedMap κ ν) (k k' : κ) (f : ν → ν) :
    (m.modify k f).find k' = if k' = k then (m.find k').map f else m.find k' := by
  apply Option.ext
  intro u
  rw [find_eq_some]
  simp only [modify, List.mem_map, Prod.mk.injEq, Prod.exists]
  split
  · rename_i he
    simp only [he, Option.map_eq_some_iff, find_eq_some]
    constructor
    · rintro ⟨a, b, hm, rfl, rfl⟩
      exact ⟨b, hm, by simp⟩
    · rintro ⟨b, hm, rfl⟩
      exact ⟨k, b, hm, rfl, by simp⟩
  · rename_i hne
    rw [find_eq_some]
    constructor
    · rintro ⟨a, b, hm, rfl, rfl⟩
      simpa [hne] using hm
    · intro hm
      exact ⟨k', u, hm, rfl, by simp [hne]⟩

/-- With no value twice, a value is under one key. -/
theorem key_unique {m : UnorderedMap κ ν} (hn : m.values.Nodup) (h : m.find k = some v)
    (h' : m.find k' = some v) : k = k' := by
  have he := List.inj_on_of_nodup_map hn (find_eq_some.mp h) (find_eq_some.mp h') rfl
  exact congrArg Prod.fst he

theorem mem_erase {m : UnorderedMap κ ν} {e : κ × ν} :
    e ∈ (m.erase k).entries ↔ e ∈ m.entries ∧ e.1 ≠ k := by
  simp [erase]

theorem find_erase (m : UnorderedMap κ ν) (k k' : κ) :
    (m.erase k).find k' = if k' = k then none else m.find k' := by
  apply Option.ext
  intro u
  rw [find_eq_some, mem_erase]
  split
  · rename_i he
    simp [he]
  · rename_i hne
    simp [hne, find_eq_some]

theorem length_emplace_le (m : UnorderedMap κ ν) (position : Nat) (k : κ) (v : ν) :
    (m.emplace position k v).entries.length ≤ m.entries.length + 1 := by
  cases hf : m.find k with
  | none => rw [(emplace_perm hf position).length_eq, List.length_cons]
  | some u =>
    rw [emplace_of_mem (find_eq_some.mp hf)]
    exact Nat.le_succ _

@[simp] theorem length_modify (m : UnorderedMap κ ν) (k : κ) (f : ν → ν) :
    (m.modify k f).entries.length = m.entries.length :=
  List.length_map _

theorem length_erase_lt {m : UnorderedMap κ ν} (h : m.find k = some v) :
    (m.erase k).entries.length < m.entries.length := by
  unfold erase
  refine List.length_filter_lt_length_iff_exists.mpr ⟨(k, v), find_eq_some.mp h, ?_⟩
  simp

theorem filter_keys {l : List (κ × ν)} (h : k ∉ l.map Prod.fst) :
    l.filter (fun e => e.1 ≠ k) = l := by
  apply List.filter_eq_self.mpr
  intro e he
  have hne : e.1 ≠ k := fun hk => h (hk ▸ List.mem_map_of_mem he)
  simpa using hne

theorem erase_of_find_none {m : UnorderedMap κ ν} (h : m.find k = none) :
    (m.erase k).values = m.values := by
  have hn : k ∉ m.entries.map Prod.fst := by
    intro hm
    obtain ⟨v, hv⟩ := mem_keys.mp hm
    exact find_eq_none.mp h v hv
  exact congrArg (List.map Prod.snd) (filter_keys hn)

/-- Erasing a key takes its value away and no other. -/
theorem values_erase {m : UnorderedMap κ ν} (h : (k, v) ∈ m.entries) :
    m.values.Perm (v :: (m.erase k).values) := by
  obtain ⟨l, hl⟩ := m
  unfold values erase
  simp only at h ⊢
  induction l with
  | nil => cases h
  | cons e l ih =>
    obtain ⟨hn, hu⟩ := List.nodup_cons.mp hl
    rcases List.mem_cons.mp h with rfl | h
    · rw [List.filter_cons_of_neg (by simp), filter_keys hn]
      rfl
    · have hne : e.1 ≠ k := by
        intro hk
        rw [hk] at hn
        exact hn (List.mem_map_of_mem h)
      rw [List.filter_cons_of_pos (by simpa using hne), List.map_cons, List.map_cons]
      exact ((ih hu h).cons e.2).trans (List.Perm.swap _ _ _)

end UnorderedMap
end Mvdcc.Library
