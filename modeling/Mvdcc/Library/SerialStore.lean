import Mathlib.Data.List.Range
import Mathlib.Logic.Function.Basic

namespace Mvdcc.Library

/-- One access of a transaction to a store. -/
inductive Access (K : Type u) (V : Type v) where
  | get (k : K)
  | put (k : K) (v : V)
  deriving DecidableEq

namespace Access
variable {K : Type u} {V : Type v}

def key : Access K V → K
  | get k => k
  | put k _ => k

variable [DecidableEq K]

/-- The accesses one after the other: what they have read, and the store they leave. -/
def run : List (Access K V) → (K → V) → List (K × V) × (K → V)
  | [], s => ([], s)
  | get k :: l, s => ((k, s k) :: (run l s).1, (run l s).2)
  | put k v :: l, s => run l (Function.update s k v)

variable {l : List (Access K V)} {s : K → V} {k : K} {v : V}

omit [DecidableEq K] in
theorem key_mem (h : get k ∈ l ∨ put k v ∈ l) : k ∈ l.map key := by
  rcases h with h | h
  · exact List.mem_map.mpr ⟨_, h, rfl⟩
  · exact List.mem_map.mpr ⟨_, h, rfl⟩

/-- A key keeps its value where no access puts another one. -/
theorem run_untouched (h : ∀ v, put k v ∉ l) : (run l s).2 k = s k := by
  induction l generalizing s with
  | nil => rfl
  | cons a l ih =>
    have hrest : ∀ v, put k v ∉ l := fun v hv => h v (List.mem_cons_of_mem _ hv)
    cases a with
    | get k' => exact ih hrest
    | put k' v' =>
      have hne : k ≠ k' := by
        rintro rfl
        exact h v' List.mem_cons_self
      exact (ih hrest).trans (Function.update_of_ne hne _ _)

/-- Of a transaction that accesses every key once at most, a put stays. -/
theorem run_put (hn : (l.map key).Nodup) (h : put k v ∈ l) : (run l s).2 k = v := by
  induction l generalizing s with
  | nil => cases h
  | cons a l ih =>
    obtain ⟨hnew, hrest⟩ := List.nodup_cons.mp hn
    rcases List.mem_cons.mp h with rfl | hm
    · have huntouched : ∀ v', put k v' ∉ l := fun v' hv => hnew (key_mem (.inr hv))
      exact (run_untouched huntouched).trans (Function.update_self _ _ _)
    · cases a with
      | get k' => exact ih hrest hm
      | put k' v' => exact ih hrest hm

/-- Of such a transaction, a get reads what the store had before it. -/
theorem run_get (hn : (l.map key).Nodup) (h : get k ∈ l) : (k, s k) ∈ (run l s).1 := by
  induction l generalizing s with
  | nil => cases h
  | cons a l ih =>
    obtain ⟨hnew, hrest⟩ := List.nodup_cons.mp hn
    rcases List.mem_cons.mp h with rfl | hm
    · exact List.mem_cons_self
    · cases a with
      | get k' => exact List.mem_cons_of_mem _ (ih hrest hm)
      | put k' v' =>
        have hne : k ≠ k' := by
          rintro rfl
          exact hnew (key_mem (v := v') (.inl hm))
        have hread := ih (s := Function.update s k' v') hrest hm
        rwa [Function.update_of_ne hne] at hread

/-- A transaction reads at most the keys it accesses, in that order. -/
theorem run_keys : ((run l s).1.map Prod.fst).Sublist (l.map key) := by
  induction l generalizing s with
  | nil => exact List.Sublist.refl _
  | cons a l ih =>
    cases a with
    | get k => exact ih.cons_cons k
    | put k v => exact (ih (s := Function.update s k v)).cons k

/-- Nothing else is read. -/
theorem mem_run (hn : (l.map key).Nodup) (h : (k, v) ∈ (run l s).1) :
    get k ∈ l ∧ v = s k := by
  induction l generalizing s with
  | nil => cases h
  | cons a l ih =>
    obtain ⟨hnew, hrest⟩ := List.nodup_cons.mp hn
    cases a with
    | get k' =>
      rcases List.mem_cons.mp h with he | hm
      · obtain ⟨rfl, rfl⟩ := Prod.mk.inj he
        exact ⟨List.mem_cons_self, rfl⟩
      · exact ⟨List.mem_cons_of_mem _ (ih hrest hm).1, (ih hrest hm).2⟩
    | put k' v' =>
      obtain ⟨hget, hv⟩ := ih (s := Function.update s k' v') hrest h
      have hne : k ≠ k' := by
        rintro rfl
        exact hnew (key_mem (v := v') (.inl hget))
      exact ⟨List.mem_cons_of_mem _ hget, hv.trans (Function.update_of_ne hne _ _)⟩

end Access

/-- The store in front of a transaction, when all before it have run one after the other. -/
def storeBefore {K : Type u} {V : Type v} [DecidableEq K] (txs : ℕ → List (Access K V))
    (s : K → V) : ℕ → K → V
  | 0 => s
  | n + 1 => (Access.run (txs n) (storeBefore txs s n)).2

section StoreBefore
variable {K : Type u} {V : Type v} [DecidableEq K] {txs : ℕ → List (Access K V)} {s : K → V}
variable {k : K} {v : V} {n m : ℕ}

/-- A key that nobody has put yet has its first value. -/
theorem storeBefore_first (h : ∀ m < n, ∀ v, Access.put k v ∉ txs m) :
    storeBefore txs s n k = s k := by
  induction n with
  | zero => rfl
  | succ n ih =>
    exact (Access.run_untouched (h n (Nat.lt_succ_self n))).trans
      (ih (fun m hm => h m (Nat.lt_succ_of_lt hm)))

/-- The last put before a transaction is what it sees. -/
theorem storeBefore_last (hn : ∀ n, ((txs n).map Access.key).Nodup)
    (hput : Access.put k v ∈ txs m) (hlt : m < n)
    (hlast : ∀ i, m < i → i < n → ∀ v, Access.put k v ∉ txs i) :
    storeBefore txs s n k = v := by
  induction n with
  | zero => cases hlt
  | succ n ih =>
    rcases Nat.lt_succ_iff_lt_or_eq.mp hlt with h | rfl
    · refine (Access.run_untouched (hlast n h (Nat.lt_succ_self n))).trans (ih h ?_)
      exact fun i hi hin => hlast i hi (Nat.lt_succ_of_lt hin)
    · exact Access.run_put (hn m) hput

end StoreBefore
end Mvdcc.Library
