import Mathlib.Data.List.Sort
import Mathlib.Data.BitVec
import Mvdcc.Library.Ascending

namespace Mvdcc.Library

variable {w : Nat}

/-- The set bits, counted from the most significant one, in ascending order. -/
def positions (b : BitVec w) : List Nat :=
  (List.range w).filter (fun i => b.getMsbD i)

theorem lt_of_getMsbD {b : BitVec w} {i : Nat} (h : b.getMsbD i = true) : i < w := by
  by_contra hn
  rw [BitVec.getMsbD_of_ge b i (Nat.not_lt.mp hn)] at h
  cases h

@[simp] theorem mem_positions {b : BitVec w} {i : Nat} :
    i ∈ positions b ↔ b.getMsbD i = true := by
  simp only [positions, List.mem_filter, List.mem_range, and_iff_right_iff_imp]
  exact lt_of_getMsbD

theorem positions_pairwise (b : BitVec w) : (positions b).Pairwise (· < ·) :=
  List.Pairwise.sublist List.filter_sublist List.pairwise_lt_range

/-- A vector is determined by its bits counted from the most significant one. -/
theorem eq_of_getMsbD {b c : BitVec w} (h : ∀ i, i < w → b.getMsbD i = c.getMsbD i) : b = c :=
  BitVec.eq_of_getMsbD_eq h

theorem positions_eq_nil {b : BitVec w} : positions b = [] ↔ b = 0#w := by
  constructor
  · intro h
    apply eq_of_getMsbD
    intro i _
    have hn : i ∉ positions b := by simp [h]
    simpa using hn
  · rintro rfl
    simp [positions]

theorem positions_ne_nil {b : BitVec w} (h : b ≠ 0#w) : positions b ≠ [] :=
  fun hn => h (positions_eq_nil.mp hn)

/-- Counting from either end gives the number of set bits. -/
theorem countP_getLsbD (b : BitVec w) :
    (List.range w).countP (fun i => b.getLsbD i) = (positions b).length := by
  have hr : (List.range w).reverse = (List.range w).map (fun i => w - 1 - i) := by
    apply List.ext_getElem
    · simp
    · intro n h1 h2
      simp [List.getElem_reverse]
  rw [positions, ← List.countP_eq_length_filter, ← List.countP_reverse, hr, List.countP_map]
  apply List.countP_congr
  intro i hi
  simp [BitVec.getMsbD_eq_getLsbD, List.mem_range.mp hi]

/-- The number of set bits strictly before a position. -/
def rank (ps : List Nat) (i : Nat) : Nat := (ps.filter (· < i)).length

theorem rank_le_length (ps : List Nat) (i : Nat) : rank ps i ≤ ps.length :=
  List.length_filter_le _ _

theorem rank_eq_length {ps : List Nat} {i : Nat} (h : ∀ j ∈ ps, j < i) :
    rank ps i = ps.length := by
  unfold rank
  rw [List.filter_eq_self.mpr (by simpa using h)]

/-- Adding a position is ordered insertion. -/
theorem positions_insert {b c : BitVec w} {i : Nat} (hi : b.getMsbD i = false)
    (hc : ∀ j, c.getMsbD j = true ↔ j = i ∨ b.getMsbD j = true) :
    positions c = (positions b).orderedInsert (· ≤ ·) i := by
  apply pairwise_lt_ext (positions_pairwise c)
  · have hn : i ∉ positions b := by simp [hi]
    have hs : ((positions b).orderedInsert (· ≤ ·) i).Pairwise (· ≤ ·) :=
      List.Pairwise.orderedInsert i _ ((positions_pairwise b).imp Nat.le_of_lt)
    have hd : ((positions b).orderedInsert (· ≤ ·) i).Nodup :=
      (List.perm_orderedInsert (· ≤ ·) i (positions b)).nodup_iff.mpr
        (List.nodup_cons.mpr ⟨hn, (positions_pairwise b).imp Nat.ne_of_lt⟩)
    exact (hs.and hd).imp (fun h => Nat.lt_of_le_of_ne h.1 h.2)
  · intro j
    rw [List.mem_orderedInsert, mem_positions, mem_positions, hc j]

/-- A vector of values kept in the order of the set bits. -/
def aligned (b : BitVec w) (vs : List ν) : List (Nat × ν) :=
  (positions b).zip vs

theorem ascending_zip {ps : List Nat} (h : ps.Pairwise (· < ·)) (vs : List ν) :
    Ascending (ps.zip vs) := by
  induction ps generalizing vs with
  | nil => exact .nil
  | cons p ps ih =>
    obtain ⟨hp, hps⟩ := List.pairwise_cons.mp h
    cases vs with
    | nil => exact .nil
    | cons v vs =>
      refine List.pairwise_cons.mpr ⟨?_, ih hps vs⟩
      rintro ⟨q, u⟩ hq
      exact hp q (List.of_mem_zip hq).1

theorem aligned_ascending (b : BitVec w) (vs : List ν) : Ascending (aligned b vs) :=
  ascending_zip (positions_pairwise b) vs

theorem zip_orderedInsert {ps : List Nat} {vs : List ν} (h : ps.Pairwise (· < ·))
    (hl : ps.length = vs.length) {i : Nat} (hi : i ∉ ps) (v : ν) :
    (ps.orderedInsert (· ≤ ·) i).zip (vs.insertIdx (rank ps i) v) =
      insertEntry i v (ps.zip vs) := by
  induction ps generalizing vs with
  | nil =>
    have hv : vs = [] := List.eq_nil_of_length_eq_zero hl.symm
    subst hv
    rfl
  | cons p ps ih =>
    obtain ⟨hp, hps⟩ := List.pairwise_cons.mp h
    cases vs with
    | nil => simp at hl
    | cons u vs =>
      have hne : i ≠ p := fun he => hi (by simp [he])
      rw [List.zip_cons_cons, insertEntry_cons]
      by_cases hlt : i < p
      · have hr : rank (p :: ps) i = 0 := by
          unfold rank
          rw [List.filter_eq_nil_iff.mpr]
          · rfl
          · intro q hq
            rcases List.mem_cons.mp hq with rfl | hq
            · simpa using Nat.le_of_lt hlt
            · simpa using Nat.le_of_lt (Nat.lt_trans hlt (hp q hq))
        simp [hr, List.orderedInsert, Nat.le_of_lt hlt, hlt]
      · have hr : rank (p :: ps) i = rank ps i + 1 := by
          unfold rank
          simp [show p < i by omega]
        have hle : ¬ i ≤ p := by omega
        rw [hr, List.insertIdx_succ_cons, List.orderedInsert, if_neg hle, if_neg hlt,
          List.zip_cons_cons,
          ih hps (by simpa using hl) (fun hm => hi (List.mem_cons_of_mem _ hm))]

/-- Inserting a value at the rank of a new position inserts its entry. -/
theorem aligned_insert {b c : BitVec w} {vs : List ν} (hl : (positions b).length = vs.length)
    {i : Nat} (hi : b.getMsbD i = false)
    (hc : ∀ j, c.getMsbD j = true ↔ j = i ∨ b.getMsbD j = true) (v : ν) :
    aligned c (vs.insertIdx (rank (positions b) i) v) = insertEntry i v (aligned b vs) := by
  unfold aligned
  rw [positions_insert hi hc]
  exact zip_orderedInsert (positions_pairwise b) hl (by simp [hi]) v

theorem length_positions_insert {b c : BitVec w} {i : Nat} (hi : b.getMsbD i = false)
    (hc : ∀ j, c.getMsbD j = true ↔ j = i ∨ b.getMsbD j = true) :
    (positions c).length = (positions b).length + 1 := by
  rw [positions_insert hi hc, List.orderedInsert_length]

theorem mem_aligned_fst {b : BitVec w} {vs : List ν} (hl : (positions b).length = vs.length)
    {i : Nat} (hi : b.getMsbD i = true) : ∃ v, (i, v) ∈ aligned b vs := by
  have hm : i ∈ ((positions b).zip vs).map Prod.fst := by
    rw [List.map_fst_zip (by omega)]
    exact mem_positions.mpr hi
  obtain ⟨⟨j, v⟩, hjv, rfl⟩ := List.mem_map.mp hm
  exact ⟨v, hjv⟩

theorem getMsbD_of_mem_aligned {b : BitVec w} {vs : List ν} {e : Nat × ν}
    (h : e ∈ aligned b vs) : b.getMsbD e.1 = true :=
  mem_positions.mp (List.of_mem_zip (a := e.1) (b := e.2) h).1

theorem getElem_rank_zip {ps : List Nat} (h : ps.Pairwise (· < ·)) {vs : List ν} {i : Nat} {v : ν}
    (hm : (i, v) ∈ ps.zip vs) : vs[rank ps i]? = some v := by
  induction ps generalizing vs with
  | nil => simp at hm
  | cons p ps ih =>
    obtain ⟨hp, hps⟩ := List.pairwise_cons.mp h
    cases vs with
    | nil => simp at hm
    | cons u vs =>
      rw [List.zip_cons_cons, List.mem_cons] at hm
      rcases hm with he | hm
      · obtain ⟨rfl, rfl⟩ := Prod.mk.injEq _ _ _ _ ▸ he
        have hr : rank (i :: ps) i = 0 := by
          unfold rank
          rw [List.filter_eq_nil_iff.mpr]
          · rfl
          · intro q hq
            rcases List.mem_cons.mp hq with rfl | hq
            · simp
            · simpa using Nat.le_of_lt (hp q hq)
        simp [hr]
      · have hlt : p < i := hp i (List.of_mem_zip hm).1
        have hr : rank (p :: ps) i = rank ps i + 1 := by
          unfold rank
          simp [hlt]
        rw [hr, List.getElem?_cons_succ]
        exact ih hps hm

/-- The value kept for a set bit sits at the rank of that bit. -/
theorem getElem_rank {b : BitVec w} {vs : List ν} {i : Nat} {v : ν}
    (hm : (i, v) ∈ aligned b vs) : vs[rank (positions b) i]? = some v :=
  getElem_rank_zip (positions_pairwise b) hm

end Mvdcc.Library
