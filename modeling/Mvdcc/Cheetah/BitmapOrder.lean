import Mathlib.Data.Prod.Lex
import Mvdcc.Cheetah.System

namespace Mvdcc.Cheetah
open Library Bitmap

namespace WriteBitmap

/-- The passes of the workers over one row, in the order in which they got its lock. -/
def updateBitmaps (b : WriteBitmap) (es : List (Nat × BitVec 64)) : WriteBitmap :=
  es.foldl (fun b e => b.updateBitmap e.1 e.2) b

/-- One of these transaction bitmaps names this transaction. -/
def RecordedIn (es : List (Nat × BitVec 64)) (core tx : Nat) : Prop :=
  ∃ txBitmap, (core, txBitmap) ∈ es ∧ txBitmap.getMsbD tx = true

/-- The bitmaps hold exactly these pairs, each at the rank of its core. -/
structure HoldsBitmaps (b : WriteBitmap) (es : List (Nat × BitVec 64)) : Prop where
  packed : b.Packed
  cores : ∀ c, b.coreBitmap.getMsbD c = true ↔ c ∈ es.map Prod.fst
  bitmaps : ∀ e ∈ es, b.txBitmapOf e.1 = e.2

section Holds
variable {b b' : WriteBitmap} {es es' rest : List (Nat × BitVec 64)}

theorem HoldsBitmaps.update {core : Nat} {txBitmap : BitVec 64} (h : b.HoldsBitmaps es)
    (hcore : core < 64) (hne : txBitmap ≠ 0) (hnew : core ∉ es.map Prod.fst) :
    (b.updateBitmap core txBitmap).HoldsBitmaps ((core, txBitmap) :: es) := by
  have hclear : b.coreBitmap.getMsbD core = false := by
    rw [Bool.eq_false_iff, Ne, h.cores]
    exact hnew
  refine ⟨h.packed.updateBitmap hcore hclear hne, ?_, ?_⟩
  · intro c
    rw [updateBitmap_core _ hcore, h.cores, List.map_cons, List.mem_cons]
  · intro e he
    have hmem : e.1 = core ∨ b.coreBitmap.getMsbD e.1 = true := by
      rcases List.mem_cons.mp he with rfl | he
      · exact Or.inl rfl
      · exact Or.inr ((h.cores _).mpr (List.mem_map_of_mem he))
    rw [updateBitmap_txBitmapOf _ h.packed.length hcore hclear hmem]
    rcases List.mem_cons.mp he with rfl | hmem
    · rw [if_pos rfl]
    · have hec : e.1 ≠ core := by
        intro heq
        exact hnew (heq ▸ List.mem_map_of_mem hmem)
      rw [if_neg hec]
      exact h.bitmaps e hmem

theorem HoldsBitmaps.perm (h : b.HoldsBitmaps es) (hp : es.Perm es') : b.HoldsBitmaps es' :=
  ⟨h.packed, fun c => (h.cores c).trans (hp.map Prod.fst).mem_iff,
    fun e he => h.bitmaps e (hp.mem_iff.mpr he)⟩

theorem HoldsBitmaps.updateBitmaps (h : b.HoldsBitmaps es)
    (hvalid : ∀ e ∈ rest, e.1 < 64 ∧ e.2 ≠ 0) (hdistinct : ((es ++ rest).map Prod.fst).Nodup) :
    (b.updateBitmaps rest).HoldsBitmaps (es ++ rest) := by
  induction rest generalizing b es with
  | nil => rwa [List.append_nil]
  | cons e rest ih =>
    obtain ⟨core, txBitmap⟩ := e
    obtain ⟨hcore, hne⟩ := hvalid _ List.mem_cons_self
    have hperm : ((core, txBitmap) :: es ++ rest).Perm (es ++ (core, txBitmap) :: rest) :=
      List.perm_middle.symm
    have hdistinct' := (hperm.map Prod.fst).nodup_iff.mpr hdistinct
    have hnew : core ∉ es.map Prod.fst := by
      intro hm
      rw [List.cons_append, List.map_cons, List.nodup_cons] at hdistinct'
      exact hdistinct'.1 (by rw [List.map_append]; exact List.mem_append_left _ hm)
    exact (ih (h.update hcore hne hnew) (fun e he => hvalid e (List.mem_cons_of_mem _ he))
      hdistinct').perm hperm

theorem holds_empty (hc : b.coreBitmap = 0) (ht : b.txBitmaps = []) : b.HoldsBitmaps [] := by
  refine ⟨packed_of_empty hc ht, ?_, ?_⟩
  · intro c
    simp [hc]
  · intro e he
    cases he

/-- A packed vector lists the transaction bitmaps of its cores in order. -/
theorem Packed.txBitmaps_eq (h : b.Packed) :
    b.txBitmaps = (positions b.coreBitmap).map b.txBitmapOf := by
  have haligned : aligned b.coreBitmap b.txBitmaps =
      (positions b.coreBitmap).map (fun c => (c, b.txBitmapOf c)) := by
    apply (aligned_ascending _ _).ext
    · unfold Ascending
      rw [List.pairwise_map]
      exact positions_pairwise _
    · intro e
      rw [List.mem_map]
      constructor
      · intro he
        refine ⟨e.1, mem_positions.mpr (getMsbD_of_mem_aligned he), ?_⟩
        rw [txBitmapOf_eq he]
      · intro he
        obtain ⟨c, hc, rfl⟩ := he
        exact mem_aligned h.length (mem_positions.mp hc)
  have hsnd := congrArg (List.map Prod.snd) haligned
  rw [aligned, List.map_snd_zip (Nat.le_of_eq h.length.symm), List.map_map] at hsnd
  exact hsnd

/-- The pairs determine both bitmap levels. -/
theorem HoldsBitmaps.unique (h : b.HoldsBitmaps es) (h' : b'.HoldsBitmaps es) :
    b.coreBitmap = b'.coreBitmap ∧ b.txBitmaps = b'.txBitmaps := by
  have hcore : b.coreBitmap = b'.coreBitmap := by
    apply BitVec.eq_of_getMsbD_eq
    intro c _
    rw [Bool.eq_iff_iff, h.cores, h'.cores]
  refine ⟨hcore, ?_⟩
  rw [h.packed.txBitmaps_eq, h'.packed.txBitmaps_eq, hcore]
  apply List.map_congr_left
  intro c hc
  obtain ⟨e, he, rfl⟩ := List.mem_map.mp ((h'.cores c).mp (mem_positions.mp hc))
  rw [h.bitmaps e he, h'.bitmaps e he]

theorem HoldsBitmaps.recorded_iff (h : b.HoldsBitmaps es) {c t : Nat} :
    Recorded b.coreBitmap b.txBitmapOf c t ↔ RecordedIn es c t := by
  constructor
  · intro hr
    obtain ⟨e, he, rfl⟩ := List.mem_map.mp ((h.cores c).mp hr.1)
    refine ⟨e.2, he, ?_⟩
    rw [← h.bitmaps e he]
    exact hr.2
  · intro hr
    obtain ⟨txBitmap, he, hbit⟩ := hr
    refine ⟨(h.cores c).mpr (List.mem_map_of_mem he), ?_⟩
    rw [h.bitmaps _ he]
    exact hbit

theorem HoldsBitmaps.getElem_countPrefixSum (h : b.HoldsBitmaps es) {e : Nat × BitVec 64}
    (he : e ∈ es) : b.txBitmaps[b.countPrefixSum e.1]? = some e.2 := by
  rw [countPrefixSum_eq, ← h.bitmaps e he]
  exact getElem_rank (mem_aligned h.packed.length ((h.cores _).mpr (List.mem_map_of_mem he)))

end Holds

section Order
variable {b : WriteBitmap} {es es' : List (Nat × BitVec 64)}

/-- What the bitmaps answer about the transactions recorded in these pairs. -/
structure Answers (b : WriteBitmap) (es : List (Nat × BitVec 64)) : Prop where
  visible : ∀ core tx, tx < 64 → match b.identifyVisibleVersionInBitmaps core tx with
    | some (c, t) => RecordedIn es c t ∧ toLex (c, t) < toLex (core, tx) ∧
        ∀ c' t', RecordedIn es c' t' → toLex (c', t') < toLex (core, tx) →
          toLex (c', t') ≤ toLex (c, t)
    | none => ∀ c t, RecordedIn es c t → ¬ toLex (c, t) < toLex (core, tx)
  final : ∀ core tx, b.isFinalState core tx = true ↔
    RecordedIn es core tx ∧ ∀ c t, RecordedIn es c t → toLex (c, t) ≤ toLex (core, tx)

theorem HoldsBitmaps.answers (h : b.HoldsBitmaps es) : b.Answers es := by
  constructor
  · intro core tx htx
    have hs := identifyVisible_spec core h.packed.nonzero htx
    unfold identifyVisibleVersionInBitmaps
    split
    · rename_i c t he
      rw [he] at hs
      obtain ⟨hr, hlt, hmax⟩ := hs
      have ht := hr.lt.2
      refine ⟨h.recorded_iff.mp hr, ?_, ?_⟩
      · rw [Prod.Lex.toLex_lt_toLex]
        omega
      · intro c' t' hr' hlt'
        have ht' := (h.recorded_iff.mpr hr').lt.2
        rw [Prod.Lex.toLex_lt_toLex] at hlt'
        have hle := hmax c' t' (h.recorded_iff.mpr hr') (by omega)
        rw [Prod.Lex.toLex_le_toLex]
        omega
    · rename_i he
      rw [he] at hs
      intro c t hr hlt
      have ht := (h.recorded_iff.mpr hr).lt.2
      rw [Prod.Lex.toLex_lt_toLex] at hlt
      exact hs c t (h.recorded_iff.mpr hr) (by omega)
  · intro core tx
    rw [h.packed.isFinalState_iff, h.recorded_iff]
    simp only [h.recorded_iff, Prod.Lex.toLex_le_toLex]

/-- The bitmaps do not depend on the order in which the cores mark the row, and they
answer by the lexicographic order of cores and transactions. -/
theorem updateBitmaps_any_order (hc : b.coreBitmap = 0) (ht : b.txBitmaps = [])
    (hvalid : ∀ e ∈ es, e.1 < 64 ∧ e.2 ≠ 0) (hdistinct : (es.map Prod.fst).Nodup)
    (hperm : es'.Perm es) :
    ((b.updateBitmaps es').coreBitmap = (b.updateBitmaps es).coreBitmap ∧
      (b.updateBitmaps es').txBitmaps = (b.updateBitmaps es).txBitmaps) ∧
    (∀ c, (b.updateBitmaps es).coreBitmap.getMsbD c = true ↔ c ∈ es.map Prod.fst) ∧
    (b.updateBitmaps es).txBitmaps.length = es.length ∧
    (∀ e ∈ es, (b.updateBitmaps es).txBitmaps[(b.updateBitmaps es).countPrefixSum e.1]? =
      some e.2) ∧
    (b.updateBitmaps es).Answers es := by
  have h := (holds_empty hc ht).updateBitmaps hvalid hdistinct
  have h' := (holds_empty hc ht).updateBitmaps (fun e he => hvalid e (hperm.mem_iff.mp he))
    ((hperm.map Prod.fst).nodup_iff.mpr hdistinct)
  rw [List.nil_append] at h h'
  have hlength : (b.updateBitmaps es).txBitmaps.length = es.length := by
    have hcores : (positions (b.updateBitmaps es).coreBitmap).Perm (es.map Prod.fst) := by
      rw [List.perm_ext_iff_of_nodup ((positions_pairwise _).imp Nat.ne_of_lt) hdistinct]
      intro c
      rw [mem_positions, h.cores]
    rw [← h.packed.length, hcores.length_eq, List.length_map]
  exact ⟨(h'.perm hperm).unique h, h.cores, hlength, fun e he => h.getElem_countPrefixSum he,
    h.answers⟩

/-- Three cores that mark a loaded row, and the same cores the other way round. -/
theorem three_cores_any_order :
    let es : List (Nat × BitVec 64) := [(5, 3#64), (0, 1#64), (63, 8#64)]
    let b := loadedRow.wBitmap
    ((b.updateBitmaps es.reverse).coreBitmap = (b.updateBitmaps es).coreBitmap ∧
      (b.updateBitmaps es.reverse).txBitmaps = (b.updateBitmaps es).txBitmaps) ∧
    (∀ c, (b.updateBitmaps es).coreBitmap.getMsbD c = true ↔ c ∈ es.map Prod.fst) ∧
    (b.updateBitmaps es).txBitmaps.length = es.length ∧
    (∀ e ∈ es, (b.updateBitmaps es).txBitmaps[(b.updateBitmaps es).countPrefixSum e.1]? =
      some e.2) ∧
    (b.updateBitmaps es).Answers es :=
  updateBitmaps_any_order rfl rfl (by decide) (by decide) (List.reverse_perm _)

end Order
end WriteBitmap
end Mvdcc.Cheetah
