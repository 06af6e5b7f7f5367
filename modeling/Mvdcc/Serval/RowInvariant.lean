import Mathlib.Tactic.Abel
import Mvdcc.Serval.System

namespace Mvdcc.Serval
open Library Bitmap

/-- The region of a row; a fresh one as long as it has none. -/
def Memory.own (m : Memory) : RowRegion :=
  match m.value.rowRegion with
  | some region => m.controller.regions region
  | none => RowRegion.fresh

theorem RowRegion.mem_owned {r : RowRegion} {p : Ptr} :
    p ∈ r.owned ↔ ∃ c < 64, p ∈ (r.arrays c).slots := by
  simp [owned, Multiset.mem_sum, mem_cores]

/-- An owned version is held, or it is a leftover of a core that has not written. -/
theorem RowRegion.owned_cases {r : RowRegion} (hw : r.WellFormed) {p : Ptr} (hp : p ∈ r.owned) :
    (∃ i, (i, p) ∈ r.entries) ∨
      ∃ c < 64, r.coreBitmap.getMsbD c = false ∧ p ∈ (r.arrays c).slots := by
  obtain ⟨c, h64, hm⟩ := mem_owned.mp hp
  cases hb : r.coreBitmap.getMsbD c with
  | false => exact Or.inr ⟨c, h64, hb, hm⟩
  | true =>
    obtain ⟨n, hn, rfl⟩ := List.getElem_of_mem hm
    have hl := hw c hb
    have hz : n < (aligned (r.arrays c).transactionBitmap (r.arrays c).slots).length := by
      unfold aligned
      rw [List.length_zip]
      omega
    have ha := List.getElem_mem hz
    unfold aligned at ha hz
    rw [List.getElem_zip] at ha
    exact Or.inl ⟨_, mem_entries.mpr ⟨c, _, hb, ha, rfl⟩⟩

theorem RowRegion.mem_owned_of_entries {r : RowRegion} {i : Int} {p : Ptr}
    (h : (i, p) ∈ r.entries) : p ∈ r.owned := by
  obtain ⟨c, t, hc, ha, _⟩ := mem_entries.mp h
  exact mem_owned.mpr ⟨c, lt_of_getMsbD hc, (List.of_mem_zip ha).2⟩

section Row
variable (row : Row) (own : RowRegion)

/-- The versions a row holds of the epoch that wrote it last, by serial id. -/
def contents : List (Int × Ptr) := row.value.globalArray.idsSlots ++ own.entries

/-- Every version the row still points to. -/
def live : Multiset Ptr :=
  (row.value.master.toList : Multiset Ptr) +
    (row.value.globalArray.idsSlots.map Prod.snd : Multiset Ptr) + own.owned

/-- What holds of a row at every step: one of its two containers is in use, and
every version ever created is in exactly one place. -/
structure Kept (held : Multiset Ptr) : Prop where
  shape : row.value.rowRegion ≠ none → row.value.globalArray.idsSlots = []
  installed : row.value.rowRegion = none → own = RowRegion.fresh
  ascending : Ascending row.value.globalArray.idsSlots
  wellFormed : own.WellFormed
  places : (row.heap.freed : Multiset Ptr) + live row own + held = Multiset.range row.heap.next
  clean : row.heap.CleanLog

/-- The pointer is the version a stamp names: the loaded one before any write. -/
def IsVersionOf (stamp : Option Stamp) (p : Ptr) : Prop :=
  match stamp with
  | none => p = 0 ∧ row.heap.version p = ⟨some (.loaded 0), .stable⟩
  | some st => row.pending (ofLex st).1 (ofLex st).2 = some p ∧
      row.heap.version p = ⟨some (.written (ofLex st).1 (ofLex st).2), .stable⟩

/-- The master version lags one writing epoch behind. -/
def IsMaster (t : Trail) (p : Ptr) : Prop :=
  match t.latest with
  | none => row.heap.version p = ⟨some (.loaded 1), .stable⟩
  | some _ => IsVersionOf row t.previous p

/-- A row as the writing epochs so far have left it. -/
structure Settled (t : Trail) : Prop where
  kept : Kept row own 0
  epoch : row.value.epoch = t.epoch
  finished : ∀ p ∈ live row own, row.heap.Finished p
  populated : own.Populated
  last : ∃ i q, (contents row own).getLast? = some (i, q) ∧ IsVersionOf row t.latest q
  master : ∃ q, row.value.master = some q ∧ IsMaster row t q

end Row

section Kept
variable {row : Row} {own : RowRegion} {held : Multiset Ptr} {p : Ptr}

theorem contents_ascending (h : Kept row own held) : Ascending (contents row own) := by
  unfold contents
  cases hr : row.value.rowRegion with
  | none =>
    rw [h.installed hr, RowRegion.entries_fresh, List.append_nil]
    exact h.ascending
  | some region =>
    rw [h.shape (by simp [hr]), List.nil_append]
    exact own.entries_ascending

theorem mem_live : p ∈ live row own ↔ row.value.master = some p ∨
    (∃ i, (i, p) ∈ row.value.globalArray.idsSlots) ∨ p ∈ own.owned := by
  simp [live, Option.mem_toList, or_assoc]

theorem mem_live_of_contents {i : Int} (h : (i, p) ∈ contents row own) : p ∈ live row own := by
  rw [mem_live]
  rcases List.mem_append.mp h with h | h
  · exact Or.inr (Or.inl ⟨i, h⟩)
  · exact Or.inr (Or.inr (RowRegion.mem_owned_of_entries h))

theorem mem_live_of_slots {c : Nat} (hc : c < 64) (h : p ∈ (own.arrays c).slots) :
    p ∈ live row own :=
  mem_live.mpr (Or.inr (Or.inr (RowRegion.mem_owned.mpr ⟨c, hc, h⟩)))

/-- A live version is the master, held for the current epoch, or a leftover. -/
theorem live_cases (h : Kept row own held) (hp : p ∈ live row own) :
    row.value.master = some p ∨ (∃ i, (i, p) ∈ contents row own) ∨
      ∃ c < 64, own.coreBitmap.getMsbD c = false ∧ p ∈ (own.arrays c).slots := by
  rcases mem_live.mp hp with hm | ⟨i, hi⟩ | ho
  · exact Or.inl hm
  · exact Or.inr (Or.inl ⟨i, List.mem_append_left _ hi⟩)
  · rcases RowRegion.owned_cases h.wellFormed ho with ⟨i, hi⟩ | hs
    · exact Or.inr (Or.inl ⟨i, List.mem_append_right _ hi⟩)
    · exact Or.inr (Or.inr hs)

theorem Kept.lt_next (h : Kept row own held) (hp : p ∈ live row own) : p < row.heap.next := by
  rw [← Multiset.mem_range, ← h.places]
  exact Multiset.mem_add.mpr (Or.inl (Multiset.mem_add.mpr (Or.inr hp)))

theorem Kept.held_lt_next (h : Kept row own held) (hp : p ∈ held) : p < row.heap.next := by
  rw [← Multiset.mem_range, ← h.places]
  exact Multiset.mem_add.mpr (Or.inr hp)

theorem Kept.nodup (h : Kept row own held) :
    ((row.heap.freed : Multiset Ptr) + live row own + held).Nodup := by
  rw [h.places]
  exact Multiset.nodup_range _

theorem Kept.not_freed (h : Kept row own held) (hp : p ∈ live row own) :
    p ∉ row.heap.freed := by
  intro hf
  have hd := (Multiset.nodup_add.mp (Multiset.nodup_add.mp h.nodup).1).2.2
  exact Multiset.disjoint_left.mp hd hf hp

theorem Kept.not_live (h : Kept row own held) (hp : p ∈ held) : p ∉ live row own := by
  intro hl
  have hd := (Multiset.nodup_add.mp h.nodup).2.2
  exact Multiset.disjoint_left.mp hd (Multiset.mem_add.mpr (Or.inr hl)) hp

end Kept
end Mvdcc.Serval
