import Mvdcc.Cheetah.RowInvariant

namespace Mvdcc.Cheetah
open Library Bitmap

section WritePhase
variable {W : List Nat} {row : Row} {latest : Option Stamp}
variable {bits : Nat → BitVec 64} {pcs : Nat → Pc}

theorem Resting.setLock (h : Resting row latest) (l : RWLock) : Resting (row.setLock l) latest :=
  ⟨h.kept.of_eq rfl rfl, h.refCnt, h.placeholders, h.previous, h.master⟩

theorem Quiet.marking (h : Quiet row latest) (hb : ∀ core, bits core = 0)
    (hp : ∀ serial ∈ W, pcs serial = .start) : Marking W row latest bits pcs := by
  refine ⟨h.toResting, WriteBitmap.packed_of_empty h.coreBitmap h.txBitmaps, ?_, ?_⟩
  · intro serial hc
    rw [h.coreBitmap] at hc
    simp at hc
  · intro serial _
    rw [hb]
    simp only [BitVec.ofNat_eq_ofNat, BitVec.getMsbD_zero, Bool.false_eq_true, false_iff, not_and]
    intro hs hd
    rw [hp serial hs] at hd
    cases hd

namespace Marking

theorem setLock (h : Marking W row latest bits pcs) (l : RWLock) :
    Marking W (row.setLock l) latest bits pcs :=
  ⟨h.resting.setLock l, ⟨h.packed.length, h.packed.nonzero⟩, h.marked, h.unmarked⟩

/-- What a worker remembers no longer matters once its core has marked the row. -/
theorem forget (h : Marking W row latest bits pcs) {core : Nat} (x : BitVec 64)
    (hc : row.wBitmap.coreBitmap.getMsbD core = true) :
    Marking W row latest (Function.update bits core x) pcs := by
  refine ⟨h.resting, h.packed, h.marked, ?_⟩
  intro serial hclear
  have hne : getCoreSerial serial ≠ core := by
    intro he
    rw [he, hc] at hclear
    cases hclear
  rw [Function.update_of_ne hne]
  exact h.unmarked serial hclear

/-- `update_write_bitmaps` of one transaction. -/
theorem remember (h : Marking W row latest bits pcs) {serial : Nat} (hs : serial ∈ W)
    {core : Nat} (hcore : getCoreSerial serial = core) :
    Marking W row latest
      (Function.update bits core
        (setBitOfBitmapAtTheGivenLocation (bits core) (getTxSerial serial)))
      (Function.update pcs serial .done) := by
  refine ⟨h.resting, h.packed, h.marked, ?_⟩
  intro serial' hclear
  have hold := h.unmarked serial' hclear
  by_cases he : serial' = serial
  · subst he
    rw [hcore, Function.update_self, Function.update_self,
      getMsbD_setBitOfBitmap (getTxSerial_lt serial')]
    simp [hs]
  · rw [Function.update_of_ne he, ← hold]
    by_cases hc : getCoreSerial serial' = core
    · have hne : getTxSerial serial' ≠ getTxSerial serial := by
        intro ht
        apply he
        rw [← getSerialId_split serial', ← getSerialId_split serial, hc, hcore, ht]
      rw [hc, Function.update_self, getMsbD_setBitOfBitmap (getTxSerial_lt serial)]
      simp [hne]
    · rw [Function.update_of_ne hc]

/-- `update_bitmap`: a core publishes what its worker has collected. -/
theorem publish (h : Marking W row latest bits pcs) {core : Nat} (hcore : core < 64)
    (hclear : row.wBitmap.coreBitmap.getMsbD core = false) (hne : bits core ≠ 0)
    (hdone : ∀ serial ∈ W, getCoreSerial serial = core → pcs serial = .done) :
    Marking W { row with wBitmap := row.wBitmap.updateBitmap core (bits core) } latest bits pcs := by
  refine ⟨⟨h.resting.kept.of_eq rfl rfl, h.resting.refCnt, h.resting.placeholders,
    h.resting.previous, h.resting.master⟩, h.packed.updateBitmap hcore hclear hne, ?_, ?_⟩
  · intro serial hc
    have hc' := (WriteBitmap.updateBitmap_core _ hcore _).mp hc
    have htx := WriteBitmap.updateBitmap_txBitmapOf (bits core) h.packed.length hcore
      hclear hc'
    unfold WriteBitmap.Records Recorded
    simp only [hc, htx, true_and]
    by_cases he : getCoreSerial serial = core
    · have hold := h.unmarked serial (he ▸ hclear)
      rw [if_pos he]
      rw [he] at hold
      rw [hold]
      exact ⟨fun hs => hs.1, fun hs => ⟨hs, hdone serial hs he⟩⟩
    · have hold := hc'.resolve_left he
      rw [if_neg he, ← h.marked serial hold]
      simp [WriteBitmap.Records, Recorded, hold]
  · intro serial hc
    apply h.unmarked serial
    by_contra hn
    rw [Bool.not_eq_false] at hn
    rw [(WriteBitmap.updateBitmap_core _ hcore _).mpr (Or.inr hn)] at hc
    cases hc

/-- At the end of the phase the bitmaps name exactly the writers of the epoch. -/
theorem finish (h : Marking W row latest bits pcs) (hb : ∀ core, bits core = 0)
    (hd : ∀ serial, pcs serial = .done) : row.wBitmap.Marked W := by
  refine ⟨h.packed, ?_⟩
  intro serial
  cases hc : row.wBitmap.coreBitmap.getMsbD (getCoreSerial serial) with
  | true => exact h.marked serial hc
  | false =>
    have hn := h.unmarked serial hc
    rw [hb, hd] at hn
    have hW : serial ∉ W := by simpa using hn
    simp [WriteBitmap.Records, Recorded, hc, hW]

end Marking
end WritePhase
end Mvdcc.Cheetah
