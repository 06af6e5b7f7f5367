import Mathlib.Data.Prod.Lex
import Mathlib.Order.Bounds.Basic

namespace Mvdcc.Library

/-- When a write happens: an epoch, and a serial id inside it. -/
abbrev Stamp := ℕ ×ₗ ℕ

def stamp (epoch serial : ℕ) : Stamp := toLex (epoch, serial)

theorem stamp_lt {e s e' s' : ℕ} : stamp e s < stamp e' s' ↔ e < e' ∨ (e = e' ∧ s < s') :=
  Prod.Lex.toLex_lt_toLex

/-- The writes a reader at a stamp must not miss: everything serialized before it. -/
def earlier (writes : ℕ → ℕ → Prop) (bound : Stamp) : Set Stamp :=
  {p | writes (ofLex p).1 (ofLex p).2 ∧ p < bound}

/-- The last write serialized before a stamp. -/
def IsLastWrite (writes : ℕ → ℕ → Prop) (bound p : Stamp) : Prop :=
  IsGreatest (earlier writes bound) p

theorem mem_earlier {writes : ℕ → ℕ → Prop} {e s e' s' : ℕ} :
    stamp e' s' ∈ earlier writes (stamp e s) ↔
      writes e' s' ∧ (e' < e ∨ (e' = e ∧ s' < s)) := by
  simp only [earlier, Set.mem_ofPred_eq, stamp_lt]
  rfl

theorem exists_stamp (p : Stamp) : ∃ e s, p = stamp e s :=
  ⟨(ofLex p).1, (ofLex p).2, rfl⟩

/-- Nothing is serialized before an epoch if no epoch before it writes. -/
theorem earlier_eq_empty {writes : ℕ → ℕ → Prop} {e : ℕ} :
    earlier writes (stamp e 0) = ∅ ↔ ∀ e' < e, ∀ s, ¬ writes e' s := by
  rw [Set.eq_empty_iff_forall_notMem]
  constructor
  · intro hn e' hlt s hw
    exact hn (stamp e' s) (mem_earlier.mpr ⟨hw, Or.inl hlt⟩)
  · intro hn p hm
    obtain ⟨e', s, rfl⟩ := exists_stamp p
    obtain ⟨hw, hlt | ⟨_, hlt⟩⟩ := mem_earlier.mp hm
    · exact hn e' hlt s hw
    · exact Nat.not_lt_zero _ hlt

/-- A write of the reader's own epoch hides every earlier epoch. -/
theorem isLastWrite_same {writes : ℕ → ℕ → Prop} {e s w : ℕ} (hw : writes e w) (hlt : w < s)
    (hmax : ∀ w', writes e w' → w' < s → w' ≤ w) :
    IsLastWrite writes (stamp e s) (stamp e w) := by
  refine ⟨mem_earlier.mpr ⟨hw, Or.inr ⟨rfl, hlt⟩⟩, ?_⟩
  intro p hm
  obtain ⟨e', w', rfl⟩ := exists_stamp p
  obtain ⟨hw', hlt' | ⟨rfl, hlt'⟩⟩ := mem_earlier.mp hm
  · exact le_of_lt (stamp_lt.mpr (Or.inl hlt'))
  · rcases Nat.lt_or_eq_of_le (hmax w' hw' hlt') with h | rfl
    · exact le_of_lt (stamp_lt.mpr (Or.inr ⟨rfl, h⟩))
    · exact le_refl _

/-- With no earlier write in its own epoch, a reader looks back from the epoch's start. -/
theorem earlier_eq_start {writes : ℕ → ℕ → Prop} {e s : ℕ}
    (hn : ∀ w, writes e w → ¬ w < s) :
    earlier writes (stamp e s) = earlier writes (stamp e 0) := by
  apply Set.ext
  intro p
  obtain ⟨e', w', rfl⟩ := exists_stamp p
  rw [mem_earlier, mem_earlier]
  constructor
  · rintro ⟨hw, hlt | ⟨he, hlt⟩⟩
    · exact ⟨hw, Or.inl hlt⟩
    · exact absurd hlt (hn _ (he ▸ hw))
  · rintro ⟨hw, hlt | ⟨_, hlt⟩⟩
    · exact ⟨hw, Or.inl hlt⟩
    · exact absurd hlt (Nat.not_lt_zero _)

theorem earlier_succ_of_none {writes : ℕ → ℕ → Prop} {e : ℕ} (hn : ∀ w, ¬ writes e w) :
    earlier writes (stamp (e + 1) 0) = earlier writes (stamp e 0) := by
  apply Set.ext
  intro p
  obtain ⟨e', w', rfl⟩ := exists_stamp p
  rw [mem_earlier, mem_earlier]
  constructor
  · rintro ⟨hw, hlt | ⟨_, hlt⟩⟩
    · have hne : e' ≠ e := fun he => hn _ (he ▸ hw)
      exact ⟨hw, Or.inl (by omega)⟩
    · exact absurd hlt (Nat.not_lt_zero _)
  · rintro ⟨hw, hlt | ⟨_, hlt⟩⟩
    · exact ⟨hw, Or.inl (by omega)⟩
    · exact absurd hlt (Nat.not_lt_zero _)

theorem isLastWrite_succ {writes : ℕ → ℕ → Prop} {e w : ℕ} (hw : writes e w)
    (hmax : ∀ w', writes e w' → w' ≤ w) :
    IsLastWrite writes (stamp (e + 1) 0) (stamp e w) := by
  refine ⟨mem_earlier.mpr ⟨hw, Or.inl (Nat.lt_succ_self e)⟩, ?_⟩
  intro p hm
  obtain ⟨e', w', rfl⟩ := exists_stamp p
  obtain ⟨hw', hlt' | ⟨_, hlt'⟩⟩ := mem_earlier.mp hm
  · rcases Nat.lt_or_eq_of_le (Nat.lt_succ_iff.mp hlt') with h | rfl
    · exact le_of_lt (stamp_lt.mpr (Or.inl h))
    · rcases Nat.lt_or_eq_of_le (hmax w' hw') with h | rfl
      · exact le_of_lt (stamp_lt.mpr (Or.inr ⟨rfl, h⟩))
      · exact le_refl _
  · exact absurd hlt' (Nat.not_lt_zero _)

/-- What a row remembers between epochs: the epoch that wrote it last, that
epoch's final write, and the final write of the writing epoch before. -/
structure Trail where
  epoch : ℕ
  previous : Option Stamp
  latest : Option Stamp
  deriving DecidableEq

/-- The trail before an epoch, from the final writer of each epoch. -/
def trail (final : ℕ → Option ℕ) : ℕ → Trail
  | 0 => ⟨0, none, none⟩
  | e + 1 =>
    match final e with
    | none => trail final e
    | some w => ⟨e, (trail final e).latest, some (stamp e w)⟩

section Trail
variable {final : ℕ → Option ℕ} {writes : ℕ → ℕ → Prop}

/-- `final` names the greatest writer of every epoch that has one. -/
def IsFinal (final : ℕ → Option ℕ) (writes : ℕ → ℕ → Prop) : Prop :=
  ∀ e, match final e with
    | none => ∀ w, ¬ writes e w
    | some w => writes e w ∧ ∀ w', writes e w' → w' ≤ w

theorem trail_succ_none (h : final e = none) : trail final (e + 1) = trail final e := by
  simp [trail, h]

theorem trail_succ_some (h : final e = some w) :
    trail final (e + 1) = ⟨e, (trail final e).latest, some (stamp e w)⟩ := by
  simp [trail, h]

theorem trail_epoch_lt (h : 0 < e) : (trail final e).epoch < e := by
  induction e with
  | zero => cases h
  | succ e ih =>
    cases hf : final e with
    | some w =>
      rw [trail_succ_some hf]
      exact Nat.lt_succ_self e
    | none =>
      rw [trail_succ_none hf]
      rcases Nat.eq_zero_or_pos e with rfl | hp
      · exact Nat.zero_lt_one
      · exact Nat.lt_succ_of_lt (ih hp)

/-- The latest write of the trail is the last write before the epoch starts. -/
theorem trail_latest (hf : IsFinal final writes) (e : ℕ) :
    match (trail final e).latest with
    | none => earlier writes (stamp e 0) = ∅
    | some p => IsLastWrite writes (stamp e 0) p := by
  induction e with
  | zero =>
    apply Set.eq_empty_of_forall_notMem
    intro p hm
    obtain ⟨e', w', rfl⟩ := exists_stamp p
    obtain ⟨_, h | ⟨_, h⟩⟩ := mem_earlier.mp hm <;> exact Nat.not_lt_zero _ h
  | succ e ih =>
    have he := hf e
    cases hw : final e with
    | none =>
      rw [hw] at he
      rw [trail_succ_none hw]
      unfold IsLastWrite
      rw [earlier_succ_of_none he]
      exact ih
    | some w =>
      rw [hw] at he
      rw [trail_succ_some hw]
      exact isLastWrite_succ he.1 he.2

/-- Both remembered writes lie in epochs that are over, the previous one strictly earlier. -/
theorem trail_ordered (e : ℕ) :
    (∀ p, (trail final e).latest = some p → (ofLex p).1 = (trail final e).epoch) ∧
    (∀ p q, (trail final e).previous = some p → (trail final e).latest = some q →
      (ofLex p).1 < (ofLex q).1) ∧
    ((trail final e).latest = none → (trail final e).previous = none) := by
  induction e with
  | zero => simp [trail]
  | succ e ih =>
    cases hw : final e with
    | none =>
      rw [trail_succ_none hw]
      exact ih
    | some w =>
      rw [trail_succ_some hw]
      refine ⟨?_, ?_, by simp⟩
      · rintro p hp
        rw [← Option.some.inj hp]
        rfl
      · intro p q hp hq
        rw [← Option.some.inj hq]
        change (ofLex p).1 < e
        rw [ih.1 p hp]
        refine trail_epoch_lt (Nat.pos_of_ne_zero ?_)
        rintro rfl
        simp [trail] at hp

/-- Everything a trail remembers happened before its epoch. -/
theorem trail_before (e : ℕ) {p : Stamp}
    (h : (trail final e).latest = some p ∨ (trail final e).previous = some p) :
    (ofLex p).1 < e := by
  have hpos : 0 < e := by
    rcases Nat.eq_zero_or_pos e with rfl | hpos
    · simp [trail] at h
    · exact hpos
  have hlt : (trail final e).epoch < e := trail_epoch_lt hpos
  obtain ⟨hl, hpl, hn⟩ := @trail_ordered final e
  rcases h with h | h
  · exact hl p h ▸ hlt
  · cases hq : (trail final e).latest with
    | none =>
      rw [hn hq] at h
      cases h
    | some q =>
      have := hpl p q h hq
      rw [hl q hq] at this
      omega

/-- A row whose trail shows a write never equates its two remembered writes. -/
theorem trail_previous_ne_latest (e : ℕ) (h : (trail final e).latest ≠ none) :
    (trail final e).previous ≠ (trail final e).latest := by
  intro he
  obtain ⟨q, hq⟩ := Option.ne_none_iff_exists'.mp h
  exact lt_irrefl _ ((trail_ordered e).2.1 q q (he.trans hq) hq)

/-- A trail without a write is that of the start. -/
theorem trail_unwritten (e : ℕ) (h : (trail final e).latest = none) :
    (trail final e).epoch = 0 := by
  induction e with
  | zero => rfl
  | succ e ih =>
    cases hw : final e with
    | none =>
      rw [trail_succ_none hw] at h ⊢
      exact ih h
    | some w =>
      rw [trail_succ_some hw] at h
      cases h

/-- The previous write is the latest one of before the epoch that wrote last. -/
theorem trail_previous (e : ℕ) (h : (trail final e).latest ≠ none) :
    (trail final e).previous = (trail final (trail final e).epoch).latest := by
  induction e with
  | zero => exact absurd rfl h
  | succ e ih =>
    cases hw : final e with
    | none =>
      rw [trail_succ_none hw] at h ⊢
      exact ih h
    | some w =>
      rw [trail_succ_some hw]

end Trail

end Mvdcc.Library
