import Mvdcc.Serval.Refresh

namespace Mvdcc.Serval
open Library Bitmap

namespace Pc

/-- The version a worker has created and not yet appended. -/
def hands : Pc → Multiset Ptr
  | .firstWrite _ v | .appendSlot _ v => {v}
  | _ => 0

/-- The places of a call before its row is opened for the epoch. -/
def AtGuard : Pc → Prop
  | .start | .guardTryLock | .guardLocked => True
  | _ => False

end Pc

/-- What an append may rely on at each of its places, once the row is opened. -/
def AppendOk (row : Row) (own : RowRegion) (e s : Nat) : Pc → Prop
  | .start | .guardTryLock | .guardLocked | .guardUnlock | .tryLock | .locked
  | .waitRegion | .waitTryLock | .waitLocked => row.pending e s = none
  | .waitUnlock region | .contended region =>
    row.pending e s = none ∧ row.value.rowRegion = some region
  | .firstWrite region v =>
    row.pending e s = none ∧ row.value.rowRegion = some region ∧
      own.coreBitmap.getMsbD (s / 64) = false ∧ row.heap.version v = ⟨none, .pending⟩
  | .appendSlot region v =>
    row.pending e s = none ∧ row.value.rowRegion = some region ∧
      own.coreBitmap.getMsbD (s / 64) = true ∧ row.heap.version v = ⟨none, .pending⟩
  | .unlock | .done => row.pending e s ≠ none
  | _ => False

/-- A row in the initialization phase once some worker has opened it: it holds
exactly the appended versions, and every other worker knows where it is. -/
structure Opened (W : List Nat) (e : Nat) (t : Trail) (row : Row) (own : RowRegion)
    (pcs : Nat → Pc) : Prop where
  nonempty : W ≠ []
  kept : Kept row own (∑ s ∈ serials, (pcs s).hands)
  epoch : row.value.epoch = e
  master : ∃ q, row.value.master = some q ∧ IsVersionOf row t.latest q
  contents : ∀ i p, (i, p) ∈ contents row own ↔ ∃ s : Nat, i = s ∧ row.pending e s = some p
  versions : ∀ s p, row.pending e s = some p → row.heap.version p = ⟨none, .pending⟩
  members : ∀ s, row.pending e s ≠ none → s ∈ W
  injective : ∀ s s' p, row.pending e s = some p → row.pending e s' = some p → s = s'
  calls : ∀ s ∈ W, AppendOk row own e s (pcs s)
  populated : ∀ c, own.coreBitmap.getMsbD c = true → (own.arrays c).slots ≠ [] ∨
    ∃ s ∈ W, s / 64 = c ∧ ∃ region v, pcs s = .appendSlot region v
  leftovers : ∀ c < 64, own.coreBitmap.getMsbD c = false →
    ∀ p ∈ (own.arrays c).slots, row.heap.Finished p
  future : ∀ e' s, e < e' → row.pending e' s = none

/-- A row in the initialization phase before any worker has opened it. -/
structure Waiting (W : List Nat) (e : Nat) (t : Trail) (row : Row) (own : RowRegion)
    (pcs : Nat → Pc) : Prop where
  settled : Settled row own t
  calls : ∀ s ∈ W, (pcs s).AtGuard
  future : ∀ e' s, e ≤ e' → row.pending e' s = none

/-- A row at any point of the initialization phase. -/
def Preparing (W : List Nat) (e : Nat) (t : Trail) (row : Row) (own : RowRegion)
    (pcs : Nat → Pc) : Prop :=
  Waiting W e t row own pcs ∨ Opened W e t row own pcs

/-- What one step of the call of transaction `s` leaves alone. -/
structure Extends (e s : Nat) (row row' : Row) (own own' : RowRegion) : Prop where
  version : ∀ p < row.heap.next, row'.heap.version p = row.heap.version p
  pending : ∀ e' s', e' ≠ e ∨ s' ≠ s → row'.pending e' s' = row.pending e' s'
  region : ∀ r, row.value.rowRegion = some r → row'.value.rowRegion = some r
  others : row.value.rowRegion ≠ none → ∀ c, c ≠ s / 64 →
    own'.coreBitmap.getMsbD c = own.coreBitmap.getMsbD c ∧ own'.arrays c = own.arrays c
  epoch : row'.value.epoch = row.value.epoch
  master : row'.value.master = row.value.master

section Step
variable {W : List Nat} {e : Nat} {t : Trail} {row row' : Row} {own own' : RowRegion}
variable {pcs : Nat → Pc} {s : Nat} {pc' : Pc}

theorem held_update (hs : s < numTxsInOneEpoch) (pcs : Nat → Pc) (pc' : Pc) :
    ∑ x ∈ serials, (Function.update pcs s pc' x).hands + (pcs s).hands =
      ∑ x ∈ serials, (pcs x).hands + pc'.hands :=
  sum_update Pc.hands pcs (mem_serials.mpr hs) pc'

theorem held_same (hs : s < numTxsInOneEpoch) (h : (pcs s).hands = pc'.hands) :
    ∑ x ∈ serials, (Function.update pcs s pc' x).hands = ∑ x ∈ serials, (pcs x).hands := by
  have := held_update hs pcs pc'
  rw [h] at this
  exact add_right_cancel this

theorem mem_held {v : Ptr} (hs : s < numTxsInOneEpoch) (h : v ∈ (pcs s).hands) :
    v ∈ ∑ x ∈ serials, (pcs x).hands :=
  Multiset.mem_sum.mpr ⟨s, mem_serials.mpr hs, h⟩

theorem IsVersionOf.of_same {stamp : Option Stamp} {q : Ptr} (h : IsVersionOf row stamp q)
    (hp : ∀ st, stamp = some st →
      row'.pending (ofLex st).1 (ofLex st).2 = row.pending (ofLex st).1 (ofLex st).2)
    (hv : row'.heap.version q = row.heap.version q) : IsVersionOf row' stamp q := by
  cases stamp with
  | none => exact ⟨h.1, hv.trans h.2⟩
  | some st => exact ⟨(hp st rfl).trans h.1, hv.trans h.2⟩

/-- Another call keeps what it relies on: its core's array is its own, and calls
of the same worker are finished or have not begun. -/
theorem AppendOk.other (x : Extends e s row row' own own') (hs : s' ≠ s)
    (hseq : s' / 64 = s / 64 → pc = .done ∨ pc = .start)
    (hv : ∀ v ∈ pc.hands, v < row.heap.next) (h : AppendOk row own e s' pc) :
    AppendOk row' own' e s' pc := by
  have hp := x.pending e s' (Or.inr hs)
  have hb : ∀ region v, pc = .firstWrite region v ∨ pc = .appendSlot region v →
      row.value.rowRegion = some region →
      own'.coreBitmap.getMsbD (s' / 64) = own.coreBitmap.getMsbD (s' / 64) := by
    intro region v hpc hr
    refine (x.others (by simp [hr]) (s' / 64) ?_).1
    intro hc
    rcases hseq hc with rfl | rfl <;> simp at hpc
  unfold AppendOk at h ⊢
  split at h <;> simp only [hp] at h ⊢ <;> try exact h
  · exact ⟨h.1, x.region _ h.2⟩
  · exact ⟨h.1, x.region _ h.2⟩
  · rename_i region v
    refine ⟨h.1, x.region _ h.2.1, (hb region v (Or.inl rfl) h.2.1).trans h.2.2.1, ?_⟩
    exact (x.version v (hv v (Multiset.mem_singleton_self v))).trans h.2.2.2
  · rename_i region v
    refine ⟨h.1, x.region _ h.2.1, (hb region v (Or.inr rfl) h.2.1).trans h.2.2.1, ?_⟩
    exact (x.version v (hv v (Multiset.mem_singleton_self v))).trans h.2.2.2

/-- The turn of transaction `s`: it writes the row, and by program order the other
calls of its worker on the row are finished or have not begun. -/
structure Turn (W : List Nat) (e : Nat) (t : Trail) (pcs : Nat → Pc) (s : Nat) : Prop where
  bound : ∀ s ∈ W, s < numTxsInOneEpoch
  past : ∀ st, t.latest = some st → (ofLex st).1 < e
  member : s ∈ W
  ordered : ∀ s' ∈ W, s' / 64 = s / 64 → s' ≠ s →
    (pcs s' = .done ∧ s' < s) ∨ (pcs s' = .start ∧ s < s')
  outside : ∀ s' ∉ W, pcs s' = .done

theorem Turn.lt (turn : Turn W e t pcs s) : s < numTxsInOneEpoch := turn.bound s turn.member

theorem Turn.core_lt (turn : Turn W e t pcs s) : s / 64 < 64 := by
  have := turn.lt
  unfold numTxsInOneEpoch at this
  omega

theorem Opened.pending_lt (h : Opened W e t row own pcs) {p : Ptr}
    (hp : row.pending e s = some p) : p < row.heap.next :=
  h.kept.lt_next (mem_live_of_contents ((h.contents s p).mpr ⟨s, rfl, hp⟩))

/-- The step rule: what the step adds under its own serial id, and nothing else. -/
theorem Opened.step (h : Opened W e t row own pcs) (turn : Turn W e t pcs s)
    (x : Extends e s row row' own own')
    (hnone : row.pending e s = none)
    (kept : Kept row' own' (∑ x ∈ serials, (Function.update pcs s pc' x).hands))
    (hcon : ∀ i p, (i, p) ∈ Serval.contents row' own' ↔
      (i = s ∧ row'.pending e s = some p) ∨ (i, p) ∈ Serval.contents row own)
    (hnew : ∀ p, row'.pending e s = some p →
      row'.heap.version p = ⟨none, .pending⟩ ∧ p ∉ live row own)
    (hok : AppendOk row' own' e s pc')
    (populated : ∀ c, own'.coreBitmap.getMsbD c = true → (own'.arrays c).slots ≠ [] ∨
      ∃ s' ∈ W, s' / 64 = c ∧ ∃ region v, Function.update pcs s pc' s' = .appendSlot region v)
    (leftovers : ∀ c < 64, own'.coreBitmap.getMsbD c = false →
      ∀ p ∈ (own'.arrays c).slots, row'.heap.Finished p) :
    Opened W e t row' own' (Function.update pcs s pc') := by
  have hsame : ∀ s', s' ≠ s → row'.pending e s' = row.pending e s' :=
    fun s' hne => x.pending e s' (Or.inr hne)
  have hold : ∀ s' p, row.pending e s' = some p → p ∈ live row own :=
    fun s' p hp => mem_live_of_contents ((h.contents s' p).mpr ⟨s', rfl, hp⟩)
  refine ⟨h.nonempty, kept, x.epoch.trans h.epoch, ?_, ?_, ?_, ?_, ?_, ?_, populated, leftovers, ?_⟩
  · obtain ⟨q, hm, hq⟩ := h.master
    refine ⟨q, x.master.trans hm, hq.of_same ?_ (x.version q ?_)⟩
    · intro st hst
      exact x.pending _ _ (Or.inl (Nat.ne_of_lt (turn.past st hst)))
    · exact h.kept.lt_next (mem_live.mpr (Or.inl hm))
  · intro i p
    rw [hcon, h.contents]
    constructor
    · rintro (⟨hi, hp⟩ | ⟨s', hi, hp⟩)
      · exact ⟨s, hi, hp⟩
      · refine ⟨s', hi, ?_⟩
        rw [hsame s' (by rintro rfl; simp [hnone] at hp)]
        exact hp
    · rintro ⟨s', hi, hp⟩
      by_cases he : s' = s
      · exact Or.inl ⟨he ▸ hi, he ▸ hp⟩
      · exact Or.inr ⟨s', hi, hsame s' he ▸ hp⟩
  · intro s' p hp
    by_cases he : s' = s
    · exact (hnew p (he ▸ hp)).1
    · rw [hsame s' he] at hp
      rw [x.version p (h.pending_lt hp)]
      exact h.versions s' p hp
  · intro s' hp
    by_cases he : s' = s
    · exact he ▸ turn.member
    · rw [hsame s' he] at hp
      exact h.members s' hp
  · intro s₁ s₂ p h₁ h₂
    by_cases he₁ : s₁ = s <;> by_cases he₂ : s₂ = s
    · rw [he₁, he₂]
    · rw [hsame s₂ he₂] at h₂
      exact absurd (hold s₂ p h₂) (hnew p (he₁ ▸ h₁)).2
    · rw [hsame s₁ he₁] at h₁
      exact absurd (hold s₁ p h₁) (hnew p (he₂ ▸ h₂)).2
    · rw [hsame s₁ he₁] at h₁
      rw [hsame s₂ he₂] at h₂
      exact h.injective s₁ s₂ p h₁ h₂
  · intro s' hs'
    by_cases he : s' = s
    · subst he
      rw [Function.update_self]
      exact hok
    · rw [Function.update_of_ne he]
      refine (h.calls s' hs').other x he ?_ ?_
      · intro hc
        rcases turn.ordered s' hs' hc he with ⟨hd, _⟩ | ⟨hst, _⟩
        · exact Or.inl hd
        · exact Or.inr hst
      · intro v hv
        exact h.kept.held_lt_next (mem_held (turn.bound s' hs') hv)
  · intro e' s' hlt
    rw [x.pending e' s' (Or.inl (Nat.ne_of_gt hlt))]
    exact h.future e' s' hlt

/-- Moving between places, taking or giving back the lock, changes nothing else. -/
theorem Opened.move (h : Opened W e t row own pcs) (turn : Turn W e t pcs s) (l : RWLock)
    (hh : (pcs s).hands = 0) (hh' : pc'.hands = 0) (hok : AppendOk row own e s pc') :
    Opened W e t { row with value := { row.value with rwl := l } } own
      (Function.update pcs s pc') := by
  have hk := h.kept
  rw [← held_same turn.lt (hh.trans hh'.symm)] at hk
  refine ⟨h.nonempty, ⟨hk.shape, hk.installed, hk.ascending, hk.wellFormed, hk.places, hk.clean⟩, h.epoch,
    h.master, h.contents, h.versions, h.members, h.injective, ?_, ?_, h.leftovers, h.future⟩
  · intro s' hs'
    by_cases he : s' = s
    · subst he
      rw [Function.update_self]
      exact hok
    · rw [Function.update_of_ne he]
      exact h.calls s' hs'
  · intro c hc
    rcases h.populated c hc with hn | ⟨s', hs', hc', region, v, hp⟩
    · exact Or.inl hn
    · have hne : s' ≠ s := by
        rintro rfl
        simp [hp, Pc.hands] at hh
      exact Or.inr ⟨s', hs', hc', region, v, by rw [Function.update_of_ne hne]; exact hp⟩

/-- Only the core that appends can change which slots are there. -/
theorem Opened.populated_of (h : Opened W e t row own pcs) (x : Extends e s row row' own own')
    (hs : s ∈ W) (hr : row.value.rowRegion ≠ none)
    (hown : own'.coreBitmap.getMsbD (s / 64) = true → (own'.arrays (s / 64)).slots ≠ [] ∨
      ∃ region v, pc' = .appendSlot region v) :
    ∀ c, own'.coreBitmap.getMsbD c = true → (own'.arrays c).slots ≠ [] ∨
      ∃ s' ∈ W, s' / 64 = c ∧
        ∃ region v, Function.update pcs s pc' s' = .appendSlot region v := by
  intro c hc
  by_cases he : c = s / 64
  · subst he
    rcases hown hc with hn | hp
    · exact Or.inl hn
    · exact Or.inr ⟨s, hs, rfl, by rw [Function.update_self]; exact hp⟩
  · obtain ⟨hb, ha⟩ := x.others hr c he
    rw [hb] at hc
    rw [ha]
    rcases h.populated c hc with hn | ⟨s', hs', hc', hp⟩
    · exact Or.inl hn
    · have hne : s' ≠ s := by
        rintro rfl
        exact he hc'.symm
      exact Or.inr ⟨s', hs', hc', by rw [Function.update_of_ne hne]; exact hp⟩

theorem Opened.leftovers_of (h : Opened W e t row own pcs) (x : Extends e s row row' own own')
    (hr : row.value.rowRegion ≠ none)
    (hown : own'.coreBitmap.getMsbD (s / 64) = false →
      ∀ p ∈ (own'.arrays (s / 64)).slots, row'.heap.Finished p) :
    ∀ c < 64, own'.coreBitmap.getMsbD c = false →
      ∀ p ∈ (own'.arrays c).slots, row'.heap.Finished p := by
  intro c h64 hc p hp
  by_cases he : c = s / 64
  · subst he
    exact hown hc p hp
  · obtain ⟨hb, ha⟩ := x.others hr c he
    rw [hb] at hc
    rw [ha] at hp
    have hf := h.leftovers c h64 hc p hp
    unfold Heap.Finished at hf ⊢
    rw [x.version p (h.kept.lt_next (mem_live_of_slots h64 hp))]
    exact hf

end Step
end Mvdcc.Serval
