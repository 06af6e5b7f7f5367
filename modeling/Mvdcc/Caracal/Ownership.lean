import Mvdcc.Caracal.System
import Mvdcc.Library.Placement

namespace Mvdcc.Caracal
open Library

/-- The buffer that a call has fetched or taken from the spares and not installed yet. -/
def Pc.newBuffer : Pc → Option Nat
  | .fetchUnlock buffer | .install buffer | .reload buffer => some buffer
  | _ => none

/-- Where a row buffer that was handed out can be. -/
inductive Place (Key : Type u) where
  | row (k : Key)
  | spare (w : Nat)
  | call (w : Nat)

section Owned
variable {Key : Type u} {s : State Key} {w : Nat} {k : Key} {pc : Pc} {m : Memory Key}

/-- What is in each place. -/
def State.bufferAt (s : State Key) : Place Key → Option Nat
  | .row k => (s.rows k).rowBuffer
  | .spare w => (s.own w).spareBuffer
  | .call w => (s.workers w).pc.newBuffer

/-- Every buffer that was handed out is in exactly one place, and a worker with a new
buffer has no spare one. -/
structure Owned (numCore : Nat) (s : State Key) : Prop where
  placed : Placed s.bufferAt s.controller.used
  spare : ∀ w, (s.workers w).pc = .fetchLocked ∨ (s.workers w).pc.newBuffer ≠ none →
    (s.own w).spareBuffer = none
  resting : ∀ w, (s.workers w).todo = [] → (s.workers w).pc = .start
  limit : ∀ w, numCore ≤ w → (s.workers w).pc = .start ∧ (s.own w).spareBuffer = none

theorem owned_initial (n : Nat) (prog : Program Key) : Owned n (initial prog) := by
  refine ⟨?_, fun _ _ => rfl, fun _ _ => rfl, fun _ _ => ⟨rfl, rfl⟩⟩
  have hnone : (initial prog).bufferAt = fun _ => none := by
    funext p
    cases p <;> rfl
  rw [hnone]
  exact Placed.initial

/-- Every worker has a buffer of its own at most, and no other worker has one. -/
theorem Owned.used_le {n : Nat} (h : Owned n s) : {k | (s.rows k).rowBuffer ≠ none}.Finite ∧
    s.controller.used ≤ {k | (s.rows k).rowBuffer ≠ none}.ncard + n := by
  obtain ⟨hfin, hused⟩ := h.placed.used_eq_ncard
  have hrows : {k | (s.rows k).rowBuffer ≠ none}.Finite := by
    apply Set.Finite.of_finite_image (f := Place.row)
    · refine hfin.subset ?_
      intro p hp
      obtain ⟨k, hk, rfl⟩ := hp
      exact hk
    · intro k _ k' _ he
      exact Place.row.inj he
  refine ⟨hrows, ?_⟩
  let place : Nat → Place Key := fun w =>
    if (s.own w).spareBuffer = none then .call w else .spare w
  have hcover : {p | s.bufferAt p ≠ none} ⊆
      Place.row '' {k | (s.rows k).rowBuffer ≠ none} ∪ place '' Set.Iio n := by
    intro p hp
    cases p with
    | row k => exact Or.inl ⟨k, hp, rfl⟩
    | spare w =>
      have hspare : (s.own w).spareBuffer ≠ none := hp
      have hw : w < n := by
        by_contra hn
        exact hspare (h.limit w (Nat.not_lt.mp hn)).2
      exact Or.inr ⟨w, hw, if_neg hspare⟩
    | call w =>
      have hcall : (s.workers w).pc.newBuffer ≠ none := hp
      have hw : w < n := by
        by_contra hn
        rw [(h.limit w (Nat.not_lt.mp hn)).1] at hcall
        exact hcall rfl
      exact Or.inr ⟨w, hw, if_pos (h.spare w (Or.inr hcall))⟩
  have hfinite : (Place.row '' {k | (s.rows k).rowBuffer ≠ none} ∪ place '' Set.Iio n).Finite :=
    (hrows.image _).union ((Set.finite_Iio n).image _)
  calc s.controller.used = {p | s.bufferAt p ≠ none}.ncard := hused
    _ ≤ (Place.row '' {k | (s.rows k).rowBuffer ≠ none} ∪ place '' Set.Iio n).ncard :=
      Set.ncard_le_ncard hcover hfinite
    _ ≤ (Place.row '' {k | (s.rows k).rowBuffer ≠ none}).ncard + (place '' Set.Iio n).ncard :=
      Set.ncard_union_le _ _
    _ ≤ {k | (s.rows k).rowBuffer ≠ none}.ncard + n := by
      have hleft := Set.ncard_image_le (f := Place.row) hrows
      have hright := Set.ncard_image_le (f := place) (Set.finite_Iio n)
      rw [Set.ncard_Iio_nat] at hright
      omega

/-- Two rows never have the same buffer. -/
theorem Owned.row_unique {n : Nat} (h : Owned n s) {k k' : Key} {b : Nat}
    (hk : (s.rows k).rowBuffer = some b) (hk' : (s.rows k').rowBuffer = some b) : k = k' :=
  Place.row.inj (h.placed.unique b (.row k) (.row k') hk hk')

/-- What one step inside a call does with row buffers. -/
inductive Transfer (m m' : Memory Key) : Pc → Pc → Prop
  | stay (pc pc' : Pc) : pc'.newBuffer = pc.newBuffer → m'.rowBuffer = m.rowBuffer →
      m'.own.spareBuffer = m.own.spareBuffer → m'.controller.used = m.controller.used →
      (pc' = .fetchLocked → m.own.spareBuffer = none) → Transfer m m' pc pc'
  | take (b : Nat) : m.own.spareBuffer = some b → m'.own.spareBuffer = none →
      m'.rowBuffer = m.rowBuffer → m'.controller.used = m.controller.used →
      Transfer m m' .fetch (.install b)
  | fetch : m'.own.spareBuffer = m.own.spareBuffer → m'.rowBuffer = m.rowBuffer →
      m'.controller.used = m.controller.used + 1 →
      Transfer m m' .fetchLocked (.fetchUnlock m.controller.used)
  | install (b : Nat) : m.rowBuffer = none → m'.rowBuffer = some b →
      m'.own.spareBuffer = m.own.spareBuffer → m'.controller.used = m.controller.used →
      Transfer m m' (.install b) (.contended b)
  | spare (b other : Nat) : m'.own.spareBuffer = some b → m'.rowBuffer = m.rowBuffer →
      m'.controller.used = m.controller.used → Transfer m m' (.reload b) (.contended other)

/-- After a step a call with a new buffer, or with the pool's lock, still has no spare one. -/
theorem Owned.spare_advance {n : Nat} (h : Owned n s)
    (ht : Transfer (s.memory w k) m (s.workers w).pc pc)
    (hpc : pc = .fetchLocked ∨ pc.newBuffer ≠ none) : m.own.spareBuffer = none := by
  generalize hold : (s.workers w).pc = pc₀ at ht
  cases ht with
  | stay _ _ hnew _ hown _ hlocked =>
    rw [hown]
    rcases hpc with he | hne
    · exact hlocked he
    · rw [hnew, ← hold] at hne
      exact h.spare w (Or.inr hne)
  | take b _ hown => exact hown
  | fetch hown => exact hown.trans (h.spare w (Or.inl hold))
  | install b => rcases hpc with he | hne <;> contradiction
  | spare b other => rcases hpc with he | hne <;> contradiction

theorem Owned.return {n : Nat} (h : Owned n s) (hpc : (s.workers w).pc = .done)
    (rest : List (Call Key)) : Owned n (s.return w rest) := by
  have hworkers : ∀ w', ((s.return w rest).workers w').pc.newBuffer = (s.workers w').pc.newBuffer ∧
      (((s.return w rest).workers w').pc = .start ∨
        (s.return w rest).workers w' = s.workers w') := by
    intro w'
    simp only [State.return]
    by_cases hww : w' = w
    · subst hww
      rw [Function.update_self, hpc]
      exact ⟨rfl, Or.inl rfl⟩
    · rw [Function.update_of_ne hww]
      exact ⟨rfl, Or.inr rfl⟩
  refine ⟨?_, ?_, ?_, ?_⟩
  · have hsame : (s.return w rest).bufferAt = s.bufferAt := by
      funext p
      cases p with
      | row k => rfl
      | spare w' => rfl
      | call w' => exact (hworkers w').1
    rw [hsame]
    exact h.placed
  · intro w' hor
    rcases (hworkers w').2 with hs | hs
    · rw [hs] at hor
      rcases hor with he | hne
      · cases he
      · exact absurd rfl hne
    · rw [hs] at hor
      exact h.spare w' hor
  · intro w' hnil
    rcases (hworkers w').2 with hs | hs
    · exact hs
    · rw [hs] at hnil ⊢
      exact h.resting w' hnil
  · intro w' hle
    rcases (hworkers w').2 with hs | hs
    · exact ⟨hs, (h.limit w' hle).2⟩
    · rw [hs]
      exact h.limit w' hle

/-- Through the barrier no worker is inside a call. -/
theorem Owned.enter {n : Nat} (h : Owned n s) (hall : ∀ w < n, (s.workers w).todo = [])
    (prog : Program Key) (phase : Phase) (epoch : Nat) : Owned n (s.enter prog phase epoch) := by
  have hpc : ∀ w, (s.workers w).pc = .start := by
    intro w
    by_cases hw : w < n
    · exact h.resting w (hall w hw)
    · exact (h.limit w (Nat.not_lt.mp hw)).1
  refine ⟨?_, ?_, fun _ _ => rfl, fun w hle => ⟨rfl, (h.limit w hle).2⟩⟩
  · have hsame : (s.enter prog phase epoch).bufferAt = s.bufferAt := by
      funext p
      cases p with
      | row k => rfl
      | spare w => rfl
      | call w =>
        change Pc.newBuffer .start = (s.workers w).pc.newBuffer
        rw [hpc w]
    rw [hsame]
    exact h.placed
  · intro w hor
    rcases hor with he | hne
    · cases he
    · exact absurd rfl hne

end Owned

section Steps
variable {Key : Type u} [DecidableEq Key] {cfg : Config} {prog : Program Key}
variable {s s' : State Key} {w position epoch core serial : Nat} {k : Key} {pc pc' : Pc}
variable {m m' : Memory Key} {c : Call Key} {rest : List (Call Key)}

/-- The shapes of one worker's step. -/
theorem worker_cases (h : step cfg prog (.worker w position) s = some s') : w < cfg.numCore ∧
    ((∃ c rest, (s.workers w).todo = c :: rest ∧ (s.workers w).pc = .done ∧
      s' = s.return w rest) ∨
    ((s.workers w).todo = [] ∧ s.phase = .initialization ∧ s.finalize cfg w = some s') ∨
    (∃ c rest pc m, (s.workers w).todo = c :: rest ∧
      callStep cfg s w position c (s.workers w).pc (s.memory w c.index) = some (pc, m) ∧
      s' = s.advance w c.index pc m)) := by
  simp only [step, Option.ite_none_right_eq_some] at h
  obtain ⟨hw, h⟩ := h
  refine ⟨hw, ?_⟩
  split at h
  · rename_i htodo
    rw [Option.ite_none_right_eq_some] at h
    exact Or.inr (Or.inl ⟨htodo, h⟩)
  · rename_i c rest htodo
    split at h
    · rename_i hpc
      exact Or.inl ⟨c, rest, htodo, hpc, (Option.some.inj h).symm⟩
    · obtain ⟨⟨pc, m⟩, hcall, he⟩ := Option.map_eq_some_iff.mp h
      exact Or.inr (Or.inr ⟨c, rest, pc, m, htodo, hcall, he.symm⟩)

/-- The shapes of a step. -/
theorem step_cases {i : Choice} (h : step cfg prog i s = some s') :
    (∃ w c rest, w < cfg.numCore ∧ (s.workers w).todo = c :: rest ∧ (s.workers w).pc = .done ∧
      s' = s.return w rest) ∨
    (∃ w, w < cfg.numCore ∧ (s.workers w).todo = [] ∧ s.phase = .initialization ∧
      s.finalize cfg w = some s') ∨
    (∃ w position c rest pc m, w < cfg.numCore ∧ (s.workers w).todo = c :: rest ∧
      callStep cfg s w position c (s.workers w).pc (s.memory w c.index) = some (pc, m) ∧
      s' = s.advance w c.index pc m) ∨
    ((∀ w < cfg.numCore, s.Idle w) ∧ s' = match s.phase with
      | .initialization => s.enter prog .execution s.epoch
      | .execution => s.enter prog .initialization (s.epoch + 1)) := by
  cases i with
  | worker w position =>
    obtain ⟨hw, ⟨c, rest, hret⟩ | hfin | ⟨c, rest, pc, m, hcall⟩⟩ := worker_cases h
    · exact Or.inl ⟨w, c, rest, hw, hret⟩
    · exact Or.inr (Or.inl ⟨w, hw, hfin⟩)
    · exact Or.inr (Or.inr (Or.inl ⟨w, position, c, rest, pc, m, hw, hcall⟩))
  | barrier =>
    simp only [step] at h
    split at h
    · rename_i hall
      exact Or.inr (Or.inr (Or.inr ⟨hall, (Option.some.inj h).symm⟩))
    · cases h

theorem appendStep_transfer
    (h : appendStep cfg position epoch core serial k pc m = some (pc', m')) :
    Transfer m m' pc pc' := by
  cases pc <;> simp only [appendStep] at h
  case start =>
    split at h <;> cases h <;> exact .stay _ _ rfl rfl rfl rfl nofun
  case tryLock =>
    split at h
    · rename_i row hrow
      cases h
      obtain ⟨rwl, _, rfl⟩ := Option.map_eq_some_iff.mp hrow
      exact .stay _ _ rfl rfl rfl rfl nofun
    · cases h
      exact .stay _ _ rfl rfl rfl rfl nofun
  case uncontended =>
    cases h
    exact .stay _ _ rfl rfl rfl rfl nofun
  case fetch =>
    split at h
    · rename_i b hb
      cases h
      exact .take b hb rfl rfl rfl
    · rename_i hb
      obtain ⟨l, _, he⟩ := Option.map_eq_some_iff.mp h
      cases he
      exact .stay _ _ rfl rfl rfl rfl (fun _ => hb)
  case fetchLocked =>
    split at h
    · cases h
      exact .stay _ _ rfl rfl rfl rfl nofun
    · rename_i b c hf
      cases h
      obtain ⟨_, rfl, rfl⟩ := RowBufferController.fetchNewBuffer_eq_some.mp hf
      exact .fetch rfl rfl rfl
  case fetchUnlock b =>
    cases h
    exact .stay _ _ rfl rfl rfl rfl nofun
  case install b =>
    split at h
    · rename_i hb
      cases h
      exact .install b hb rfl rfl rfl
    · cases h
      exact .stay _ _ rfl rfl rfl rfl nofun
  case reload b =>
    split at h
    · cases h
      exact .spare b _ rfl rfl rfl
    · cases h
  case contended b =>
    split at h <;> cases h <;> exact .stay _ _ rfl rfl rfl rfl nofun
  case lockRow p b =>
    obtain ⟨row, hrow, he⟩ := Option.map_eq_some_iff.mp h
    obtain ⟨rwl, _, rfl⟩ := Option.map_eq_some_iff.mp hrow
    cases he
    exact .stay _ _ rfl rfl rfl rfl nofun
  case flush p b =>
    cases h
    exact .stay _ _ rfl rfl rfl rfl nofun
  case unlockRow p =>
    cases h
    exact .stay _ _ rfl rfl rfl rfl nofun
  all_goals cases h

theorem callStep_transfer
    (h : callStep cfg s w position c pc (s.memory w k) = some (pc', m')) :
    Transfer (s.memory w k) m' pc pc' := by
  unfold callStep at h
  split at h
  · exact appendStep_transfer h
  · obtain ⟨⟨pc'', row⟩, hstep, he⟩ := Option.map_eq_some_iff.mp h
    cases he
    have hkeep : row.rowBuffer = (s.rows k).rowBuffer ∧ pc'.newBuffer = pc.newBuffer ∧
        pc' ≠ .fetchLocked := by
      cases pc <;> simp only [executionStep] at hstep
      case start =>
        split at hstep
        · obtain ⟨_, _, he⟩ := Option.map_eq_some_iff.mp hstep
          cases he
          exact ⟨rfl, rfl, nofun⟩
        · split at hstep <;> cases hstep <;> exact ⟨rfl, rfl, nofun⟩
      case waitStable v =>
        split at hstep <;> cases hstep <;> exact ⟨rfl, rfl, nofun⟩
      all_goals cases hstep <;> exact ⟨rfl, rfl, nofun⟩
    exact .stay _ _ hkeep.2.1 hkeep.1 rfl rfl (fun he => absurd he hkeep.2.2)

/-- Where buffers are after a step inside a call. -/
theorem bufferAt_advance (p : Place Key) : (s.advance w k pc m).bufferAt p =
    match p with
    | .row k' => if k' = k then m.rowBuffer else (s.rows k').rowBuffer
    | .spare w' => if w' = w then m.own.spareBuffer else (s.own w').spareBuffer
    | .call w' => if w' = w then pc.newBuffer else (s.workers w').pc.newBuffer := by
  cases p with
  | row k' => by_cases hk : k' = k <;> simp [State.bufferAt, State.advance, hk]
  | spare w' => by_cases hw : w' = w <;> simp [State.bufferAt, State.advance, hw]
  | call w' => by_cases hw : w' = w <;> simp [State.bufferAt, State.advance, hw]

/-- A place that a step inside a call does not concern. -/
theorem bufferAt_advance_of_ne {p : Place Key}
    (hrow : p = .row k → m.rowBuffer = (s.rows k).rowBuffer)
    (hspare : p = .spare w → m.own.spareBuffer = (s.own w).spareBuffer)
    (hcall : p = .call w → pc.newBuffer = (s.workers w).pc.newBuffer) :
    (s.advance w k pc m).bufferAt p = s.bufferAt p := by
  rw [bufferAt_advance]
  cases p with
  | row k' =>
    by_cases hk : k' = k
    · subst hk
      exact (if_pos rfl).trans (hrow rfl)
    · exact if_neg hk
  | spare w' =>
    by_cases hw : w' = w
    · subst hw
      exact (if_pos rfl).trans (hspare rfl)
    · exact if_neg hw
  | call w' =>
    by_cases hw : w' = w
    · subst hw
      exact (if_pos rfl).trans (hcall rfl)
    · exact if_neg hw

theorem Owned.placed_advance {n : Nat} (h : Owned n s)
    (ht : Transfer (s.memory w k) m (s.workers w).pc pc) :
    Placed (s.advance w k pc m).bufferAt m.controller.used := by
  generalize hpc : (s.workers w).pc = pc₀ at ht
  cases ht with
  | stay _ _ hnew hrow hown hused hlocked =>
    have hsame : (s.advance w k pc m).bufferAt = s.bufferAt := by
      funext p
      exact bufferAt_advance_of_ne (fun _ => hrow) (fun _ => hown) (fun _ => hpc ▸ hnew)
    rw [hsame, hused]
    exact h.placed
  | take b hhad hown hrow hused =>
    rw [hused]
    refine h.placed.move (p := .spare w) (q := .call w) hhad ?_ ?_ ?_ ?_
    · change (s.workers w).pc.newBuffer = none
      rw [hpc]
      rfl
    · rw [bufferAt_advance]
      exact (if_pos rfl).trans hown
    · rw [bufferAt_advance]
      exact if_pos rfl
    · intro r hp hq
      exact bufferAt_advance_of_ne (fun _ => hrow) (fun he => absurd he hp) (fun he => absurd he hq)
  | fetch hown hrow hused =>
    rw [hused]
    refine h.placed.put (q := .call w) ?_ ?_ ?_
    · change (s.workers w).pc.newBuffer = none
      rw [hpc]
      rfl
    · rw [bufferAt_advance]
      exact if_pos rfl
    · intro r hq
      exact bufferAt_advance_of_ne (fun _ => hrow) (fun _ => hown) (fun he => absurd he hq)
  | install b hnone hrow hown hused =>
    rw [hused]
    refine h.placed.move (b := b) (p := .call w) (q := .row k) ?_ hnone ?_ ?_ ?_
    · change (s.workers w).pc.newBuffer = some b
      rw [hpc]
      rfl
    · rw [bufferAt_advance]
      exact if_pos rfl
    · rw [bufferAt_advance]
      exact (if_pos rfl).trans hrow
    · intro r hp hq
      exact bufferAt_advance_of_ne (fun he => absurd he hq) (fun _ => hown) (fun he => absurd he hp)
  | spare b other hown hrow hused =>
    rw [hused]
    have hnew : (s.workers w).pc.newBuffer = some b := by
      rw [hpc]
      rfl
    refine h.placed.move (p := .call w) (q := .spare w) hnew ?_ ?_ ?_ ?_
    · exact h.spare w (Or.inr (by rw [hnew]; exact Option.some_ne_none b))
    · rw [bufferAt_advance]
      exact if_pos rfl
    · rw [bufferAt_advance]
      exact (if_pos rfl).trans hown
    · intro r hp hq
      exact bufferAt_advance_of_ne (fun _ => hrow) (fun he => absurd he hq) (fun he => absurd he hp)

theorem Owned.advance {n : Nat} (h : Owned n s) (hw : w < n)
    (htodo : (s.workers w).todo = c :: rest)
    (ht : Transfer (s.memory w k) m (s.workers w).pc pc) : Owned n (s.advance w k pc m) := by
  refine ⟨h.placed_advance ht, ?_, ?_, ?_⟩
  · intro w' hpc
    simp only [State.advance] at hpc ⊢
    by_cases hww : w' = w
    · subst hww
      rw [Function.update_self] at hpc ⊢
      exact h.spare_advance ht hpc
    · rw [Function.update_of_ne hww] at hpc ⊢
      exact h.spare w' hpc
  · intro w' hnil
    simp only [State.advance] at hnil ⊢
    by_cases hww : w' = w
    · subst hww
      rw [Function.update_self] at hnil
      simp [htodo] at hnil
    · rw [Function.update_of_ne hww] at hnil ⊢
      exact h.resting w' hnil
  · intro w' hle
    have hww : w' ≠ w := by omega
    simp only [State.advance, Function.update_of_ne hww]
    exact h.limit w' hle

/-- The shapes of a step of `finalize_batch_append`: a pass moves on, takes a lock,
flushes a slice, or gives the lock back. -/
theorem finalize_cases (h : s.finalize cfg w = some s') :
    (∃ f : Finalizer Key, (s.finalizers w).pc = .scan ∧ f.pc = .scan ∧
      (∀ x ∈ f.pass, x ∈ (s.finalizers w).pass ∨ x ∈ (s.own w).appendedCoreBuffers.entries) ∧
      s' = s.setFinalizer w f) ∨
    (∃ k b rest rwl, (s.finalizers w).pc = .scan ∧
      ((k, b) ∈ (s.finalizers w).pass ∨ (k, b) ∈ (s.own w).appendedCoreBuffers.entries) ∧
      (∀ x ∈ rest, x ∈ (s.finalizers w).pass) ∧ (s.rows k).globalArray.rwl.tryLock = some rwl ∧
      s' = (s.setRow k ((s.rows k).setLock rwl)).setFinalizer w ⟨rest, .flush k b⟩) ∨
    (∃ k b, (s.finalizers w).pc = .flush k b ∧
      s' = { (s.setRow k ((s.rows k).batchAppend (s.controller.slice b w) s.epoch).2).setFinalizer w
          { s.finalizers w with pc := .unlock k } with
        controller := s.controller.setSlice b w
          ((s.rows k).batchAppend (s.controller.slice b w) s.epoch).1 }) ∨
    (∃ k, (s.finalizers w).pc = .unlock k ∧
      s' = { (s.setRow k (s.rows k).unlock).setFinalizer w { s.finalizers w with pc := .scan } with
        own := Function.update s.own w { s.own w with
          appendedCoreBuffers := (s.own w).appendedCoreBuffers.erase k } }) := by
  simp only [State.finalize] at h
  split at h
  · rename_i hpc
    simp only [State.scan] at h
    split at h
    · split at h
      · split at h
        · cases h
        · cases h
          exact Or.inl ⟨{ s.finalizers w with pass := (s.own w).appendedCoreBuffers.entries }, hpc,
            hpc, fun x hx => Or.inr hx, rfl⟩
      · rename_i k b rest hpass
        have hrest : ∀ x ∈ rest, x ∈ (s.finalizers w).pass := by
          intro x hx
          rw [hpass]
          exact List.mem_cons_of_mem _ hx
        split at h
        · cases h
          exact Or.inl ⟨{ s.finalizers w with pass := rest }, hpc, hpc,
            fun x hx => Or.inl (hrest x hx), rfl⟩
        · rename_i row hlock
          cases h
          obtain ⟨rwl, hl, rfl⟩ := Option.map_eq_some_iff.mp hlock
          refine Or.inr (Or.inl ⟨k, b, rest, rwl, hpc, Or.inl ?_, hrest, hl, rfl⟩)
          rw [hpass]
          exact List.mem_cons_self
    · split at h
      · cases h
      · rename_i k b rest hentries
        obtain ⟨row, hlock, rfl⟩ := Option.map_eq_some_iff.mp h
        obtain ⟨rwl, hl, rfl⟩ := Option.map_eq_some_iff.mp hlock
        refine Or.inr (Or.inl ⟨k, b, [], rwl, hpc, Or.inr ?_, nofun, hl, rfl⟩)
        rw [hentries]
        exact List.mem_cons_self
  · rename_i k b hpc
    cases h
    exact Or.inr (Or.inr (Or.inl ⟨k, b, hpc, rfl⟩))
  · rename_i k hpc
    cases h
    exact Or.inr (Or.inr (Or.inr ⟨k, hpc, rfl⟩))

/-- `finalize_batch_append` touches no row buffer pointer and no `pending_`. -/
theorem finalize_keeps (hstep : s.finalize cfg w = some s') : s'.workers = s.workers ∧
    s'.controller.used = s.controller.used ∧
    (∀ w', (s'.own w').spareBuffer = (s.own w').spareBuffer) ∧
    (∀ k, (s'.rows k).rowBuffer = (s.rows k).rowBuffer) ∧
    ∀ k, (s'.rows k).pending = (s.rows k).pending := by
  have hrow : ∀ (k : Key) (row : Row), row.rowBuffer = (s.rows k).rowBuffer →
      row.pending = (s.rows k).pending →
      (∀ k', (Function.update s.rows k row k').rowBuffer = (s.rows k').rowBuffer) ∧
      ∀ k', (Function.update s.rows k row k').pending = (s.rows k').pending := by
    intro k row hb hp
    refine ⟨fun k' => ?_, fun k' => ?_⟩
    · by_cases hk : k' = k
      · subst hk
        rwa [Function.update_self]
      · rw [Function.update_of_ne hk]
    · by_cases hk : k' = k
      · subst hk
        rwa [Function.update_self]
      · rw [Function.update_of_ne hk]
  rcases finalize_cases hstep with ⟨f, _, _, _, rfl⟩ | ⟨k, b, rest, rwl, _, _, _, _, rfl⟩ |
    ⟨k, b, _, rfl⟩ | ⟨k, _, rfl⟩
  · exact ⟨rfl, rfl, fun _ => rfl, fun _ => rfl, fun _ => rfl⟩
  · exact ⟨rfl, rfl, fun _ => rfl, hrow _ _ rfl rfl⟩
  · exact ⟨rfl, rfl, fun _ => rfl, hrow _ _ rfl rfl⟩
  · refine ⟨rfl, rfl, ?_, hrow _ _ rfl rfl⟩
    intro w'
    by_cases hww : w' = w
    · subst hww
      simp
    · simp [hww]

theorem Owned.finalize {n : Nat} (h : Owned n s) (hstep : s.finalize cfg w = some s') :
    Owned n s' := by
  obtain ⟨hworkers, hused, hspare, hrows, _⟩ := finalize_keeps hstep
  refine ⟨?_, ?_, ?_, ?_⟩
  · have hsame : s'.bufferAt = s.bufferAt := by
      funext p
      cases p with
      | row k => exact hrows k
      | spare w' => exact hspare w'
      | call w' => exact congrArg (fun t => (t w').pc.newBuffer) hworkers
    rw [hsame, hused]
    exact h.placed
  · intro w' hor
    rw [hspare w']
    exact h.spare w' (hworkers ▸ hor)
  · rw [hworkers]
    exact h.resting
  · intro w' hle
    rw [hspare w', hworkers]
    exact h.limit w' hle

theorem owned_step {i : Choice} (h : Owned cfg.numCore s) (hstep : step cfg prog i s = some s') :
    Owned cfg.numCore s' := by
  rcases step_cases hstep with ⟨w, c, rest, _, _, hpc, rfl⟩ | ⟨w, _, _, _, hfin⟩ |
    ⟨w, position, c, rest, pc, m, hw, htodo, hcall, rfl⟩ | ⟨hall, rfl⟩
  · exact h.return hpc rest
  · exact h.finalize hfin
  · exact h.advance hw htodo (callStep_transfer hcall)
  · have htodo : ∀ w < cfg.numCore, (s.workers w).todo = [] := fun w hw => (hall w hw).1
    cases s.phase with
    | initialization => exact h.enter htodo prog _ _
    | execution => exact h.enter htodo prog _ _

theorem Reachable.owned (h : Reachable cfg prog s) : Owned cfg.numCore s :=
  TransitionSystem.Reachable.invariant h (fun _ he => he ▸ owned_initial _ prog)
    (fun _ _ _ hi hstep => owned_step hi hstep)

/-- A row keeps the buffer it has. -/
theorem rowBuffer_step {i : Choice} (hstep : step cfg prog i s = some s') {b : Nat}
    (hb : (s.rows k).rowBuffer = some b) : (s'.rows k).rowBuffer = some b := by
  rcases step_cases hstep with ⟨w, c, rest, _, _, _, rfl⟩ | ⟨w, _, _, _, hfin⟩ |
    ⟨w, position, c, rest, pc, m, _, _, hcall, rfl⟩ | ⟨_, rfl⟩
  · exact hb
  · rw [(finalize_keeps hfin).2.2.2.1 k]
    exact hb
  · by_cases hk : k = c.index
    · subst hk
      have hkeep : m.rowBuffer = (s.rows c.index).rowBuffer := by
        have ht := callStep_transfer hcall
        generalize (s.workers w).pc = pc₀ at ht
        cases ht with
        | stay _ _ _ hrow => exact hrow
        | take _ _ _ hrow => exact hrow
        | fetch _ hrow => exact hrow
        | install _ hnone =>
          rw [show (s.memory w c.index).rowBuffer = some b from hb] at hnone
          cases hnone
        | spare _ _ _ hrow => exact hrow
      simp only [State.advance, Function.update_self]
      exact hkeep.trans hb
    · simp only [State.advance, Function.update_of_ne hk]
      exact hb
  · cases s.phase <;> exact hb

/-- A buffer that was handed out is in exactly one place, a row gets its buffer once and
for all, and no more buffers are in use than there are rows with one and workers. -/
theorem buffers_placed (h : Reachable cfg prog s) :
    (∀ b, b < s.controller.used → ∃! p, s.bufferAt p = some b) ∧
    (∀ t k b, (system cfg prog).Reachable (· = s) t → (s.rows k).rowBuffer = some b →
      (t.rows k).rowBuffer = some b) ∧
    {k | (s.rows k).rowBuffer ≠ none}.Finite ∧
    s.controller.used ≤ {k | (s.rows k).rowBuffer ≠ none}.ncard + cfg.numCore := by
  have ho := h.owned
  refine ⟨?_, ?_, ho.used_le⟩
  · intro b hb
    obtain ⟨p, hp⟩ := (ho.placed.used b).mpr hb
    exact ⟨p, hp, fun q hq => ho.placed.unique b q p hq hp⟩
  · intro t k b ht hb
    refine ht.invariant (fun _ he => he ▸ hb) ?_
    intro _ _ _ hi hstep
    exact rowBuffer_step hstep hi

end Steps

section Run

def twoAppends : Program Unit := fun phase _ w =>
  match phase with
  | .initialization => [⟨w, ⟨.update, ()⟩⟩]
  | .execution => []

/-- Worker 1 finds the row locked by worker 0 and installs a buffer. -/
def contention : List Choice :=
  List.replicate 2 (.worker 0 0) ++ List.replicate 6 (.worker 1 0)

theorem contended_row_placed : ∃ s, Reachable ⟨2, 4, 1, true⟩ twoAppends s ∧
    (s.controller.used, (s.rows ()).rowBuffer) = (1, some 0) ∧
    (∀ b, b < s.controller.used → ∃! p, s.bufferAt p = some b) ∧
    (∀ t k b, (system ⟨2, 4, 1, true⟩ twoAppends).Reachable (· = s) t →
      (s.rows k).rowBuffer = some b → (t.rows k).rowBuffer = some b) ∧
    {k | (s.rows k).rowBuffer ≠ none}.Finite ∧
    s.controller.used ≤ {k | (s.rows k).rowBuffer ≠ none}.ncard + 2 := by
  have hstart : Reachable ⟨2, 4, 1, true⟩ twoAppends (initial twoAppends) := .start rfl
  have hrun : ((system ⟨2, 4, 1, true⟩ twoAppends).run contention (initial twoAppends)).map
      (fun s => (s.controller.used, (s.rows ()).rowBuffer)) = some (1, some 0) := by
    decide +kernel
  obtain ⟨s, hs, hshow⟩ := hstart.of_run_map hrun
  exact ⟨s, hs, hshow, buffers_placed hs⟩

end Run
end Mvdcc.Caracal
