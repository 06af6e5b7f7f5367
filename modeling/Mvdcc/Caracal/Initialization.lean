import Mvdcc.Caracal.Linking

namespace Mvdcc.Caracal
open Library

section Start
variable {Key : Type u} {wl : Workload Key} {s : State Key}

/-- A state in which an initialization phase begins: every worker at the start of its
calls, arrays that hold older versions only, empty slices and free locks. -/
structure Begins (wl : Workload Key) (s : State Key) : Prop where
  phase : s.phase = .initialization
  workers : s.workers = fun w => ⟨program wl .initialization s.epoch w, .start⟩
  finalizers : ∀ w, s.finalizers w = .idle
  maps : ∀ w, (s.own w).appendedCoreBuffers = .empty
  spare : ∀ w, 64 ≤ w → (s.own w).spareBuffer = none
  placed : Placed s.bufferAt s.controller.used
  slices : ∀ b c, (s.controller.slice b c).idsSlots = []
  rows : ∀ k, Ready s.epoch (s.rows k).globalArray.idsSlots
  unlocked : ∀ k, (s.rows k).globalArray.rwl = {}
  pool : s.controller.lock = {}

/-- A row has no entries in empty slices. -/
theorem slices_nil (h : ∀ b c, (s.controller.slice b c).idsSlots = []) (k : Key) :
    s.slices k = fun _ => [] := by
  funext c
  unfold State.slices slicesOf
  split
  · rfl
  · exact h _ c

theorem Begins.owned (h : Begins wl s) : Owned 64 s := by
  have hpc : ∀ w, (s.workers w).pc = .start := fun w => by rw [h.workers]
  refine ⟨h.placed, ?_, fun w _ => hpc w, fun w hle => ⟨hpc w, h.spare w hle⟩⟩
  intro w hor
  rw [hpc w] at hor
  rcases hor with he | hne
  · cases he
  · exact absurd rfl hne

theorem Begins.locked (h : Begins wl s) : Locked 64 s := by
  have hheld : ∀ w, s.held w = none := fun w => held_start (by rw [h.workers]) (h.finalizers w)
  refine ⟨fun k => Or.inl ⟨by rw [h.unlocked], fun w => ?_⟩,
    Or.inl ⟨by rw [h.pool], fun w => ?_⟩, fun w _ => h.finalizers w, fun w _ => h.finalizers w⟩
  · simp [hheld w]
  · simp [h.workers, Pc.holdsPool]

/-- The first epoch begins on loaded rows. -/
theorem begins_initial : Begins wl (initial (program wl)) := by
  refine ⟨rfl, rfl, fun _ => rfl, fun _ => rfl, fun _ _ => rfl, ?_, fun _ _ => rfl, ?_,
    fun _ => rfl, rfl⟩
  · exact (owned_initial 64 (program wl)).placed
  · intro k
    have hslots : ((initial (program wl)).rows k).globalArray.idsSlots = [(0, 0)] := rfl
    rw [hslots]
    refine ⟨List.cons_ne_nil _ _, List.pairwise_singleton _ _, ?_⟩
    intro x hx
    rw [List.mem_singleton.mp hx]
    exact (by decide : 0 < convertToSerialIdWithEpoch 1 0)

/-- Every lock is free where nobody is under way. -/
theorem Locked.unlocked (hk : Locked 64 s) (hpc : ∀ w, (s.workers w).pc = .start)
    (hidle : ∀ w, s.finalizers w = .idle) :
    (∀ k, (s.rows k).globalArray.rwl = {}) ∧ s.controller.lock = {} := by
  refine ⟨fun k => (hk.rows k).unlocked ?_, hk.pool.unlocked ?_⟩
  · intro w hw
    rw [held_start (hpc w) (hidle w)] at hw
    cases hw
  · intro w hw
    rw [hpc w] at hw
    cases hw

end Start

section Initialization
variable {Key : Type u} [DecidableEq Key] {wl : Workload Key} {cfg : Config} {s s' t : State Key}
variable {w : Nat} {k : Key} {c : Call Key} {rest : List (Call Key)}

/-- What a step of the initialization phase may do to the rows. -/
def Moved (wl : Workload Key) (s s' : State Key) : Prop :=
  s'.epoch = s.epoch ∧ (∀ k, wl.writers k s.epoch = [] → s'.rows k = s.rows k) ∧
    ∃ w < 64, ∀ k, RowMove (wl.writers k s.epoch) s.epoch w (s.data k) (s'.data k)

theorem Linked.return (h : Linked wl s) (hw : w < 64) (htodo : (s.workers w).todo = c :: rest)
    (hpc : (s.workers w).pc = .done) :
    Linked wl (s.return w rest) ∧ Moved wl s (s.return w rest) := by
  have hother : ∀ w', w' ≠ w → (s.return w rest).workers w' = s.workers w' :=
    fun w' hne => Function.update_of_ne hne _ _
  have hself : (s.return w rest).workers w = ⟨rest, .start⟩ := Function.update_self _ _ _
  refine ⟨⟨h.remaining.return htodo .start, h.unowned, ?_, h.mapped, h.passed, h.flushed, ?_, ?_,
    h.outside⟩, rfl, fun _ _ => rfl, w, hw, ?_⟩
  · intro w' c' rest' htodo' b hb
    by_cases hww : w' = w
    · subst hww
      rw [hself] at hb
      cases hb
    · rw [hother w' hww] at htodo' hb
      exact h.target w' c' rest' htodo' b hb
  · intro w' k hne
    rcases h.registered w' k hne with hb | ⟨c', rest', htodo', hk, hf⟩
    · exact Or.inl hb
    · have hww : w' ≠ w := by
        rintro rfl
        rw [hpc] at hf
        cases hf
      exact Or.inr ⟨c', rest', by rw [hother w' hww]; exact htodo', hk, by rw [hother w' hww]; exact hf⟩
  · intro k serial
    rw [place_return h.remaining htodo hpc]
    exact h.handed k serial
  · intro k
    have hdata : (s.return w rest).data k = s.data k := by
      have hheld : (s.return w rest).heldBy k = s.heldBy k := by
        funext serial
        unfold State.heldBy
        rw [place_return h.remaining htodo hpc]
        rfl
      unfold State.data
      rw [hheld]
      rfl
    rw [hdata]
    exact .stay

theorem Linked.step (hcore : cfg.numCore = 64) (h : Linked wl s) (ho : Owned cfg.numCore s)
    (hl : Locked cfg.numCore s) (hphase : s.phase = .initialization)
    (hphase' : s'.phase = .initialization) {i : Choice}
    (hstep : step cfg (program wl) i s = some s') : Linked wl s' ∧ Moved wl s s' := by
  have ho' := owned_step ho hstep
  rw [hcore] at ho ho'
  rcases step_cases hstep with ⟨w, c, rest, hw, htodo, hpc, rfl⟩ | ⟨w, hw, htodo, _, hfin⟩ |
    ⟨w, position, c, rest, pc, m, hw, htodo, hcall, rfl⟩ | ⟨hall, rfl⟩
  · exact h.return (hcore ▸ hw) htodo hpc
  · obtain ⟨hlinked, hepoch, hrows, hmoves⟩ := h.finalize ho hfin
    exact ⟨hlinked, hepoch, hrows, w, hcore ▸ hw, hmoves⟩
  · have hw64 : w < 64 := hcore ▸ hw
    have hW := (head_writer h.remaining rfl htodo).2
    have hkeep : ∀ b, (s.rows c.index).rowBuffer = some b → m.rowBuffer = some b := by
      intro b hb
      have := rowBuffer_step hstep hb
      rwa [rows_advance_self] at this
    have hheld : s.heldBy c.index c.serial =
        (s.workers w).pc.heldBy ((s.rows c.index).pending s.epoch c.serial) := by
      have hplace := place_head h.remaining htodo
      rw [(head_writer h.remaining rfl htodo).1] at hplace
      unfold State.heldBy
      rw [hplace]
    have hfresh : ∀ b, (s.workers w).pc = .install b → ∀ c', (s.controller.slice b c').idsSlots = [] := by
      intro b hpc
      apply h.unowned b
      intro k hk
      have hcallee : s.bufferAt (.call w) = some b := by
        change (s.workers w).pc.newBuffer = some b
        rw [hpc]
        rfl
      cases ho.placed.unique b (.row k) (.call w) hk hcallee
    simp only [callStep, hphase] at hcall
    have mv := appendStep_move hW hheld (h.target w c rest htodo) hfresh hcall
    refine ⟨h.advance ho' (hl.busy w (by rw [htodo]; exact List.cons_ne_nil _ _)) hw64 htodo hkeep mv,
      rfl, rows_unwritten (List.ne_nil_of_mem hW) rfl, w, hw64, advance_moves h ho' htodo mv⟩
  · rw [hphase] at hphase'
    cases hphase'

/-- A state of the initialization phase: `before` is what the arrays were at its start. -/
structure Filling (wl : Workload Key) (before : Key → List (Nat × Ptr)) (s : State Key) : Prop where
  linked : Linked wl s
  rows : ∀ k, Appending (wl.writers k s.epoch) s.epoch (before k) (s.rows k).globalArray.idsSlots
    (s.slices k) (s.heldBy k)

theorem Filling.step {before : Key → List (Nat × Ptr)} (h : Filling wl before s)
    (hr : ∀ k, Ready s.epoch (before k)) (hlinked : Linked wl s') (hm : Moved wl s s') :
    Filling wl before s' := by
  obtain ⟨hepoch, _, w, hw, hmoves⟩ := hm
  refine ⟨hlinked, fun k => ?_⟩
  rw [hepoch]
  exact (hmoves k).appending (hr k) (wl.writers_pairwise k s.epoch)
    (fun s hs => (wl.mem_writers.mp hs).1) hw (h.rows k)

/-- Only the barrier changes the phase or the epoch. -/
theorem step_phase {i : Choice} (hstep : step cfg (program wl) i s = some s') :
    (s'.phase = s.phase ∧ s'.epoch = s.epoch) ∨
      ((∀ w < cfg.numCore, s.Idle w) ∧
        ((s.phase = .initialization ∧ s' = s.enter (program wl) .execution s.epoch) ∨
          (s.phase = .execution ∧ s' = s.enter (program wl) .initialization (s.epoch + 1)))) := by
  rcases step_cases hstep with ⟨w, c, rest, _, _, _, rfl⟩ | ⟨w, _, _, _, hfin⟩ |
    ⟨w, position, c, rest, pc, m, _, _, _, rfl⟩ | ⟨hall, rfl⟩
  · exact Or.inl ⟨rfl, rfl⟩
  · refine Or.inl ?_
    rcases finalize_cases hfin with ⟨f, _, _, _, rfl⟩ | ⟨k, b, rest, rwl, _, _, _, _, rfl⟩ |
      ⟨k, b, _, rfl⟩ | ⟨k, _, rfl⟩ <;> exact ⟨rfl, rfl⟩
  · exact Or.inl ⟨rfl, rfl⟩
  · refine Or.inr ⟨hall, ?_⟩
    cases s.phase with
    | initialization => exact Or.inl ⟨rfl, rfl⟩
    | execution => exact Or.inr ⟨rfl, rfl⟩

theorem Begins.place_start (h : Begins wl s) (k : Key) (serial : Nat)
    (hs : serial ∈ wl.writers k s.epoch) : s.place k .update serial = .start := by
  unfold State.place
  rw [h.workers]
  exact view_enter (writer_mem_program.mpr hs)

theorem Begins.heldBy_none (h : Begins wl s) (k : Key) (serial : Nat)
    (hs : serial ∈ wl.writers k s.epoch) : s.heldBy k serial = none := by
  unfold State.heldBy
  rw [h.place_start k serial hs]
  rfl

/-- At the start of the phase nothing is appended. -/
theorem Begins.filling (h : Begins wl s) :
    Filling wl (fun k => (s.rows k).globalArray.idsSlots) s := by
  have hpc : ∀ w, (s.workers w).pc = .start := fun w => by rw [h.workers]
  refine ⟨⟨?_, fun b _ c => h.slices b c, ?_, ?_, ?_, ?_, ?_, ?_, fun w _ => h.maps w⟩, ?_⟩
  · intro w
    rw [h.workers]
  · intro w c rest _ b hb
    rw [hpc w] at hb
    cases hb
  · intro w x hx
    rw [h.maps w] at hx
    cases hx
  · intro w x hx
    rw [h.finalizers w] at hx
    cases hx
  · intro w k hpc
    rw [h.finalizers w] at hpc
    cases hpc
  · intro w k hne
    rw [slices_nil h.slices] at hne
    exact absurd rfl hne
  · intro k serial hs hdone
    rw [h.place_start k serial hs] at hdone
    cases hdone
  · intro k
    rw [slices_nil h.slices]
    exact (h.rows k).appending (h.heldBy_none k)

/-- Nobody is left with a call or a pair when every worker is idle. -/
theorem idle_everywhere (hl : Linked wl s) (ho : Owned 64 s) (hk : Locked 64 s)
    (hall : ∀ w < 64, s.Idle w) (w : Nat) : (s.workers w).pc = .start ∧
      s.finalizers w = .idle ∧ (s.own w).appendedCoreBuffers = .empty := by
  by_cases hw : w < 64
  · obtain ⟨htodo, hmap, hidle⟩ := hall w hw
    exact ⟨ho.resting w htodo, hidle, hmap⟩
  · have hle := Nat.not_lt.mp hw
    exact ⟨(ho.limit w hle).1, hk.limit w hle, hl.outside w hle⟩

/-- Nothing stays behind in a slice. -/
theorem Linked.slices_empty (hl : Linked wl s) (ho : Owned 64 s) (hk : Locked 64 s)
    (hall : ∀ w < 64, s.Idle w) (b c : Nat) : (s.controller.slice b c).idsSlots = [] := by
  by_cases hrow : ∀ k, (s.rows k).rowBuffer ≠ some b
  · exact hl.unowned b hrow c
  · push Not at hrow
    obtain ⟨k, hb⟩ := hrow
    obtain ⟨hpc, _, hmap⟩ := idle_everywhere hl ho hk hall c
    by_contra hne
    rw [slice_eq_slicesOf hb] at hne
    rcases hl.registered c k hne with ⟨b', hb'⟩ | ⟨_, _, _, _, hfull⟩
    · rw [hmap] at hb'
      cases hb'
    · rw [hpc] at hfull
      cases hfull

/-- What holds in the phase that begins in state `s`. -/
structure During (wl : Workload Key) (s t : State Key) : Prop where
  epoch : t.epoch = s.epoch
  owned : Owned 64 t
  locked : Locked 64 t
  filling : Filling wl (fun k => (s.rows k).globalArray.idsSlots) t
  unwritten : ∀ k, wl.writers k s.epoch = [] → t.rows k = s.rows k

theorem During.step (hcore : cfg.numCore = 64) (hs : Begins wl s) (h : During wl s t)
    (hphase : t.phase = .initialization) (hphase' : s'.phase = .initialization) {i : Choice}
    (hstep : step cfg (program wl) i t = some s') : During wl s s' := by
  have ho : Owned cfg.numCore t := hcore ▸ h.owned
  have hl : Locked cfg.numCore t := hcore ▸ h.locked
  obtain ⟨hlinked, hm⟩ := h.filling.linked.step hcore ho hl hphase hphase' hstep
  have hready : ∀ k, Ready t.epoch (s.rows k).globalArray.idsSlots := fun k => h.epoch ▸ hs.rows k
  refine ⟨hm.1.trans h.epoch, hcore ▸ owned_step ho hstep, hcore ▸ hl.step ho.rests hstep,
    h.filling.step hready hlinked hm, ?_⟩
  intro k hnil
  rw [hm.2.1 k (h.epoch ▸ hnil)]
  exact h.unwritten k hnil

/-- A run from the beginning of the phase is in the phase or has left it for good. -/
theorem Begins.run (hcore : cfg.numCore = 64) (h : Begins wl s)
    (ht : (system cfg (program wl)).Reachable (· = s) t) :
    (t.phase = .initialization ∧ During wl s t) ∨ (t.phase = .execution ∧ t.epoch = s.epoch) ∨
      s.epoch < t.epoch := by
  induction ht with
  | start he =>
    subst he
    exact Or.inl ⟨h.phase, rfl, h.owned, h.locked, h.filling, fun _ _ => rfl⟩
  | @next t t' i _ hstep ih =>
    rcases step_phase hstep with ⟨hp, he⟩ | ⟨_, ⟨hp, rfl⟩ | ⟨hp, rfl⟩⟩
    · rcases ih with ⟨hphase, hd⟩ | ⟨hphase, hepoch⟩ | hlt
      · exact Or.inl ⟨hp.trans hphase, hd.step hcore h hphase (hp.trans hphase) hstep⟩
      · exact Or.inr (Or.inl ⟨hp.trans hphase, he.trans hepoch⟩)
      · exact Or.inr (Or.inr (he ▸ hlt))
    · rcases ih with ⟨_, hd⟩ | ⟨hphase, _⟩ | hlt
      · exact Or.inr (Or.inl ⟨rfl, hd.epoch⟩)
      · rw [hp] at hphase
        cases hphase
      · exact Or.inr (Or.inr hlt)
    · have hnext : (t.enter (program wl) .initialization (t.epoch + 1)).epoch = t.epoch + 1 := rfl
      rw [hnext]
      rcases ih with ⟨hphase, _⟩ | ⟨_, hepoch⟩ | hlt
      · rw [hp] at hphase
        cases hphase
      · exact Or.inr (Or.inr (by omega))
      · exact Or.inr (Or.inr (by omega))

/-- What the phase that began in state `s` leaves behind: each array is the last entry
of before and one entry for each write of the epoch, with the version of that write. -/
structure Appended (wl : Workload Key) (s t : State Key) : Prop where
  written : ∀ k, wl.writers k s.epoch ≠ [] → ∃ last new,
    (s.rows k).globalArray.idsSlots.getLast? = some last ∧
    (t.rows k).globalArray.idsSlots = last :: new ∧ Ascending (last :: new) ∧
    new.map Prod.fst = (wl.writers k s.epoch).map (convertToSerialIdWithEpoch s.epoch) ∧
    new.map (fun x => some x.2) = (wl.writers k s.epoch).map ((t.rows k).pending s.epoch)
  unwritten : ∀ k, wl.writers k s.epoch = [] → t.rows k = s.rows k
  slices : ∀ b c, (t.controller.slice b c).idsSlots = []
  unlocked : ∀ k, (t.rows k).globalArray.rwl = {}
  pool : t.controller.lock = {}

/-- Whatever way the versions took, the phase loses and duplicates none. -/
theorem appends_complete (hcore : cfg.numCore = 64) (h : Begins wl s)
    (ht : (system cfg (program wl)).Reachable (· = s) t) (hphase : t.phase = .initialization)
    (hepoch : t.epoch = s.epoch) (hall : ∀ w < 64, t.Idle w) : Appended wl s t := by
  rcases h.run hcore ht with ⟨_, hd⟩ | ⟨hp, _⟩ | hlt
  · have hslices := hd.filling.linked.slices_empty hd.owned hd.locked hall
    have hidle := idle_everywhere hd.filling.linked hd.owned hd.locked hall
    obtain ⟨hrows, hpool⟩ := hd.locked.unlocked (fun w => (hidle w).1) (fun w => (hidle w).2.1)
    refine ⟨?_, hd.unwritten, hslices, hrows, hpool⟩
    intro k hW
    have hheld : t.heldBy k = (t.rows k).pending s.epoch := by
      funext serial
      unfold State.heldBy
      rw [place_finished (fun w hw => (hall w hw).1), hepoch]
      rfl
    have hset : ∀ serial ∈ wl.writers k s.epoch, (t.rows k).pending s.epoch serial ≠ none := by
      intro serial hs
      have hplace := place_finished (fun w hw => (hall w hw).1) k .update serial
      rw [← hepoch] at hs ⊢
      exact hd.filling.linked.handed k serial hs hplace
    have happ := hd.filling.rows k
    rw [hepoch, hheld] at happ
    have hnil : ∀ c < 64, t.slices k c = [] := fun c _ => by rw [slices_nil hslices]
    obtain ⟨last, new, hlast, hnew, hids, hversions⟩ :=
      (happ.finish (h.rows k) (wl.writers_pairwise k s.epoch)
        (fun s hs => (wl.mem_writers.mp hs).1) hnil hset).2 hW
    exact ⟨last, new, hlast, hnew, hnew ▸ happ.ascending, hids, hversions⟩
  · rw [hphase] at hp
    cases hp
  · omega

end Initialization

section Run

/-- Two transactions of the first epoch write the same row. -/
def writeTwice : Workload Unit where
  txs i := if i < 2 then [⟨.update, ()⟩] else []
  distinct := by
    intro i
    split <;> simp

/-- Worker 1 finds the row locked by worker 0, and flushes its slice at the end. -/
def bothRoutes : List Choice :=
  List.replicate 2 (.worker 0 0) ++ List.replicate 8 (.worker 1 0) ++
    List.replicate 3 (.worker 0 0) ++ List.replicate 4 (.worker 1 0)

theorem both_routes_complete : ∃ t, (system ⟨64, 4, 1, true⟩ (program writeTwice)).Reachable
    (· = initial (program writeTwice)) t ∧ (∀ w < 64, t.Idle w) ∧
    (t.rows ()).globalArray.idsSlots = [(0, 0), (2 ^ 32, 2), (2 ^ 32 + 1, 1)] ∧
    Appended writeTwice (initial (program writeTwice)) t := by
  have hstart : (system ⟨64, 4, 1, true⟩ (program writeTwice)).Reachable
      (· = initial (program writeTwice)) (initial (program writeTwice)) := .start rfl
  have hrun : ((system ⟨64, 4, 1, true⟩ (program writeTwice)).run bothRoutes
      (initial (program writeTwice))).map (fun s => (s.phase, s.epoch, (s.rows ()).globalArray.idsSlots,
        decide (∀ w < (64 : Nat), s.Idle w))) = some (.initialization, 1,
          [(0, 0), (2 ^ 32, 2), (2 ^ 32 + 1, 1)], true) := by decide +kernel
  obtain ⟨t, ht, hshow⟩ := hstart.of_run_map hrun
  simp only [Prod.mk.injEq, decide_eq_true_eq] at hshow
  obtain ⟨hphase, hepoch, hslots, hall⟩ := hshow
  exact ⟨t, ht, hall, hslots, appends_complete rfl begins_initial ht hphase hepoch hall⟩

end Run
end Mvdcc.Caracal
