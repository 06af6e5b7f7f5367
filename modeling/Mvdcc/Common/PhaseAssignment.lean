import Mathlib.Data.List.Nodup
import Mathlib.Data.List.Perm.Basic
import Mathlib.Data.List.Range
import Mvdcc.Common.Workload

namespace Mvdcc

/-! The phases of an epoch visit the same transactions when `NUM_TXS_IN_ONE_EPOCH` allows it. -/

/-- What the operations of a transaction use: `core_` and `get_tx_serial(serial_id_)`. -/
def Visit.place (v : Visit) : Nat × Nat := (v.core, v.serialId % 64)

def Serval.doInitializationPhase := sequentialAssignment
def Serval.doExecutionPhase := roundRobinAssignment
def Cheetah.doWritePhase := sequentialAssignment
def Cheetah.doReadPhase := sequentialAssignment
def Cheetah.doExecutionPhase := roundRobinAssignment

/-- The phases of an epoch, in order. -/
def Serval.phases := [Serval.doInitializationPhase, Serval.doExecutionPhase]
def Cheetah.phases := [Cheetah.doWritePhase, Cheetah.doReadPhase, Cheetah.doExecutionPhase]

/-- All the visits of a phase, worker by worker. -/
def visits (phase : Nat → Nat → Nat → List Visit) (n epoch : Nat) : List Visit :=
  (List.range numCore).flatMap (fun workerId => phase n workerId ((epoch - 1) * n))

/-- Every phase visits the epoch's transactions, each once, and each with one place. -/
structure Agree (n : Nat) (phases : List (Nat → Nat → Nat → List Visit)) : Prop where
  covered : ∀ epoch, 1 ≤ epoch → ∀ p ∈ phases,
    ((visits p n epoch).map Visit.tx).Perm (List.range' ((epoch - 1) * n) n)
  core_lt : ∀ epoch, 1 ≤ epoch → ∀ p ∈ phases, ∀ v ∈ visits p n epoch, v.core < numCore
  placed : ∀ epoch, 1 ≤ epoch → ∀ p ∈ phases, ∀ q ∈ phases, ∀ v ∈ visits p n epoch,
    ∀ v' ∈ visits q n epoch, v.tx = v'.tx → v.place = v'.place

theorem mem_visits_sequential {n epoch : Nat} {v : Visit} :
    v ∈ visits sequentialAssignment n epoch ↔ ∃ w < 64, ∃ i < n / 64,
      v = ⟨w, w * 64 + i, (epoch - 1) * n + w * 64 + i⟩ := by
  simp only [visits, sequentialAssignment, numTxsInOneEpochInOneCore, numCore, List.mem_flatMap,
    List.mem_range, List.mem_map, eq_comm]

theorem mem_visits_roundRobin {n epoch : Nat} {v : Visit} :
    v ∈ visits roundRobinAssignment n epoch ↔ ∃ w < 64, ∃ i < n / 64,
      v = ⟨i, i * 64 + w, (epoch - 1) * n + i * 64 + w⟩ := by
  simp only [visits, roundRobinAssignment, numTxsInOneEpochInOneCore, numCore, List.mem_flatMap,
    List.mem_range, List.mem_map, eq_comm]

/-- The sequential assignment of the last worker starts at 4032: a smaller epoch has no such
transaction. -/
theorem le_of_sequential {n : Nat} (hn : 0 < n) (hd : 64 ∣ n)
    (h : ((visits sequentialAssignment n 1).map Visit.tx).Perm (List.range' ((1 - 1) * n) n)) :
    4096 ≤ n := by
  have hvisit : (⟨63, 63 * 64 + 0, (1 - 1) * n + 63 * 64 + 0⟩ : Visit) ∈
      visits sequentialAssignment n 1 :=
    mem_visits_sequential.mpr ⟨63, by omega, 0, by omega, rfl⟩
  have hmem := h.subset (List.mem_map_of_mem hvisit)
  rw [List.mem_range'_1] at hmem
  have hlt : 4032 < n := by simpa using hmem.2
  omega

/-- The round-robin assignment sets `core_` to its loop counter. -/
theorem le_of_roundRobin {n : Nat} (h : ∀ v ∈ visits roundRobinAssignment n 1, v.core < numCore)
    (hd : 64 ∣ n) : n ≤ 4096 := by
  by_contra hlt
  have hvisit : (⟨64, 64 * 64 + 0, (1 - 1) * n + 64 * 64 + 0⟩ : Visit) ∈
      visits roundRobinAssignment n 1 :=
    mem_visits_roundRobin.mpr ⟨0, by omega, 64, by omega, rfl⟩
  have hcore : 64 < numCore := h _ hvisit
  exact absurd hcore (by decide)

/-- Sixty-four workers with sixty-four turns each: a list of visits has each
transaction once if the worker and the turn can be told from it. -/
theorem perm_range_of_turns (tx : Nat → Nat → Nat) (head : Nat)
    (hlt : ∀ w < 64, ∀ i < 64, tx w i < 4096)
    (hinj : ∀ w < 64, ∀ i < 64, ∀ w' < 64, ∀ i' < 64, tx w i = tx w' i' → w = w' ∧ i = i')
    (hsurj : ∀ t < 4096, ∃ w < 64, ∃ i < 64, tx w i = t) :
    ((List.range 64).flatMap (fun w => (List.range 64).map (fun i => head + tx w i))).Perm
      (List.range' head 4096) := by
  have hnodup : ((List.range 64).flatMap
      (fun w => (List.range 64).map (fun i => head + tx w i))).Nodup := by
    rw [List.nodup_flatMap]
    constructor
    · intro w hw
      have hw := List.mem_range.mp hw
      refine List.Nodup.map_on ?_ List.nodup_range
      intro i hi i' hi' he
      have he : tx w i = tx w i' := by omega
      exact (hinj w hw i (List.mem_range.mp hi) w hw i' (List.mem_range.mp hi') he).2
    · refine List.nodup_range.imp_of_mem ?_
      intro w w' hw hw' hne t ht ht'
      obtain ⟨i, hi, rfl⟩ := List.mem_map.mp ht
      obtain ⟨i', hi', he⟩ := List.mem_map.mp ht'
      have he : tx w i = tx w' i' := by omega
      exact hne (hinj w (List.mem_range.mp hw) i (List.mem_range.mp hi) w' (List.mem_range.mp hw')
        i' (List.mem_range.mp hi') he).1
  refine (List.perm_ext_iff_of_nodup hnodup List.nodup_range').mpr (fun t => ?_)
  simp only [List.mem_flatMap, List.mem_range, List.mem_map, List.mem_range'_1]
  constructor
  · rintro ⟨w, hw, i, hi, rfl⟩
    have := hlt w hw i hi
    omega
  · rintro ⟨hle, hlt⟩
    obtain ⟨w, hw, i, hi, he⟩ := hsurj (t - head) (by omega)
    exact ⟨w, hw, i, hi, by omega⟩

theorem sequential_covers (epoch : Nat) :
    ((visits sequentialAssignment 4096 epoch).map Visit.tx).Perm
      (List.range' ((epoch - 1) * 4096) 4096) := by
  have h := perm_range_of_turns (fun w i => w * 64 + i) ((epoch - 1) * 4096)
    (fun w _ i _ => by omega) (fun w _ i _ w' _ i' _ he => by omega)
    (fun t _ => ⟨t / 64, by omega, t % 64, by omega, by omega⟩)
  rw [visits, List.map_flatMap]
  simp only [sequentialAssignment, List.map_map, Function.comp_def, Nat.add_assoc]
  exact h

theorem roundRobin_covers (epoch : Nat) :
    ((visits roundRobinAssignment 4096 epoch).map Visit.tx).Perm
      (List.range' ((epoch - 1) * 4096) 4096) := by
  have h := perm_range_of_turns (fun w i => i * 64 + w) ((epoch - 1) * 4096)
    (fun w _ i _ => by omega) (fun w _ i _ w' _ i' _ he => by omega)
    (fun t _ => ⟨t % 64, by omega, t / 64, by omega, by omega⟩)
  rw [visits, List.map_flatMap]
  simp only [roundRobinAssignment, List.map_map, Function.comp_def, Nat.add_assoc]
  exact h

/-- A visit of either assignment, in an epoch of 4096, is told by its transaction. -/
theorem place_of_visit {p : Nat → Nat → Nat → List Visit}
    (hp : p = sequentialAssignment ∨ p = roundRobinAssignment) {epoch : Nat} {v : Visit}
    (hv : v ∈ visits p 4096 epoch) :
    v.core < numCore ∧
      v.place = ((v.tx - (epoch - 1) * 4096) / 64, (v.tx - (epoch - 1) * 4096) % 64) := by
  rcases hp with rfl | rfl
  · obtain ⟨w, hw, i, hi, rfl⟩ := mem_visits_sequential.mp hv
    refine ⟨hw, Prod.ext ?_ ?_⟩
    · change w = ((epoch - 1) * 4096 + w * 64 + i - (epoch - 1) * 4096) / 64
      omega
    · change (w * 64 + i) % 64 = ((epoch - 1) * 4096 + w * 64 + i - (epoch - 1) * 4096) % 64
      omega
  · obtain ⟨w, hw, i, hi, rfl⟩ := mem_visits_roundRobin.mp hv
    refine ⟨hi, Prod.ext ?_ ?_⟩
    · change i = ((epoch - 1) * 4096 + i * 64 + w - (epoch - 1) * 4096) / 64
      omega
    · change (i * 64 + w) % 64 = ((epoch - 1) * 4096 + i * 64 + w - (epoch - 1) * 4096) % 64
      omega

theorem agree_4096 {phases : List (Nat → Nat → Nat → List Visit)}
    (h : ∀ p ∈ phases, p = sequentialAssignment ∨ p = roundRobinAssignment) :
    Agree 4096 phases where
  covered := by
    intro epoch _ p hp
    rcases h p hp with rfl | rfl
    · exact sequential_covers epoch
    · exact roundRobin_covers epoch
  core_lt := fun _ _ p hp _ hv => (place_of_visit (h p hp) hv).1
  placed := by
    intro epoch _ p hp q hq v hv v' hv' he
    rw [(place_of_visit (h p hp) hv).2, (place_of_visit (h q hq) hv').2, he]

theorem eq_of_agree {n : Nat} {phases : List (Nat → Nat → Nat → List Visit)} (hn : 0 < n)
    (hd : 64 ∣ n) (hs : sequentialAssignment ∈ phases) (hr : roundRobinAssignment ∈ phases)
    (h : Agree n phases) : n = 4096 := by
  have hle := le_of_sequential hn hd (h.covered 1 le_rfl _ hs)
  have hge := le_of_roundRobin (h.core_lt 1 le_rfl _ hr) hd
  exact le_antisymm hge hle

/-- The phases agree on the transactions of an epoch for one size of it: that
of the strides. -/
theorem phases_agree_iff (n : Nat) (hn : 0 < n) (hd : 64 ∣ n) :
    (Agree n Serval.phases ↔ n = 4096) ∧ (Agree n Cheetah.phases ↔ n = 4096) := by
  constructor
  · constructor
    · exact eq_of_agree hn hd (List.mem_cons_self ..) (List.mem_cons_of_mem _ (List.mem_cons_self ..))
    · rintro rfl
      refine agree_4096 (fun p hp => ?_)
      simp only [Serval.phases, List.mem_cons, List.not_mem_nil, or_false] at hp
      exact hp
  · constructor
    · refine eq_of_agree hn hd (List.mem_cons_self ..) ?_
      exact List.mem_cons_of_mem _ (List.mem_cons_of_mem _ (List.mem_cons_self ..))
    · rintro rfl
      refine agree_4096 (fun p hp => ?_)
      simp only [Cheetah.phases, List.mem_cons, List.not_mem_nil, or_false] at hp
      rcases hp with hp | hp | hp
      · exact Or.inl hp
      · exact Or.inl hp
      · exact Or.inr hp

theorem phases_agree_iff_default : Agree 4096 Serval.phases ∧ Agree 4096 Cheetah.phases :=
  ⟨(phases_agree_iff 4096 (by decide) (by decide)).1.mpr rfl,
    (phases_agree_iff 4096 (by decide) (by decide)).2.mpr rfl⟩

/-- Epochs of 64 transactions: the sequential assignment visits others. -/
theorem epoch_of_64_disagrees : ¬ Agree 64 Serval.phases ∧ ¬ Agree 64 Cheetah.phases := by
  constructor
  · intro h
    exact absurd (le_of_sequential (by decide) (by decide)
      (h.covered 1 le_rfl _ (List.mem_cons_self ..))) (by decide)
  · intro h
    exact absurd (le_of_sequential (by decide) (by decide)
      (h.covered 1 le_rfl _ (List.mem_cons_self ..))) (by decide)

end Mvdcc
