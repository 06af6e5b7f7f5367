import Mvdcc.Common.Workload
import Mvdcc.Library.SerialStore

namespace Mvdcc
open Library

namespace Rec

/-- A record as the store has it: the copies that the loader makes are the same record. -/
def content : Rec → Rec
  | loaded _ => loaded 0
  | written epoch serial => written epoch serial

end Rec

/-- A call of `read` that has returned, and the record it has handed out. -/
structure Reading (Key : Type u) where
  epoch : Nat
  call : Call Key
  record : Option Rec
  deriving DecidableEq

namespace Reading
variable {Key : Type u}

def content (y : Reading Key) : Reading Key := { y with record := y.record.map Rec.content }

/-- Which call of which epoch it was. -/
def tag (y : Reading Key) : Nat × Call Key := (y.epoch, y.call)

/-- The same call with another answer. -/
def answer (answers : Nat → Call Key → Rec) (y : Reading Key) : Reading Key :=
  { y with record := some (answers y.epoch y.call) }

end Reading

namespace Workload
variable {Key : Type u} (wl : Workload Key)

/-- What transaction `n` does to a store of one record a key. -/
def accesses (n : Nat) : List (Access Key Rec) :=
  (wl.txs n).map (fun o => match o.ope with
    | .read => .get o.index
    | .update => .put o.index (.written (n / numTxsInOneEpoch + 1) (n % numTxsInOneEpoch)))

theorem accesses_keys (n : Nat) : (wl.accesses n).map Access.key = (wl.txs n).map Operation.index := by
  unfold accesses
  rw [List.map_map]
  refine List.map_congr_left (fun o _ => ?_)
  simp only [Function.comp_apply]
  cases o.ope <;> rfl

theorem accesses_nodup (n : Nat) : ((wl.accesses n).map Access.key).Nodup :=
  wl.accesses_keys n ▸ wl.distinct n

theorem get_mem_accesses {n : Nat} {k : Key} : .get k ∈ wl.accesses n ↔ ⟨.read, k⟩ ∈ wl.txs n := by
  unfold accesses
  rw [List.mem_map]
  constructor
  · rintro ⟨⟨ope, k'⟩, ho, he⟩
    cases ope <;> cases he
    exact ho
  · exact fun ho => ⟨_, ho, rfl⟩

theorem put_mem_accesses {n : Nat} {k : Key} {x : Rec} : .put k x ∈ wl.accesses n ↔
    ⟨.update, k⟩ ∈ wl.txs n ∧ x = .written (n / numTxsInOneEpoch + 1) (n % numTxsInOneEpoch) := by
  unfold accesses
  rw [List.mem_map]
  constructor
  · rintro ⟨⟨ope, k'⟩, ho, he⟩
    cases ope <;> cases he
    exact ⟨ho, rfl⟩
  · rintro ⟨ho, rfl⟩
    exact ⟨_, ho, rfl⟩

/-- The place of a transaction in the serial order. -/
def position (epoch serial : Nat) : Nat := (epoch - 1) * numTxsInOneEpoch + serial

theorem rwSet_position (epoch serial : Nat) :
    wl.rwSet epoch serial = wl.txs (position epoch serial) := rfl

theorem position_div {e s : Nat} (he : 1 ≤ e) (hs : s < numTxsInOneEpoch) :
    position e s / numTxsInOneEpoch + 1 = e ∧ position e s % numTxsInOneEpoch = s := by
  unfold position
  unfold numTxsInOneEpoch at *
  omega

theorem position_of_div (n : Nat) :
    position (n / numTxsInOneEpoch + 1) (n % numTxsInOneEpoch) = n := by
  unfold position numTxsInOneEpoch
  omega

theorem position_lt {e s e' s' : Nat} (he : 1 ≤ e) (hs : s < numTxsInOneEpoch) (he' : 1 ≤ e')
    (hs' : s' < numTxsInOneEpoch) :
    position e s < position e' s' ↔ e < e' ∨ (e = e' ∧ s < s') := by
  unfold position
  unfold numTxsInOneEpoch at *
  omega

variable [DecidableEq Key]

/-- The store in front of transaction `n`, when the transactions run one after the other. -/
def store (n : Nat) : Key → Rec := storeBefore wl.accesses (fun _ => .loaded 0) n

/-- What transaction `n` reads in that execution. -/
def readingsOf (n : Nat) : List (Reading Key) :=
  (Access.run (wl.accesses n) (wl.store n)).1.map (fun p =>
    ⟨n / numTxsInOneEpoch + 1, ⟨n % numTxsInOneEpoch, ⟨.read, p.1⟩⟩, some p.2⟩)

/-- The serial execution of the first `n` transactions. -/
def serialReadings (n : Nat) : List (Reading Key) := (List.range n).flatMap wl.readingsOf

variable {k : Key} {e s n : Nat} {x : Rec}

theorem mem_readingsOf {y : Reading Key} : y ∈ wl.readingsOf n ↔ ∃ k, ⟨.read, k⟩ ∈ wl.txs n ∧
    y = ⟨n / numTxsInOneEpoch + 1, ⟨n % numTxsInOneEpoch, ⟨.read, k⟩⟩, some (wl.store n k)⟩ := by
  unfold readingsOf
  rw [List.mem_map]
  constructor
  · rintro ⟨⟨k, x⟩, hread, rfl⟩
    obtain ⟨hget, rfl⟩ := Access.mem_run (wl.accesses_nodup n) hread
    exact ⟨k, wl.get_mem_accesses.mp hget, rfl⟩
  · rintro ⟨k, hread, rfl⟩
    exact ⟨_, Access.run_get (wl.accesses_nodup n) (wl.get_mem_accesses.mpr hread), rfl⟩

/-- A longer serial execution goes on from a shorter one. -/
theorem serialReadings_sublist {m : Nat} (h : m ≤ n) :
    (wl.serialReadings m).Sublist (wl.serialReadings n) := by
  obtain ⟨j, rfl⟩ := Nat.exists_eq_add_of_le h
  unfold serialReadings
  rw [List.range_add, List.flatMap_append]
  exact List.sublist_append_left _ _

/-- No two readings of the serial execution are of the same call. -/
theorem serialReadings_tags (n : Nat) : ((wl.serialReadings n).map Reading.tag).Nodup := by
  unfold serialReadings
  rw [List.map_flatMap]
  refine List.nodup_flatMap.mpr ⟨fun i _ => ?_, ?_⟩
  · have hkeys : ((Access.run (wl.accesses i) (wl.store i)).1.map Prod.fst).Nodup :=
      (wl.accesses_nodup i).sublist Access.run_keys
    have htags : (wl.readingsOf i).map Reading.tag =
        ((Access.run (wl.accesses i) (wl.store i)).1.map Prod.fst).map (fun k =>
          (i / numTxsInOneEpoch + 1, (⟨i % numTxsInOneEpoch, ⟨.read, k⟩⟩ : Call Key))) := by
      unfold readingsOf
      rw [List.map_map, List.map_map]
      rfl
    rw [htags]
    refine hkeys.map (fun k k' he => ?_)
    simp only [Prod.mk.injEq, Call.mk.injEq, Operation.mk.injEq, true_and] at he
    exact he
  · refine List.pairwise_lt_range.imp (fun {i j} hij t hi hj => ?_)
    obtain ⟨y, hy, rfl⟩ := List.mem_map.mp hi
    obtain ⟨z, hz, htag⟩ := List.mem_map.mp hj
    obtain ⟨k, _, rfl⟩ := wl.mem_readingsOf.mp hy
    obtain ⟨k', _, rfl⟩ := wl.mem_readingsOf.mp hz
    simp only [Reading.tag, Prod.mk.injEq, Call.mk.injEq] at htag
    have hposition := position_of_div j
    rw [htag.1, htag.2.1, position_of_div] at hposition
    omega

/-- The serial execution reads each key of each transaction once, from the store in front of it. -/
theorem mem_serialReadings {y : Reading Key} : y ∈ wl.serialReadings (e * numTxsInOneEpoch) ↔
    (1 ≤ y.epoch ∧ y.epoch ≤ e) ∧ y.call.serial < numTxsInOneEpoch ∧
      y.call.operation ∈ wl.rSet y.epoch y.call.serial ∧
        y.record = some (wl.store (position y.epoch y.call.serial) y.call.index) := by
  unfold serialReadings
  rw [List.mem_flatMap]
  constructor
  · rintro ⟨i, hi, hy⟩
    obtain ⟨k, hread, rfl⟩ := wl.mem_readingsOf.mp hy
    simp only [position_of_div, wl.mem_rSet, rwSet_position, Call.index, and_true, hread]
    rw [List.mem_range] at hi
    unfold numTxsInOneEpoch at *
    omega
  · rintro ⟨⟨h1, he⟩, hs, hop, hr⟩
    refine ⟨position y.epoch y.call.serial, ?_, ?_⟩
    · rw [List.mem_range]
      unfold position numTxsInOneEpoch at *
      omega
    · obtain ⟨hmem, hope⟩ := wl.mem_rSet.mp hop
      obtain ⟨epoch, ⟨serial, ⟨ope, k⟩⟩, record⟩ := y
      simp only at h1 he hs hop hr hmem hope
      subst hope hr
      obtain ⟨hdiv, hmod⟩ := position_div h1 hs
      refine wl.mem_readingsOf.mpr ⟨k, hmem, ?_⟩
      simp only [hdiv, hmod]
      rfl

omit [DecidableEq Key] in
/-- A transaction of the serial order that puts a key is a write of its epoch. -/
theorem writes_of_put (h : .put k x ∈ wl.accesses n) :
    wl.Writes k (n / numTxsInOneEpoch + 1) (n % numTxsInOneEpoch) := by
  refine ⟨Nat.le_add_left 1 _, Nat.mod_lt _ (by decide), ?_⟩
  rw [rwSet_position, position_of_div]
  exact (wl.put_mem_accesses.mp h).1

/-- The last record serialized before a transaction is what the store in front of it has. -/
theorem store_of_readsLast (he : 1 ≤ e) (hs : s < numTxsInOneEpoch) (h : wl.ReadsLast k e s x) :
    x.content = wl.store (position e s) k := by
  have hearlier : ∀ i < position e s, ∀ {y}, .put k y ∈ wl.accesses i →
      stamp (i / numTxsInOneEpoch + 1) (i % numTxsInOneEpoch) ∈
        earlier (wl.Writes k) (stamp e s) := by
    intro i hi y hput
    refine mem_earlier.mpr ⟨wl.writes_of_put hput, ?_⟩
    rw [← position_lt (Nat.le_add_left 1 _) (Nat.mod_lt _ (by decide)) he hs, position_of_div]
    exact hi
  cases x with
  | loaded copy =>
    have hnone : earlier (wl.Writes k) (stamp e s) = ∅ := h
    have hfirst : wl.store (position e s) k = .loaded 0 :=
      storeBefore_first (fun i hi y hput => Set.notMem_empty _ (hnone ▸ hearlier i hi hput))
    exact hfirst.symm
  | written e' s' =>
    have hlast : IsLastWrite (wl.Writes k) (stamp e s) (stamp e' s') := h
    obtain ⟨hw, hbefore⟩ := mem_earlier.mp hlast.1
    obtain ⟨he', hs', hop⟩ := hw
    obtain ⟨hdiv, hmod⟩ := position_div he' hs'
    have hput : .put k (.written e' s') ∈ wl.accesses (position e' s') :=
      wl.put_mem_accesses.mpr ⟨hop, by rw [hdiv, hmod]⟩
    have hstore : wl.store (position e s) k = .written e' s' := by
      refine storeBefore_last wl.accesses_nodup hput ((position_lt he' hs' he hs).mpr hbefore) ?_
      intro i hi hlt y hp
      have hle := hlast.2 (hearlier i hlt hp)
      refine absurd hle (not_le_of_gt (stamp_lt.mpr ?_))
      rw [← position_lt he' hs' (Nat.le_add_left 1 _) (Nat.mod_lt _ (by decide)), position_of_div]
      exact hi
    exact hstore.symm

/-- What a serial execution answers to a call. -/
def serially (epoch : Nat) (c : Call Key) : Rec := wl.store (position epoch c.serial) c.index

theorem serialReadings_answer (e : Nat) :
    (wl.serialReadings (e * numTxsInOneEpoch)).map (Reading.answer wl.serially) =
      wl.serialReadings (e * numTxsInOneEpoch) := by
  have hself : ∀ y ∈ wl.serialReadings (e * numTxsInOneEpoch), y.answer wl.serially = y := by
    intro y hy
    obtain ⟨_, _, _, hr⟩ := wl.mem_serialReadings.mp hy
    obtain ⟨epoch, c, record⟩ := y
    simp only at hr
    subst hr
    rfl
  exact (List.map_congr_left hself).trans (List.map_id _)

/-- An epoch starts from the store that the epochs before it leave. -/
theorem store_of_trail (k : Key) (e : Nat) :
    (recOf (wl.trailOf k e).latest).content = wl.store (position e 0) k := by
  cases e with
  | zero => rfl
  | succ e =>
    exact wl.store_of_readsLast (Nat.le_add_left 1 e) (by decide) (wl.readsLast_latest k (e + 1))

/-- What an epoch leaves is what the serial execution up to its end leaves. -/
theorem store_after (k : Key) (e : Nat) :
    (recOf (wl.trailOf k (e + 1)).latest).content = wl.store (e * numTxsInOneEpoch) k := by
  have hposition : position (e + 1) 0 = e * numTxsInOneEpoch := by
    unfold position
    rw [Nat.add_sub_cancel, Nat.add_zero]
  rw [wl.store_of_trail, hposition]

end Workload
end Mvdcc
