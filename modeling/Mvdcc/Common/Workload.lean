import Mathlib.Data.List.Basic
import Mathlib.Data.List.Range
import Mvdcc.Common.Version
import Mvdcc.Library.Ascending
import Mvdcc.Library.Threads

namespace Mvdcc
open Library

inductive Ope where
  | read | update
  deriving DecidableEq

structure Operation (Key : Type u) where
  ope : Ope
  index : Key
  deriving DecidableEq

/-- `NUM_TXS_IN_ONE_EPOCH`: 64 cores with 64 transactions each. -/
def numTxsInOneEpoch : Nat := 64 * 64

/-- The serial ids of an epoch. Irreducible: sums over them are not to be computed. -/
@[irreducible] def serials : Finset Nat := Finset.range numTxsInOneEpoch

theorem mem_serials {s : Nat} : s ∈ serials ↔ s < numTxsInOneEpoch := by
  rw [serials, Finset.mem_range]

/-- The cores, one worker each. Irreducible for the same reason. -/
@[irreducible] def cores : Finset Nat := Finset.range 64

theorem mem_cores {c : Nat} : c ∈ cores ↔ c < 64 := by
  rw [cores, Finset.mem_range]

/-- The generated transactions, one `rw_set_` each, with pairwise distinct keys. -/
structure Workload (Key : Type u) where
  txs : Nat → List (Operation Key)
  distinct : ∀ i, ((txs i).map Operation.index).Nodup

/-- One operation of one transaction, as a worker meets it in its loop. -/
structure Call (Key : Type u) where
  serial : Nat
  operation : Operation Key
  deriving DecidableEq

def Call.index (c : Call Key) : Key := c.operation.index

theorem Call.eta (c : Call Key) : c = ⟨c.serial, ⟨c.operation.ope, c.index⟩⟩ := rfl

/-- What a phase sets before the operations of one transaction: `core_`,
`serial_id_`, and the place in `txs` it takes them from. -/
structure Visit where
  core : Nat
  serialId : Nat
  tx : Nat
  deriving DecidableEq

/-- `NUM_CORE`. -/
def numCore : Nat := 64

/-- `NUM_TXS_IN_ONE_EPOCH_IN_ONE_CORE`. -/
def numTxsInOneEpochInOneCore (n : Nat) : Nat := n / numCore

-- The strides are written 64 in the source; only the loop bound follows `n`.

def sequentialAssignment (n workerId headInTheEpoch : Nat) : List Visit :=
  (List.range (numTxsInOneEpochInOneCore n)).map (fun i =>
    ⟨workerId, workerId * 64 + i, headInTheEpoch + workerId * 64 + i⟩)

def roundRobinAssignment (n workerId headInTheEpoch : Nat) : List Visit :=
  (List.range (numTxsInOneEpochInOneCore n)).map (fun i =>
    ⟨i, i * 64 + workerId, headInTheEpoch + i * 64 + workerId⟩)

/-- The calls of a worker for the transactions it visits, in loop order. -/
def callsOf (visits : List Visit) (ops : Nat → List (Operation Key)) : List (Call Key) :=
  visits.flatMap (fun v => (ops v.serialId).map (Call.mk v.serialId))

def sequentialCalls (w : Nat) (ops : Nat → List (Operation Key)) : List (Call Key) :=
  callsOf (sequentialAssignment numTxsInOneEpoch w 0) ops

def roundRobinCalls (w : Nat) (ops : Nat → List (Operation Key)) : List (Call Key) :=
  callsOf (roundRobinAssignment numTxsInOneEpoch w 0) ops

/-- Loop order: later transactions after earlier ones, one key at most once in each. -/
def Call.Before (a b : Call Key) : Prop :=
  a.serial < b.serial ∨ (a.serial = b.serial ∧ a.index ≠ b.index)

theorem Call.Before.ne {a b : Call Key} (h : a.Before b) : a ≠ b := by
  rintro rfl
  rcases h with h | ⟨_, h⟩
  · exact Nat.lt_irrefl _ h
  · exact h rfl

theorem Call.Before.lt {a b : Call Key} (h : a.Before b) (hk : a.index = b.index) :
    a.serial < b.serial := by
  rcases h with h | ⟨_, h⟩
  · exact h
  · exact absurd hk h

theorem Call.Before.le {a b : Call Key} (h : a.Before b) : a.serial ≤ b.serial := by
  rcases h with h | ⟨h, _⟩
  · exact Nat.le_of_lt h
  · exact Nat.le_of_eq h

theorem mem_callsOf {visits : List Visit} {ops : Nat → List (Operation Key)} {c : Call Key} :
    c ∈ callsOf visits ops ↔
      (∃ v ∈ visits, v.serialId = c.serial) ∧ c.operation ∈ ops c.serial := by
  simp only [callsOf, List.mem_flatMap, List.mem_map]
  constructor
  · rintro ⟨v, hv, o, ho, rfl⟩
    exact ⟨⟨v, hv, rfl⟩, ho⟩
  · rintro ⟨⟨v, hv, hs⟩, ho⟩
    exact ⟨v, hv, c.operation, hs ▸ ho, by rw [hs]⟩

theorem callsOf_pairwise {visits : List Visit} {ops : Nat → List (Operation Key)}
    (hm : visits.Pairwise (fun v v' => v.serialId < v'.serialId))
    (hd : ∀ s, ((ops s).map Operation.index).Nodup) :
    (callsOf visits ops).Pairwise Call.Before := by
  unfold callsOf
  rw [List.pairwise_flatMap]
  constructor
  · intro v _
    rw [List.pairwise_map]
    have h := List.pairwise_map.mp (hd v.serialId)
    exact h.imp (fun hne => Or.inr ⟨rfl, hne⟩)
  · apply hm.imp
    intro v v' hlt a ha b hb
    obtain ⟨o, _, rfl⟩ := List.mem_map.mp ha
    obtain ⟨o', _, rfl⟩ := List.mem_map.mp hb
    exact Or.inl hlt

theorem mem_sequentialCalls {w : Nat} {ops : Nat → List (Operation Key)} {c : Call Key} :
    c ∈ sequentialCalls w ops ↔ c.serial / 64 = w ∧ c.operation ∈ ops c.serial := by
  unfold sequentialCalls
  rw [mem_callsOf]
  simp only [sequentialAssignment, numTxsInOneEpochInOneCore, numTxsInOneEpoch, numCore,
    List.mem_map, List.mem_range, exists_exists_and_eq_and]
  constructor
  · rintro ⟨⟨i, hi, hs⟩, ho⟩
    exact ⟨by omega, ho⟩
  · rintro ⟨hw, ho⟩
    exact ⟨⟨c.serial % 64, by omega, by omega⟩, ho⟩

theorem mem_roundRobinCalls {w : Nat} (hw : w < 64) {ops : Nat → List (Operation Key)}
    {c : Call Key} : c ∈ roundRobinCalls w ops ↔
      c.serial < numTxsInOneEpoch ∧ c.serial % 64 = w ∧ c.operation ∈ ops c.serial := by
  unfold roundRobinCalls
  rw [mem_callsOf]
  simp only [roundRobinAssignment, numTxsInOneEpochInOneCore, numTxsInOneEpoch, numCore,
    List.mem_map, List.mem_range, exists_exists_and_eq_and]
  constructor
  · rintro ⟨⟨i, hi, hs⟩, ho⟩
    exact ⟨by omega, by omega, ho⟩
  · rintro ⟨hlt, hm, ho⟩
    exact ⟨⟨c.serial / 64, by omega, by omega⟩, ho⟩

theorem sequentialAssignment_pairwise (n w head : Nat) :
    (sequentialAssignment n w head).Pairwise (fun v v' => v.serialId < v'.serialId) := by
  refine List.pairwise_map.mpr (List.pairwise_lt_range.imp ?_)
  intro i j hij
  dsimp only
  omega

theorem roundRobinAssignment_pairwise (n w head : Nat) :
    (roundRobinAssignment n w head).Pairwise (fun v v' => v.serialId < v'.serialId) := by
  refine List.pairwise_map.mpr (List.pairwise_lt_range.imp ?_)
  intro i j hij
  dsimp only
  omega

theorem sequentialCalls_pairwise (w : Nat) {ops : Nat → List (Operation Key)}
    (hd : ∀ s, ((ops s).map Operation.index).Nodup) :
    (sequentialCalls w ops).Pairwise Call.Before :=
  callsOf_pairwise (sequentialAssignment_pairwise _ w 0) hd

theorem roundRobinCalls_pairwise (w : Nat) {ops : Nat → List (Operation Key)}
    (hd : ∀ s, ((ops s).map Operation.index).Nodup) :
    (roundRobinCalls w ops).Pairwise Call.Before :=
  callsOf_pairwise (roundRobinAssignment_pairwise _ w 0) hd

/-- The record a stamp names: the loaded one before any write. -/
def recOf : Option Stamp → Rec
  | none => .loaded 0
  | some st => .written (ofLex st).1 (ofLex st).2

namespace Workload
variable {Key : Type u} (wl : Workload Key)

/-- `txs[head_in_the_epoch + serial].rw_set_`. -/
def rwSet (epoch serial : Nat) : List (Operation Key) :=
  wl.txs ((epoch - 1) * numTxsInOneEpoch + serial)

/-- `w_set_`: the updates, in the same order. -/
def wSet (epoch serial : Nat) : List (Operation Key) :=
  (wl.rwSet epoch serial).filter (fun o => o.ope = .update)

def rSet (epoch serial : Nat) : List (Operation Key) :=
  (wl.rwSet epoch serial).filter (fun o => o.ope = .read)

theorem rwSet_nodup (epoch serial : Nat) : ((wl.rwSet epoch serial).map Operation.index).Nodup :=
  wl.distinct _

theorem wSet_nodup (epoch serial : Nat) : ((wl.wSet epoch serial).map Operation.index).Nodup :=
  (wl.rwSet_nodup epoch serial).sublist (List.Sublist.map _ List.filter_sublist)

theorem rSet_nodup (epoch serial : Nat) : ((wl.rSet epoch serial).map Operation.index).Nodup :=
  (wl.rwSet_nodup epoch serial).sublist (List.Sublist.map _ List.filter_sublist)

theorem mem_wSet {epoch serial : Nat} {o : Operation Key} :
    o ∈ wl.wSet epoch serial ↔ o ∈ wl.rwSet epoch serial ∧ o.ope = .update := by
  simp [wSet]

theorem mem_rSet {epoch serial : Nat} {o : Operation Key} :
    o ∈ wl.rSet epoch serial ↔ o ∈ wl.rwSet epoch serial ∧ o.ope = .read := by
  simp [rSet]

/-- A transaction touches a key with one operation at most. -/
theorem operation_unique {epoch serial : Nat} {o o' : Operation Key}
    (ho : o ∈ wl.rwSet epoch serial) (ho' : o' ∈ wl.rwSet epoch serial)
    (hk : o.index = o'.index) : o = o' :=
  List.inj_on_of_nodup_map (wl.rwSet_nodup epoch serial) ho ho' hk

/-- The transaction with this serial id writes the key in this epoch. Epochs count from one. -/
def Writes (k : Key) (epoch serial : Nat) : Prop :=
  1 ≤ epoch ∧ serial < numTxsInOneEpoch ∧ ⟨.update, k⟩ ∈ wl.rwSet epoch serial

/-- The record a read must return: that of the last write serialized before
the reader, or a loaded one when there is none. -/
def ReadsLast (k : Key) (epoch serial : Nat) : Rec → Prop
  | .loaded _ => earlier (wl.Writes k) (stamp epoch serial) = ∅
  | .written e s => IsLastWrite (wl.Writes k) (stamp epoch serial) (stamp e s)

/-- A read below every writer of its epoch looks back from the epoch's start. -/
theorem readsLast_start {k : Key} {e s : Nat} {x : Rec} (hn : ∀ w, wl.Writes k e w → ¬ w < s)
    (h : wl.ReadsLast k e 0 x) : wl.ReadsLast k e s x := by
  have hs := earlier_eq_start hn
  cases x with
  | loaded copy => exact hs.trans h
  | written e' s' =>
    unfold ReadsLast IsLastWrite at h ⊢
    rw [hs]
    exact h

variable [DecidableEq Key]

/-- The serial ids that write a key in an epoch, in ascending order. -/
def writers (k : Key) (epoch : Nat) : List Nat :=
  (List.range numTxsInOneEpoch).filter (fun s => ⟨.update, k⟩ ∈ wl.rwSet epoch s)

/-- The serial ids that read a key in an epoch, in ascending order. -/
def readers (k : Key) (epoch : Nat) : List Nat :=
  (List.range numTxsInOneEpoch).filter (fun s => ⟨.read, k⟩ ∈ wl.rwSet epoch s)

theorem mem_writers {k : Key} {epoch s : Nat} : s ∈ wl.writers k epoch ↔
    s < numTxsInOneEpoch ∧ ⟨.update, k⟩ ∈ wl.rwSet epoch s := by
  simp [writers]

theorem mem_readers {k : Key} {epoch s : Nat} : s ∈ wl.readers k epoch ↔
    s < numTxsInOneEpoch ∧ ⟨.read, k⟩ ∈ wl.rwSet epoch s := by
  simp [readers]

theorem writes_iff {k : Key} {epoch s : Nat} :
    wl.Writes k epoch s ↔ 1 ≤ epoch ∧ s ∈ wl.writers k epoch := by
  rw [mem_writers]
  exact Iff.rfl

theorem writers_pairwise (k : Key) (epoch : Nat) : (wl.writers k epoch).Pairwise (· < ·) :=
  List.pairwise_lt_range.sublist List.filter_sublist

theorem readers_pairwise (k : Key) (epoch : Nat) : (wl.readers k epoch).Pairwise (· < ·) :=
  List.pairwise_lt_range.sublist List.filter_sublist

theorem not_reader_of_writer {k : Key} {epoch s : Nat} (hw : s ∈ wl.writers k epoch) :
    s ∉ wl.readers k epoch := by
  intro hr
  have := wl.operation_unique (wl.mem_writers.mp hw).2 (wl.mem_readers.mp hr).2 rfl
  cases this

/-- The greatest writer of a key in an epoch. -/
def finalWriter (k : Key) (epoch : Nat) : Option Nat :=
  if epoch = 0 then none else (wl.writers k epoch).getLast?

theorem isFinal (k : Key) : IsFinal (wl.finalWriter k) (wl.Writes k) := by
  intro e
  unfold finalWriter
  rcases Nat.eq_zero_or_pos e with rfl | he
  · rintro w ⟨h, _⟩
    exact absurd h (by omega)
  · rw [if_neg (by omega)]
    cases hl : (wl.writers k e).getLast? with
    | none =>
      intro w hw
      have := (wl.writes_iff.mp hw).2
      rw [List.getLast?_eq_none_iff.mp hl] at this
      cases this
    | some m =>
      refine ⟨wl.writes_iff.mpr ⟨he, List.mem_of_getLast? hl⟩, ?_⟩
      intro w hw
      exact le_getLast (wl.writers_pairwise k e) hl (wl.writes_iff.mp hw).2

theorem finalWriter_none {k : Key} {e : Nat} (h : wl.writers k e = []) : wl.finalWriter k e = none := by
  simp [finalWriter, h]

theorem finalWriter_some {k : Key} {e : Nat} (he : 1 ≤ e) (h : wl.writers k e ≠ []) :
    ∃ w, wl.finalWriter k e = some w ∧ w ∈ wl.writers k e ∧ ∀ w' ∈ wl.writers k e, w' ≤ w := by
  have hf := wl.isFinal k e
  cases hw : wl.finalWriter k e with
  | none =>
    rw [hw] at hf
    obtain ⟨w, hm⟩ := List.exists_mem_of_ne_nil _ h
    exact absurd (wl.writes_iff.mpr ⟨he, hm⟩) (hf w)
  | some w =>
    rw [hw] at hf
    exact ⟨w, rfl, (wl.writes_iff.mp hf.1).2, fun w' hm => hf.2 w' (wl.writes_iff.mpr ⟨he, hm⟩)⟩

/-- What the writes before an epoch leave behind on a key. -/
def trailOf (k : Key) (epoch : Nat) : Trail := trail (wl.finalWriter k) epoch

theorem trailOf_one (k : Key) : wl.trailOf k 1 = ⟨0, none, none⟩ := by
  rw [trailOf, trail_succ_none (by simp [finalWriter])]
  rfl

theorem trailOf_latest (k : Key) (e : Nat) :
    match (wl.trailOf k e).latest with
    | none => earlier (wl.Writes k) (stamp e 0) = ∅
    | some p => IsLastWrite (wl.Writes k) (stamp e 0) p :=
  trail_latest (wl.isFinal k) e

/-- The latest write of the trail is what an epoch's first reader must see. -/
theorem readsLast_latest (k : Key) (e : Nat) : wl.ReadsLast k e 0 (recOf (wl.trailOf k e).latest) := by
  have h := wl.trailOf_latest k e
  cases hl : (wl.trailOf k e).latest with
  | none =>
    rw [hl] at h
    exact h
  | some st =>
    rw [hl] at h
    exact h

end Workload

/-- A write in the first epoch, a read after it, and a read one epoch later. -/
def writeOnce : Workload Unit where
  txs i := if i = 0 then [⟨.update, ()⟩] else if i = 1 ∨ i = 4096 then [⟨.read, ()⟩] else []
  distinct := by
    intro i
    split
    · simp
    · split <;> simp

theorem writeOnce_writes : writeOnce.Writes () 1 0 :=
  ⟨by decide, by decide, by simp [Workload.rwSet, writeOnce]⟩

/-- A read, and a write after it, in the first epoch. -/
def readThenWrite : Workload Unit where
  txs i := if i = 0 then [⟨.read, ()⟩] else if i = 1 then [⟨.update, ()⟩] else []
  distinct := by
    intro i
    split
    · simp
    · split <;> simp

/-- In every epoch the first core writes the row twice and the second core once. -/
def writeAcross : Workload Unit where
  txs i := if i % 4096 < 2 ∨ i % 4096 = 64 then [⟨.update, ()⟩] else []
  distinct := by
    intro i
    split <;> simp

end Mvdcc
