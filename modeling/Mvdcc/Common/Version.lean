import Mathlib.Logic.Function.Basic
import Mvdcc.Library.LastWrite

namespace Mvdcc

/-- A record, named by who stored it: the loader, or the transaction with a
serial id in an epoch. -/
inductive Rec where
  | loaded (copy : Nat)
  | written (epoch serial : Nat)
  deriving DecidableEq

inductive VersionStatus where
  | pending | stable
  deriving DecidableEq

structure Version where
  record : Option Rec
  status : VersionStatus
  deriving DecidableEq

/-- A `Version *` that is not null. -/
abbrev Ptr := Nat

/-- One `delete` of a version, with the contents it had at that moment. -/
structure Reclaimed where
  ptr : Ptr
  version : Version
  deriving DecidableEq

/-- The versions of one row: contents, the next fresh pointer, and the log of
deletes. A deleted version keeps its last contents, as a dangling read would. -/
structure Heap where
  version : Ptr → Version
  next : Ptr
  reclaimed : List Reclaimed

namespace Heap

/-- `create_pending_version`. -/
def createPendingVersion (h : Heap) : Ptr × Heap :=
  (h.next, { h with
    version := Function.update h.version h.next ⟨none, .pending⟩
    next := h.next + 1 })

def delete (h : Heap) (p : Ptr) : Heap :=
  { h with reclaimed := h.reclaimed ++ [⟨p, h.version p⟩] }

def deleteAll (h : Heap) (ps : List Ptr) : Heap := ps.foldl delete h

/-- `__atomic_store_n(&pending->rec, rec)`. -/
def storeRec (h : Heap) (p : Ptr) (r : Rec) : Heap :=
  { h with version := Function.update h.version p { h.version p with record := some r } }

/-- `__atomic_store_n(&pending->status, STABLE)`. -/
def storeStable (h : Heap) (p : Ptr) : Heap :=
  { h with version := Function.update h.version p { h.version p with status := .stable } }

/-- A finished version: stable, with a record. -/
def Finished (h : Heap) (p : Ptr) : Prop :=
  (h.version p).status = .stable ∧ (h.version p).record ≠ none

/-- Everything deleted so far was finished at the moment of its delete. -/
def CleanLog (h : Heap) : Prop :=
  ∀ r ∈ h.reclaimed, r.version.status = .stable ∧ r.version.record ≠ none

def freed (h : Heap) : List Ptr := h.reclaimed.map Reclaimed.ptr

@[simp] theorem createPendingVersion_fst (h : Heap) : h.createPendingVersion.1 = h.next := rfl
@[simp] theorem createPendingVersion_next (h : Heap) :
    h.createPendingVersion.2.next = h.next + 1 := rfl
@[simp] theorem createPendingVersion_reclaimed (h : Heap) :
    h.createPendingVersion.2.reclaimed = h.reclaimed := rfl
@[simp] theorem createPendingVersion_freed (h : Heap) :
    h.createPendingVersion.2.freed = h.freed := rfl

theorem createPendingVersion_version (h : Heap) (p : Ptr) :
    h.createPendingVersion.2.version p =
      if p = h.next then ⟨none, .pending⟩ else h.version p := by
  simp only [createPendingVersion, Function.update_apply]

theorem createPendingVersion_old {h : Heap} {p : Ptr} (hp : p < h.next) :
    h.createPendingVersion.2.version p = h.version p := by
  rw [createPendingVersion_version, if_neg (Nat.ne_of_lt hp)]

@[simp] theorem delete_version (h : Heap) (p : Ptr) : (h.delete p).version = h.version := rfl
@[simp] theorem delete_next (h : Heap) (p : Ptr) : (h.delete p).next = h.next := rfl
@[simp] theorem delete_freed (h : Heap) (p : Ptr) : (h.delete p).freed = h.freed ++ [p] := by
  simp [freed, delete]

theorem deleteAll_cons (h : Heap) (p : Ptr) (ps : List Ptr) :
    h.deleteAll (p :: ps) = (h.delete p).deleteAll ps := rfl

@[simp] theorem deleteAll_version (h : Heap) (ps : List Ptr) :
    (h.deleteAll ps).version = h.version := by
  induction ps generalizing h with
  | nil => rfl
  | cons p ps ih => rw [deleteAll_cons, ih, delete_version]

@[simp] theorem deleteAll_next (h : Heap) (ps : List Ptr) : (h.deleteAll ps).next = h.next := by
  induction ps generalizing h with
  | nil => rfl
  | cons p ps ih => rw [deleteAll_cons, ih, delete_next]

@[simp] theorem deleteAll_freed (h : Heap) (ps : List Ptr) :
    (h.deleteAll ps).freed = h.freed ++ ps := by
  induction ps generalizing h with
  | nil => simp [deleteAll]
  | cons p ps ih => rw [deleteAll_cons, ih, delete_freed, List.append_assoc]; rfl

@[simp] theorem storeRec_next (h : Heap) (p : Ptr) (r : Rec) : (h.storeRec p r).next = h.next := rfl
@[simp] theorem storeRec_reclaimed (h : Heap) (p : Ptr) (r : Rec) :
    (h.storeRec p r).reclaimed = h.reclaimed := rfl
@[simp] theorem storeRec_freed (h : Heap) (p : Ptr) (r : Rec) :
    (h.storeRec p r).freed = h.freed := rfl
@[simp] theorem storeStable_next (h : Heap) (p : Ptr) : (h.storeStable p).next = h.next := rfl
@[simp] theorem storeStable_reclaimed (h : Heap) (p : Ptr) :
    (h.storeStable p).reclaimed = h.reclaimed := rfl
@[simp] theorem storeStable_freed (h : Heap) (p : Ptr) : (h.storeStable p).freed = h.freed := rfl

theorem storeRec_version (h : Heap) (p : Ptr) (r : Rec) (q : Ptr) :
    (h.storeRec p r).version q =
      if q = p then { h.version p with record := some r } else h.version q := by
  simp only [storeRec, Function.update_apply]

theorem storeStable_version (h : Heap) (p q : Ptr) :
    (h.storeStable p).version q =
      if q = p then { h.version p with status := .stable } else h.version q := by
  simp only [storeStable, Function.update_apply]

theorem CleanLog.delete {h : Heap} (hc : h.CleanLog) {p : Ptr} (hp : h.Finished p) :
    (h.delete p).CleanLog := by
  intro r hr
  rcases List.mem_append.mp hr with hr | hr
  · exact hc r hr
  · rw [List.mem_singleton.mp hr]
    exact hp

theorem CleanLog.deleteAll {h : Heap} (hc : h.CleanLog) {ps : List Ptr}
    (hp : ∀ p ∈ ps, h.Finished p) : (h.deleteAll ps).CleanLog := by
  induction ps generalizing h with
  | nil => exact hc
  | cons p ps ih =>
    exact ih (hc.delete (hp p List.mem_cons_self))
      (fun q hq => hp q (List.mem_cons_of_mem _ hq))

end Heap

/-- One version changes while it is still pending; nothing is created or deleted. -/
structure Fills (heap heap' : Heap) (p : Ptr) : Prop where
  pending : (heap.version p).status = .pending
  others : ∀ q, q ≠ p → heap'.version q = heap.version q
  next : heap'.next = heap.next
  reclaimed : heap'.reclaimed = heap.reclaimed

theorem Fills.stable {heap heap' : Heap} {p q : Ptr} (f : Fills heap heap' p)
    (hq : (heap.version q).status = .stable) : heap'.version q = heap.version q := by
  apply f.others
  rintro rfl
  rw [f.pending] at hq
  cases hq

theorem Fills.finished {heap heap' : Heap} {p q : Ptr} (f : Fills heap heap' p)
    (hq : heap.Finished q) : heap'.Finished q := by
  unfold Heap.Finished
  rw [f.stable hq.1]
  exact hq

theorem fills_storeRec {heap : Heap} {p : Ptr} {r : Rec}
    (h : (heap.version p).status = .pending) : Fills heap (heap.storeRec p r) p :=
  ⟨h, fun q hq => by rw [Heap.storeRec_version, if_neg hq], rfl, rfl⟩

theorem fills_storeStable {heap : Heap} {p : Ptr}
    (h : (heap.version p).status = .pending) : Fills heap (heap.storeStable p) p :=
  ⟨h, fun q hq => by rw [Heap.storeStable_version, if_neg hq], rfl, rfl⟩

end Mvdcc
