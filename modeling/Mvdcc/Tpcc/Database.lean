import Mathlib.Data.List.MinMax
import Mvdcc.Tpcc.Transaction

namespace Mvdcc.Tpcc
open Library

/-- Rows in lists: a database small enough to run the profiles on. -/
structure Database where
  rows : (tb : TableId) → List tb.Record
  history : List History

namespace Database

def find (x : Database) (tb : TableId) (k : tb.Key) : Option tb.Record :=
  (x.rows tb).find? (fun r => tb.createKey r = k)

def put (x : Database) (tb : TableId) (r : tb.Record) : Database :=
  { x with
    rows := Function.update x.rows tb
      (r :: (x.rows tb).filter (fun r' => tb.createKey r' ≠ tb.createKey r)) }

def erase (x : Database) (tb : TableId) (k : tb.Key) : Database :=
  { x with
    rows := Function.update x.rows tb
      ((x.rows tb).filter (fun r => tb.createKey r ≠ k)) }

def visit (f : Captured → OrderLine → Captured × OrderLine) :
    List OrderLine → Captured → Database → Captured × Database
  | [], c, x => (c, x)
  | ol :: rest, c, x =>
    let (c, ol) := f c ol
    visit f rest c (x.put .orderLine ol)

def store (x : Database) : Store where
  tables := fun tb => .ofRows tb.createKey (x.rows tb)
  history := x.history

theorem find_store (x : Database) (tb : TableId) (k : tb.Key) :
    (x.store.tables tb).find k = x.find tb k := rfl

theorem store_put (x : Database) (tb : TableId) (r : tb.Record) :
    (x.put tb r).store = x.store.put tb r := by
  unfold Store.put store put
  congr 1
  funext tb'
  by_cases h : tb' = tb
  · subst h
    dsimp only
    rw [Function.update_self, Function.update_self, Table.ofRows_put]
  · dsimp only
    rw [Function.update_of_ne h, Function.update_of_ne h]

theorem store_erase (x : Database) (tb : TableId) (k : tb.Key) :
    (x.erase tb k).store = x.store.erase tb k := by
  unfold Store.erase store erase
  congr 1
  funext tb'
  by_cases h : tb' = tb
  · subst h
    dsimp only
    rw [Function.update_self, Function.update_self, Table.ofRows_erase]
  · dsimp only
    rw [Function.update_of_ne h, Function.update_of_ne h]

theorem store_visit (f : Captured → OrderLine → Captured × OrderLine) (rows : List OrderLine)
    (c : Captured) (x : Database) :
    Tpcc.visit f rows c x.store = ((visit f rows c x).1, (visit f rows c x).2.store) := by
  induction rows generalizing c x with
  | nil => rfl
  | cons ol rows ih =>
    simp only [Tpcc.visit, visit]
    rw [← store_put, ih]

/-- A transaction on a copy of the database, which replaces it at the commit. -/
structure Tx where
  base : Database
  copy : Database

namespace Tx

def succeed (x : Tx) (a : Option α) : Reply α × Tx :=
  match a with
  | some a => (.success a, x)
  | none => (.abort, x)

def write (x : Tx) (f : Database → Database) : Reply Unit × Tx :=
  (.success (), { x with copy := f x.copy })

def candidates (low : NewOrderKey) (x : Database) : List NewOrder :=
  (x.rows .newOrder).filter (fun no =>
    no.noWId = low.wId ∧ no.noDId = low.dId ∧ low.oId ≤ no.noOId)

def smallest (low : NewOrderKey) (x : Database) : Option NewOrder :=
  (candidates low x).argmin (fun no => no.noOId.toNat)

def inRange (low up : OrderLineKey) (x : Database) : List OrderLine :=
  ((x.rows .orderLine).filter (fun ol =>
    x.find .orderLine (TableId.createKey .orderLine ol) = some ol ∧
      low.rawKey ≤ (TableId.createKey .orderLine ol).rawKey ∧
      (TableId.createKey .orderLine ol).rawKey < up.rawKey)).dedup

def byLastName (cWId : UInt16) (cDId : UInt8) (cLast : String) (x : Database) :
    Option Customer :=
  (x.rows .customer).find? (fun c => x.find .customer (TableId.createKey .customer c) = some c ∧
    c.cWId = cWId ∧ c.cDId = cDId ∧ c.cLast = cLast)

end Tx

/-- The operations, with every absent row an abort. -/
def transaction : Transaction Tx where
  getRecord := fun tb k x => x.succeed (x.copy.find tb k)
  prepareRecordForUpdate := fun tb k x => x.succeed (x.copy.find tb k)
  finishUpdate := fun tb r x => x.write (fun y => y.put tb r)
  prepareRecordForInsert := fun tb k x =>
    x.succeed (if (x.copy.find tb k).isNone then some () else none)
  finishInsert := fun tb r x => x.write (fun y => y.put tb r)
  prepareHistoryForInsert := fun x => x.succeed (some ())
  finishHistoryInsert := fun h x => x.write (fun y => { y with history := y.history ++ [h] })
  prepareRecordForDelete := fun tb k x => x.succeed (x.copy.find tb k)
  finishDelete := fun tb r x => x.write (fun y => y.erase tb (tb.createKey r))
  getNeworderWithSmallestKeyNoLessThan := fun low x =>
    match Tx.smallest low x.copy with
    | some no => (.success no, x)
    | none => (if Tx.smallest { low with oId := 0 } x.copy = none then .fail else .abort, x)
  rangeUpdate := fun low up f c x =>
    let (c, copy) := visit f (Tx.inRange low up x.copy) c x.copy
    (.success c, { x with copy })
  getCustomerByLastNameAndPrepareForUpdate := fun cWId cDId cLast x =>
    x.succeed (Tx.byLastName cWId cDId cLast x.copy)
  commit := fun x => (true, ⟨x.copy, x.copy⟩)
  abort := fun x => ⟨x.base, x.base⟩

section KeyedStore

def committed (x : Tx) : Store := x.base.store

def view (x : Tx) : Store := x.copy.store

theorem succeed_serves {α : Type} {Q : Store → α → Store → Prop} (f : Database → Option α)
    (h : ∀ x a, f x = some a → Q x.store a x.store) :
    Serves committed view (fun x => x.succeed (f x.copy)) Q (fun _ => False) := by
  intro x
  dsimp only [Tx.succeed]
  cases hf : f x.copy with
  | none => exact ⟨rfl, trivial⟩
  | some a => exact ⟨rfl, h _ a hf⟩

theorem write_serves {Q : Store → Unit → Store → Prop} (f : Database → Database)
    (h : ∀ x, Q x.store () (f x).store) :
    Serves committed view (fun x => x.write f) Q (fun _ => False) :=
  fun x => ⟨rfl, h x.copy⟩

theorem find_serves (tb : TableId) (k : tb.Key) :
    Serves committed view (fun x => x.succeed (x.copy.find tb k))
      (fun s r s' => (s.tables tb).find k = some r ∧ s' = s) (fun _ => False) :=
  succeed_serves (fun x => x.find tb k) (fun x r h => ⟨by rw [find_store, h], rfl⟩)

theorem mem_of_find {x : Database} {tb : TableId} {k : tb.Key} {r : tb.Record}
    (h : x.find tb k = some r) : r ∈ x.rows tb ∧ tb.createKey r = k :=
  ⟨List.mem_of_find?_eq_some h, Table.key_of_find? h⟩

theorem find_of_mem {x : Database} {no : NewOrder} (h : no ∈ x.rows .newOrder) :
    x.find .newOrder (TableId.createKey .newOrder no) = some no := by
  have hsome : (x.find .newOrder (TableId.createKey .newOrder no)).isSome :=
    List.find?_isSome.mpr ⟨no, h, decide_eq_true rfl⟩
  obtain ⟨⟨w, d, o⟩, hfind⟩ := Option.isSome_iff_exists.mp hsome
  have hkey := (mem_of_find hfind).2
  obtain ⟨w', d', o'⟩ := no
  simp only [TableId.createKey, NewOrderKey.mk.injEq] at hkey
  obtain ⟨rfl, rfl, rfl⟩ := hkey
  exact hfind

theorem mem_candidates {low : NewOrderKey} {x : Database} {no : NewOrder} :
    no ∈ Tx.candidates low x ↔
      no ∈ x.rows .newOrder ∧ no.noWId = low.wId ∧ no.noDId = low.dId ∧ low.oId ≤ no.noOId := by
  rw [Tx.candidates, List.mem_filter, decide_eq_true_iff]

theorem smallest_some {low : NewOrderKey} {x : Database} {no : NewOrder}
    (h : Tx.smallest low x = some no) :
    no.noWId = low.wId ∧ no.noDId = low.dId ∧ low.oId ≤ no.noOId ∧
      x.find .newOrder ⟨low.wId, low.dId, no.noOId⟩ = some no ∧
      ∀ oId, low.oId ≤ oId → x.find .newOrder ⟨low.wId, low.dId, oId⟩ ≠ none →
        no.noOId ≤ oId := by
  obtain ⟨hmem, hw, hd, hlow⟩ := mem_candidates.mp (List.argmin_mem h)
  refine ⟨hw, hd, hlow, ?_, ?_⟩
  · rw [← hw, ← hd]
    exact find_of_mem hmem
  · intro oId hle hne
    obtain ⟨other, hother⟩ := Option.ne_none_iff_exists'.mp hne
    obtain ⟨hrow, hkey⟩ := mem_of_find hother
    simp only [TableId.createKey, NewOrderKey.mk.injEq] at hkey
    obtain ⟨hw', hd', rfl⟩ := hkey
    have hcandidate := mem_candidates.mpr ⟨hrow, hw', hd', hle⟩
    have hmin := List.le_of_mem_argmin (f := fun no : NewOrder => no.noOId.toNat) hcandidate h
    exact UInt32.le_iff_toNat_le.mpr hmin

theorem smallest_none {low : NewOrderKey} {x : Database} (h : Tx.smallest low x = none)
    {oId : UInt32} (hle : low.oId ≤ oId) : x.find .newOrder ⟨low.wId, low.dId, oId⟩ = none := by
  by_contra hne
  obtain ⟨no, hno⟩ := Option.ne_none_iff_exists'.mp hne
  obtain ⟨hrow, hkey⟩ := mem_of_find hno
  simp only [TableId.createKey, NewOrderKey.mk.injEq] at hkey
  obtain ⟨hw, hd, rfl⟩ := hkey
  have hmem := mem_candidates.mpr ⟨hrow, hw, hd, hle⟩
  rw [List.argmin_eq_none.mp h] at hmem
  cases hmem

/-- The database does what is asked of the `Transaction` type. -/
theorem keyedStore : KeyedStore committed view transaction where
  get := find_serves
  prepareUpdate := find_serves
  finishUpdate := fun tb r => write_serves (fun y => y.put tb r) (fun x => store_put x tb r)
  prepareInsert := fun tb k =>
    succeed_serves (fun y => if (y.find tb k).isNone then some () else none) (fun x _ h => by
      split at h
      · rename_i hnone
        exact ⟨Option.isNone_iff_eq_none.mp hnone, rfl⟩
      · cases h)
  finishInsert := fun tb r => write_serves (fun y => y.put tb r) (fun x => store_put x tb r)
  prepareHistory := fun x => ⟨rfl, rfl⟩
  finishHistory := fun h => write_serves (fun y => { y with history := y.history ++ [h] })
    (fun x => rfl)
  prepareDelete := find_serves
  finishDelete := fun tb r => write_serves (fun y => y.erase tb (tb.createKey r))
    (fun x => store_erase x tb _)
  smallest := by
    intro low x
    dsimp only [transaction]
    cases hsmallest : Tx.smallest low x.copy with
    | some no => exact ⟨rfl, rfl, smallest_some hsmallest⟩
    | none =>
      dsimp only
      by_cases hnone : Tx.smallest { low with oId := 0 } x.copy = none
      · rw [if_pos hnone]
        exact ⟨rfl, fun oId => smallest_none hnone (Nat.zero_le _), rfl⟩
      · rw [if_neg hnone]
        exact ⟨rfl, trivial⟩
  range := by
    intro low up f c x
    refine ⟨rfl, Tx.inRange low up x.copy, List.nodup_dedup _, ?_, store_visit f _ c x.copy⟩
    intro ol
    unfold Tx.inRange
    rw [List.mem_dedup, List.mem_filter, decide_eq_true_iff]
    exact and_iff_right_of_imp (fun h => (mem_of_find h.1).1)
  byLastName := fun cWId cDId cLast =>
    succeed_serves (Tx.byLastName cWId cDId cLast) (fun x c h => by
      have hc := List.find?_some h
      rw [decide_eq_true_iff] at hc
      obtain ⟨hfind, hw, hd, hlast⟩ := hc
      subst hw hd
      exact ⟨hfind, hlast, rfl⟩)
  commit := fun x => ⟨rfl, rfl⟩
  abort := fun x => ⟨rfl, rfl⟩

end KeyedStore

end Database
end Mvdcc.Tpcc
