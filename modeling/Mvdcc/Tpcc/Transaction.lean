import Mvdcc.Library.Script
import Mvdcc.Tpcc.Records

namespace Mvdcc.Tpcc
open Library

/-- `Transaction::Result`, with what the operation hands out. -/
inductive Reply (α : Type) where
  | success (a : α)
  | fail
  | abort
  deriving DecidableEq

inductive Status where
  | success | userAbort | systemAbort | bug
  deriving DecidableEq

abbrev Request (τ α : Type) := τ → Reply α × τ

/-- What the lambda of `range_update` captures: the sum, and the clock. -/
structure Captured where
  totalOlAmount : ℚ
  clock : Nat

/-- The operations of the `Transaction` type that the profiles use. A record that is
prepared comes back with the call that finishes it. -/
structure Transaction (τ : Type) where
  getRecord : (tb : TableId) → tb.Key → Request τ tb.Record
  prepareRecordForUpdate : (tb : TableId) → tb.Key → Request τ tb.Record
  finishUpdate : (tb : TableId) → tb.Record → Request τ Unit
  prepareRecordForInsert : (tb : TableId) → tb.Key → Request τ Unit
  finishInsert : (tb : TableId) → tb.Record → Request τ Unit
  prepareHistoryForInsert : Request τ Unit
  finishHistoryInsert : History → Request τ Unit
  prepareRecordForDelete : (tb : TableId) → tb.Key → Request τ tb.Record
  finishDelete : (tb : TableId) → tb.Record → Request τ Unit
  getNeworderWithSmallestKeyNoLessThan : NewOrderKey → Request τ NewOrder
  rangeUpdate : OrderLineKey → OrderLineKey → (Captured → OrderLine → Captured × OrderLine) →
    Captured → Request τ Captured
  getCustomerByLastNameAndPrepareForUpdate : UInt16 → UInt8 → String → Request τ Customer
  commit : τ → Bool × τ
  abort : τ → τ

def visit (f : Captured → OrderLine → Captured × OrderLine) :
    List OrderLine → Captured → Store → Captured × Store
  | [], c, s => (c, s)
  | ol :: rest, c, s =>
    let (c, ol) := f c ol
    visit f rest c (s.put .orderLine ol)

section Assumptions
variable {τ α : Type} (committed view : τ → Store)

/-- An operation leaves alone what is committed, and a success does `Q` to what the
transaction sees. `F` is when it may fail. -/
def Serves (op : Request τ α) (Q : Store → α → Store → Prop) (F : Store → Prop) : Prop :=
  ∀ x, committed (op x).2 = committed x ∧ match (op x).1 with
    | .success a => Q (view x) a (view (op x).2)
    | .fail => F (view x) ∧ view (op x).2 = view x
    | .abort => True

/-- What the profiles rely on: a keyed store in which a transaction sees its own writes,
and an abort that undoes them. Only the search for a new order may fail. -/
structure KeyedStore (T : Transaction τ) : Prop where
  get : ∀ tb k, Serves committed view (T.getRecord tb k)
    (fun s r s' => (s.tables tb).find k = some r ∧ s' = s) (fun _ => False)
  prepareUpdate : ∀ tb k, Serves committed view (T.prepareRecordForUpdate tb k)
    (fun s r s' => (s.tables tb).find k = some r ∧ s' = s) (fun _ => False)
  finishUpdate : ∀ tb r, Serves committed view (T.finishUpdate tb r)
    (fun s _ s' => s' = s.put tb r) (fun _ => False)
  prepareInsert : ∀ tb k, Serves committed view (T.prepareRecordForInsert tb k)
    (fun s _ s' => (s.tables tb).find k = none ∧ s' = s) (fun _ => False)
  finishInsert : ∀ tb r, Serves committed view (T.finishInsert tb r)
    (fun s _ s' => s' = s.put tb r) (fun _ => False)
  prepareHistory : Serves committed view T.prepareHistoryForInsert
    (fun s _ s' => s' = s) (fun _ => False)
  finishHistory : ∀ h, Serves committed view (T.finishHistoryInsert h)
    (fun s _ s' => s' = { s with history := s.history ++ [h] }) (fun _ => False)
  prepareDelete : ∀ tb k, Serves committed view (T.prepareRecordForDelete tb k)
    (fun s r s' => (s.tables tb).find k = some r ∧ s' = s) (fun _ => False)
  finishDelete : ∀ tb r, Serves committed view (T.finishDelete tb r)
    (fun s _ s' => s' = s.erase tb (tb.createKey r)) (fun _ => False)
  smallest : ∀ low, Serves committed view (T.getNeworderWithSmallestKeyNoLessThan low)
    (fun s no s' => s' = s ∧ no.noWId = low.wId ∧ no.noDId = low.dId ∧ low.oId ≤ no.noOId ∧
      (s.tables .newOrder).find ⟨low.wId, low.dId, no.noOId⟩ = some no ∧
      ∀ oId, low.oId ≤ oId → (s.tables .newOrder).find ⟨low.wId, low.dId, oId⟩ ≠ none →
        no.noOId ≤ oId)
    (fun s => ∀ oId, (s.tables .newOrder).find ⟨low.wId, low.dId, oId⟩ = none)
  range : ∀ low up f c, Serves committed view (T.rangeUpdate low up f c)
    (fun s c' s' => ∃ rows : List OrderLine, rows.Nodup ∧
      (∀ ol, ol ∈ rows ↔ (s.tables .orderLine).find (TableId.createKey .orderLine ol) = some ol ∧
        low.rawKey ≤ (TableId.createKey .orderLine ol).rawKey ∧
        (TableId.createKey .orderLine ol).rawKey < up.rawKey) ∧
      visit f rows c s = (c', s')) (fun _ => False)
  byLastName : ∀ cWId cDId cLast,
    Serves committed view (T.getCustomerByLastNameAndPrepareForUpdate cWId cDId cLast)
      (fun s c s' => (s.tables .customer).find ⟨cWId, cDId, c.cId⟩ = some c ∧ c.cLast = cLast ∧
        s' = s) (fun _ => False)
  commit : ∀ x, if (T.commit x).1 then
      committed (T.commit x).2 = view x ∧ view (T.commit x).2 = view x
    else committed (T.commit x).2 = committed x ∧ view (T.commit x).2 = committed x
  abort : ∀ x, committed (T.abort x) = committed x ∧ view (T.abort x) = committed x

end Assumptions

/-- A transaction under way: its state, the coming random aborts, and the counter of
`get_timestamp`. -/
structure World (τ : Type) where
  tx : τ
  coins : List Bool
  clock : Nat

namespace Transaction
variable {τ α : Type} (T : Transaction τ)

/-- `not_succeeded`: a success may be turned into an abort, and an abort is carried out. -/
def notSucceeded (res : Reply α) (w : World τ) : Reply α × World τ :=
  let (res, w) := match res, w.coins with
    | .success a, coin :: coins => (if coin then Reply.abort else .success a, { w with coins })
    | res, _ => (res, w)
  match res with
  | .abort => (.abort, { w with tx := T.abort w.tx })
  | res => (res, w)

/-- `if (not_succeeded(tx, res)) return helper.kill(res, ...)` after an operation. -/
def checked (res : Reply α) : Script (World τ) Status α := fun w =>
  match T.notSucceeded res w with
  | (.success a, w) => (.ok a, w)
  | (.fail, w) => (.error .bug, w)
  | (.abort, w) => (.error .systemAbort, w)

def ask (op : Request τ α) : Script (World τ) Status (Reply α) := fun w =>
  let (res, tx) := op w.tx
  (.ok res, { w with tx })

/-- An operation that has to succeed. -/
def require (op : Request τ α) : Script (World τ) Status α :=
  ask op >>= T.checked

/-- `helper.commit`. -/
def finish : Script (World τ) Status Unit := fun w =>
  let (done, tx) := T.commit w.tx
  (if done then .ok () else .error .systemAbort, { w with tx })

/-- `get_timestamp`. -/
def getTimestamp : Script (World τ) Status Timestamp := fun w =>
  (.ok w.clock, { w with clock := w.clock + 1 })

end Transaction

def statusOf {τ : Type} (profile : Script (World τ) Status Unit) (w : World τ) :
    Status × World τ :=
  match profile w with
  | (.ok _, w) => (.success, w)
  | (.error s, w) => (s, w)

end Mvdcc.Tpcc
