import Mathlib.Data.List.Sort
import Mvdcc.Tpcc.Keys
import Mvdcc.Tpcc.Profiles

namespace Mvdcc.Tpcc
open Library Transaction

/-! The two profiles that only read, and runs of all five. -/

/-- The operations that only these two use. A range is handed out whole: its lambda takes
the rows one after the other. -/
structure QueryTransaction (τ : Type) extends Transaction τ where
  getCustomerByLastName : UInt16 → UInt8 → String → Request τ Customer
  getOrderByCustomerId : UInt16 → UInt8 → UInt32 → Request τ Order
  rangeQuery : OrderLineKey → OrderLineKey → Request τ (List OrderLine)

/-- What they rely on: a customer's newest order has the greatest id, and a range comes in the
order of its keys. Only a customer without orders lets a lookup fail. -/
structure KeyedQueries {τ : Type} (committed view : τ → Store) (T : QueryTransaction τ) : Prop
    extends KeyedStore committed view T.toTransaction where
  named : ∀ cWId cDId cLast, Serves committed view (T.getCustomerByLastName cWId cDId cLast)
    (fun s c s' => (s.tables .customer).find ⟨cWId, cDId, c.cId⟩ = some c ∧ c.cLast = cLast ∧
      s' = s) (fun _ => False)
  newest : ∀ cWId cDId cId, Serves committed view (T.getOrderByCustomerId cWId cDId cId)
    (fun s o s' => (s.tables .order).find ⟨cWId, cDId, o.oId⟩ = some o ∧ o.oCId = cId ∧
      (∀ o', (s.tables .order).find ⟨cWId, cDId, o'.oId⟩ = some o' → o'.oCId = cId →
        o'.oId ≤ o.oId) ∧ s' = s)
    (fun s => ∀ oId o, (s.tables .order).find ⟨cWId, cDId, oId⟩ = some o → o.oCId ≠ cId)
  query : ∀ low up, Serves committed view (T.rangeQuery low up)
    (fun s rows s' => rows.Pairwise (fun a b =>
        (TableId.createKey .orderLine a).rawKey < (TableId.createKey .orderLine b).rawKey) ∧
      (∀ ol, ol ∈ rows ↔ (s.tables .orderLine).find (TableId.createKey .orderLine ol) = some ol ∧
        OrderLineKey.InRange (TableId.createKey .orderLine ol) (low, up)) ∧ s' = s)
    (fun _ => False)

section Profiles
variable {τ : Type} (T : QueryTransaction τ)

namespace OrderStatusTx

structure Input where
  wId : UInt16
  dId : UInt8
  cId : UInt32
  byLastName : Bool
  cLast : String
  deriving DecidableEq

/-- What the lambda of `range_query` puts out of a line. -/
structure ReportedLine where
  olSupplyWId : UInt16
  olIId : UInt32
  olQuantity : UInt8
  olAmount : ℚ
  olDeliveryD : Timestamp
  deriving DecidableEq

structure Report where
  cLast : String
  cBalance : ℚ
  oId : UInt32
  oEntryD : Timestamp
  oCarrierId : UInt8
  lines : List ReportedLine
  deriving DecidableEq

def report (ol : OrderLine) : ReportedLine where
  olSupplyWId := ol.olSupplyWId
  olIId := ol.olIId
  olQuantity := ol.olQuantity
  olAmount := ol.olAmount
  olDeliveryD := ol.olDeliveryD

def run (input : Input) : Script (World τ) Status Report := do
  let c ← T.require (if input.byLastName then
      T.getCustomerByLastName input.wId input.dId input.cLast
    else T.getRecord .customer ⟨input.wId, input.dId, input.cId⟩)
  let o ← T.require (T.getOrderByCustomerId input.wId input.dId c.cId)
  let rows ← T.require (T.rangeQuery ⟨o.oWId, o.oDId, o.oId, 1⟩ ⟨o.oWId, o.oDId, o.oId + 1, 1⟩)
  T.finish
  return ⟨c.cLast, c.cBalance, o.oId, o.oEntryD, o.oCarrierId, rows.map report⟩

end OrderStatusTx

namespace StockLevelTx

structure Input where
  wId : UInt16
  dId : UInt8
  threshold : UInt8
  deriving DecidableEq

/-- `insert` of a `std::set`. -/
def insertId (i : UInt32) (ids : List UInt32) : List UInt32 :=
  if i ∈ ids then ids else ids.orderedInsert (· ≤ ·) i

/-- The lambda of `range_query`. -/
def collect (ids : List UInt32) (ol : OrderLine) : List UInt32 :=
  if ol.olIId ≠ unusedItemId then insertId ol.olIId ids else ids

/-- The loop over the set, which erases the items of which there are enough. -/
def eraseStocked (input : Input) : List UInt32 → Script (World τ) Status (List UInt32)
  | [] => return []
  | i :: ids => do
    let s ← T.require (T.getRecord .stock ⟨input.wId, i⟩)
    let rest ← eraseStocked input ids
    return if s.sQuantity.toInt ≥ input.threshold.toNat then rest else i :: rest

def run (input : Input) : Script (World τ) Status Nat := do
  let d ← T.require (T.getRecord .district ⟨input.wId, input.dId⟩)
  let rows ← T.require (T.rangeQuery ⟨input.wId, input.dId, d.dNextOId - 20, 1⟩
    ⟨input.wId, input.dId, d.dNextOId, 1⟩)
  let ids ← eraseStocked T input (rows.foldl collect [])
  T.finish
  return ids.length

end StockLevelTx

/-- `run_with_retry`, with what the committed pass puts out. -/
def runForReport {Input Report : Type} (profile : Input → Script (World τ) Status Report) :
    List (Attempt Input) → World τ → Option (Option (Input × Report) × World τ)
  | [], _ => none
  | a :: rest, w =>
    match profile a.input { w with coins := a.coins } with
    | (.ok r, w) => some (some (a.input, r), w)
    | (.error .userAbort, w) => some (none, { w with tx := T.abort w.tx })
    | (.error .systemAbort, w) => runForReport profile rest w
    | (.error _, _) => none

inductive AnyCall where
  | update (call : Call)
  | orderStatus (attempts : List (Attempt OrderStatusTx.Input))
  | stockLevel (attempts : List (Attempt StockLevelTx.Input))

def AnyCall.Generated : AnyCall → Prop
  | .update call => call.Generated
  | _ => True

def stepAny : AnyCall → World τ → Option (World τ)
  | .update call, w => step T.toTransaction call w
  | .orderStatus attempts, w => (runForReport T (OrderStatusTx.run T) attempts w).map Prod.snd
  | .stockLevel attempts, w => (runForReport T (StockLevelTx.run T) attempts w).map Prod.snd

def fullSystem : TransitionSystem (World τ) AnyCall := ⟨stepAny T⟩

end Profiles
end Mvdcc.Tpcc
