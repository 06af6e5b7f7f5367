import Mvdcc.Library.Transition
import Mvdcc.Tpcc.Transaction

namespace Mvdcc.Tpcc
open Library Transaction

section Profiles
variable {τ : Type} (T : Transaction τ)

/-- `Item::UNUSED_ID`. -/
def unusedItemId : UInt32 := 1

namespace NewOrderTx

structure OrderedItem where
  olSupplyWId : UInt16
  olIId : UInt32
  olQuantity : UInt8

structure Input where
  wId : UInt16
  dId : UInt8
  cId : UInt32
  olCnt : UInt8
  rbk : Bool
  isRemote : Bool
  items : Nat → OrderedItem

def createNeworder (wId : UInt16) (dId : UInt8) (oId : UInt32) : NewOrder where
  noWId := wId
  noDId := dId
  noOId := oId

def createOrder (input : Input) (oId : UInt32) (entryD : Timestamp) : Order where
  oWId := input.wId
  oDId := input.dId
  oCId := input.cId
  oId := oId
  oCarrierId := 0
  oOlCnt := input.olCnt
  oAllLocal := if input.isRemote then 0 else 1
  oEntryD := entryD

def createOrderline (input : Input) (oId : UInt32) (olNum : UInt8) (item : OrderedItem)
    (olAmount : ℚ) (s : Stock) : OrderLine where
  olWId := input.wId
  olDId := input.dId
  olOId := oId
  olNumber := olNum
  olIId := item.olIId
  olSupplyWId := item.olSupplyWId
  olDeliveryD := 0
  olQuantity := item.olQuantity
  olAmount := olAmount
  olDistInfo := s.sDist.getD (input.dId.toNat - 1) ""

/-- `s_quantity` is computed as an `int` and stored in 16 bits. -/
def modifyStock (s : Stock) (olQuantity : UInt8) (isRemote : Bool) : Stock :=
  let sQuantity : Int :=
    if s.sQuantity.toInt > olQuantity.toNat + 10 then s.sQuantity.toInt - olQuantity.toNat
    else s.sQuantity.toInt - olQuantity.toNat + 91
  { s with
    sQuantity := Int16.ofInt sQuantity
    sYtd := s.sYtd + olQuantity.toUInt32
    sOrderCnt := s.sOrderCnt + 1
    sRemoteCnt := if isRemote then s.sRemoteCnt + 1 else s.sRemoteCnt }

/-- The body of the loop over the order lines. -/
def orderLine (input : Input) (oId : UInt32) (olNum : Nat) : Script (World τ) Status Unit := do
  let item := input.items (olNum - 1)
  if item.olIId = unusedItemId then Script.throw .userAbort
  else
    let i ← T.require (T.getRecord .item ⟨item.olIId⟩)
    let s ← T.require (T.prepareRecordForUpdate .stock ⟨item.olSupplyWId, item.olIId⟩)
    let s := modifyStock s item.olQuantity input.isRemote
    T.require (T.finishUpdate .stock s)
    let olAmount := item.olQuantity.toNat * i.iPrice
    let num := UInt8.ofNat olNum
    T.require (T.prepareRecordForInsert .orderLine ⟨input.wId, input.dId, oId, num⟩)
    T.require (T.finishInsert .orderLine (createOrderline input oId num item olAmount s))

def run (input : Input) : Script (World τ) Status Unit := do
  let _ ← T.require (T.getRecord .warehouse ⟨input.wId⟩)
  let d ← T.require (T.prepareRecordForUpdate .district ⟨input.wId, input.dId⟩)
  let oId := d.dNextOId
  T.require (T.finishUpdate .district { d with dNextOId := d.dNextOId + 1 })
  let _ ← T.require (T.getRecord .customer ⟨input.wId, input.dId, input.cId⟩)
  T.require (T.prepareRecordForInsert .newOrder ⟨input.wId, input.dId, oId⟩)
  T.require (T.finishInsert .newOrder (createNeworder input.wId input.dId oId))
  T.require (T.prepareRecordForInsert .order ⟨input.wId, input.dId, oId⟩)
  let entryD ← getTimestamp
  T.require (T.finishInsert .order (createOrder input oId entryD))
  Script.forEach (orderLine T input oId) (List.range' 1 input.olCnt.toNat)
  T.finish

end NewOrderTx

namespace DeliveryTx

structure Input where
  wId : UInt16
  oCarrierId : UInt8

/-- What `generate` draws with `urand_int(1, 10)`. -/
def Input.Generated (input : Input) : Prop := 1 ≤ input.oCarrierId ∧ input.oCarrierId ≤ 10

/-- The lambda of `range_update`. -/
def deliver (c : Captured) (ol : OrderLine) : Captured × OrderLine :=
  (⟨c.totalOlAmount + ol.olAmount, c.clock + 1⟩, { ol with olDeliveryD := c.clock })

/-- `range_update` over the lines of one order: the sum of their amounts. -/
def deliverOrderLines (low up : OrderLineKey) : Script (World τ) Status ℚ := fun w =>
  match T.require (T.rangeUpdate low up deliver ⟨0, w.clock⟩) w with
  | (.ok c, w) => (.ok c.totalOlAmount, { w with clock := c.clock })
  | (.error s, w) => (.error s, w)

/-- The body of the loop over the districts. -/
def deliverDistrict (input : Input) (dId : UInt8) : Script (World τ) Status Unit := do
  let res ← ask (T.getNeworderWithSmallestKeyNoLessThan ⟨input.wId, dId, 1⟩)
  match res with
  | .fail => pure ()
  | res =>
    let no ← T.checked res
    let no ← T.require (T.prepareRecordForDelete .newOrder (TableId.createKey .newOrder no))
    T.require (T.finishDelete .newOrder no)
    let o ← T.require (T.prepareRecordForUpdate .order ⟨input.wId, dId, no.noOId⟩)
    let o : Order := { o with oCarrierId := input.oCarrierId }
    T.require (T.finishUpdate .order o)
    let total ← deliverOrderLines T ⟨o.oWId, o.oDId, o.oId, 1⟩ ⟨o.oWId, o.oDId, o.oId + 1, 1⟩
    let c ← T.require (T.prepareRecordForUpdate .customer ⟨input.wId, dId, o.oCId⟩)
    T.require (T.finishUpdate .customer
      { c with cBalance := c.cBalance + total, cDeliveryCnt := c.cDeliveryCnt + 1 })

/-- `District::DISTS_PER_WARE` districts. -/
def run (input : Input) : Script (World τ) Status Unit := do
  Script.forEach (fun dId => deliverDistrict T input (UInt8.ofNat dId)) (List.range' 1 10)
  T.finish

end DeliveryTx

namespace PaymentTx

structure Input where
  wId : UInt16
  dId : UInt8
  cId : UInt32
  cWId : UInt16
  cDId : UInt8
  hAmount : ℚ
  byLastName : Bool
  cLast : String

def createHistory (input : Input) (cId : UInt32) (date : Timestamp) : History where
  hCId := cId
  hCDId := input.cDId
  hCWId := input.cWId
  hDId := input.dId
  hWId := input.wId
  hDate := date
  hAmount := input.hAmount

def run (input : Input) : Script (World τ) Status Unit := do
  let w ← T.require (T.prepareRecordForUpdate .warehouse ⟨input.wId⟩)
  T.require (T.finishUpdate .warehouse { w with wYtd := w.wYtd + input.hAmount })
  let d ← T.require (T.prepareRecordForUpdate .district ⟨input.wId, input.dId⟩)
  T.require (T.finishUpdate .district { d with dYtd := d.dYtd + input.hAmount })
  let c ← T.require (if input.byLastName then
      T.getCustomerByLastNameAndPrepareForUpdate input.cWId input.cDId input.cLast
    else T.prepareRecordForUpdate .customer ⟨input.cWId, input.cDId, input.cId⟩)
  T.require (T.finishUpdate .customer
    { c with
      cBalance := c.cBalance - input.hAmount
      cYtdPayment := c.cYtdPayment + input.hAmount
      cPaymentCnt := c.cPaymentCnt + 1 })
  T.require T.prepareHistoryForInsert
  let date ← getTimestamp
  T.require (T.finishHistoryInsert (createHistory input c.cId date))
  T.finish

end PaymentTx

/-- One pass of the loop of `run_with_retry`: a generated input, and the random aborts. -/
structure Attempt (Input : Type) where
  input : Input
  coins : List Bool

/-- `run_with_retry`: the passes up to the one that returns. Each begins with the input's
`generate`, which takes a timestamp. `BUG` stops at an assertion. -/
def runWithRetry {Input : Type} (profile : Input → Script (World τ) Status Unit) :
    List (Attempt Input) → World τ → Option (Bool × World τ)
  | [], _ => none
  | a :: rest, w =>
    match statusOf (profile a.input) { w with coins := a.coins, clock := w.clock + 1 } with
    | (.success, w) => some (true, w)
    | (.userAbort, w) => some (false, { w with tx := T.abort w.tx })
    | (.systemAbort, w) => runWithRetry profile rest w
    | (.bug, _) => none

inductive Call where
  | newOrder (attempts : List (Attempt NewOrderTx.Input))
  | payment (attempts : List (Attempt PaymentTx.Input))
  | delivery (attempts : List (Attempt DeliveryTx.Input))

/-- No range that `generate` draws from matters, but that of the carrier. -/
def Call.Generated : Call → Prop
  | .delivery attempts => ∀ a ∈ attempts, a.input.Generated
  | _ => True

def step : Call → World τ → Option (World τ)
  | .newOrder attempts, w => (runWithRetry T (NewOrderTx.run T) attempts w).map Prod.snd
  | .payment attempts, w => (runWithRetry T (PaymentTx.run T) attempts w).map Prod.snd
  | .delivery attempts, w => (runWithRetry T (DeliveryTx.run T) attempts w).map Prod.snd

def system : TransitionSystem (World τ) Call := ⟨step T⟩

end Profiles
end Mvdcc.Tpcc
