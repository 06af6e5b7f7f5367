import Mathlib.Data.Rat.Defs
import Mvdcc.Library.Table

namespace Mvdcc.Tpcc
open Library

abbrev Timestamp := Int

/-! The bit-fields of the primary keys. Amounts of money are exact. -/

structure ItemKey where
  iId : UInt32
  deriving DecidableEq

structure WarehouseKey where
  wId : UInt16
  deriving DecidableEq

structure StockKey where
  wId : UInt16
  iId : UInt32
  deriving DecidableEq

structure DistrictKey where
  wId : UInt16
  dId : UInt8
  deriving DecidableEq

structure CustomerKey where
  wId : UInt16
  dId : UInt8
  cId : UInt32
  deriving DecidableEq

structure OrderKey where
  wId : UInt16
  dId : UInt8
  oId : UInt32
  deriving DecidableEq

structure NewOrderKey where
  wId : UInt16
  dId : UInt8
  oId : UInt32
  deriving DecidableEq

structure OrderLineKey where
  wId : UInt16
  dId : UInt8
  oId : UInt32
  olNumber : UInt8
  deriving DecidableEq

/-- `ol_key`: the bit-fields from the lowest one up. -/
def OrderLineKey.rawKey (k : OrderLineKey) : Nat :=
  k.olNumber.toNat + 2 ^ 8 * k.oId.toNat + 2 ^ 40 * k.dId.toNat + 2 ^ 48 * k.wId.toNat

structure Item where
  iId : UInt32
  iPrice : ℚ

structure Warehouse where
  wId : UInt16
  wYtd : ℚ

structure Stock where
  sWId : UInt16
  sIId : UInt32
  sQuantity : Int16
  sYtd : UInt32
  sOrderCnt : UInt16
  sRemoteCnt : UInt16
  sDist : List String

structure District where
  dWId : UInt16
  dId : UInt8
  dNextOId : UInt32
  dYtd : ℚ

structure Customer where
  cWId : UInt16
  cDId : UInt8
  cId : UInt32
  cPaymentCnt : UInt16
  cDeliveryCnt : UInt16
  cBalance : ℚ
  cYtdPayment : ℚ
  cLast : String
  deriving DecidableEq

structure History where
  hCWId : UInt16
  hCDId : UInt8
  hCId : UInt32
  hWId : UInt16
  hDId : UInt8
  hDate : Timestamp
  hAmount : ℚ

structure Order where
  oWId : UInt16
  oDId : UInt8
  oId : UInt32
  oCId : UInt32
  oCarrierId : UInt8
  oOlCnt : UInt8
  oAllLocal : UInt8
  oEntryD : Timestamp

structure NewOrder where
  noWId : UInt16
  noDId : UInt8
  noOId : UInt32
  deriving DecidableEq

structure OrderLine where
  olWId : UInt16
  olDId : UInt8
  olOId : UInt32
  olNumber : UInt8
  olIId : UInt32
  olSupplyWId : UInt16
  olDeliveryD : Timestamp
  olQuantity : UInt8
  olAmount : ℚ
  olDistInfo : String
  deriving DecidableEq

inductive TableId where
  | item | warehouse | stock | district | customer | order | newOrder | orderLine
  deriving DecidableEq

namespace TableId

@[reducible] def Key : TableId → Type
  | item => ItemKey
  | warehouse => WarehouseKey
  | stock => StockKey
  | district => DistrictKey
  | customer => CustomerKey
  | order => OrderKey
  | newOrder => NewOrderKey
  | orderLine => OrderLineKey

@[reducible] def Record : TableId → Type
  | item => Item
  | warehouse => Warehouse
  | stock => Stock
  | district => District
  | customer => Customer
  | order => Order
  | newOrder => NewOrder
  | orderLine => OrderLine

instance : (tb : TableId) → DecidableEq tb.Key
  | item => inferInstanceAs (DecidableEq ItemKey)
  | warehouse => inferInstanceAs (DecidableEq WarehouseKey)
  | stock => inferInstanceAs (DecidableEq StockKey)
  | district => inferInstanceAs (DecidableEq DistrictKey)
  | customer => inferInstanceAs (DecidableEq CustomerKey)
  | order => inferInstanceAs (DecidableEq OrderKey)
  | newOrder => inferInstanceAs (DecidableEq NewOrderKey)
  | orderLine => inferInstanceAs (DecidableEq OrderLineKey)

/-- `create_key` of a record. -/
@[reducible] def createKey : (tb : TableId) → tb.Record → tb.Key
  | item, i => ⟨i.iId⟩
  | warehouse, w => ⟨w.wId⟩
  | stock, s => ⟨s.sWId, s.sIId⟩
  | district, d => ⟨d.dWId, d.dId⟩
  | customer, c => ⟨c.cWId, c.cDId, c.cId⟩
  | order, o => ⟨o.oWId, o.oDId, o.oId⟩
  | newOrder, no => ⟨no.noWId, no.noDId, no.noOId⟩
  | orderLine, ol => ⟨ol.olWId, ol.olDId, ol.olOId, ol.olNumber⟩

end TableId

/-- What a database holds. The history has no key, and grows only. -/
structure Store where
  tables : (tb : TableId) → Table tb.createKey
  history : List History

namespace Store

def put (s : Store) (tb : TableId) (r : tb.Record) : Store :=
  { s with tables := Function.update s.tables tb ((s.tables tb).put r) }

def erase (s : Store) (tb : TableId) (k : tb.Key) : Store :=
  { s with tables := Function.update s.tables tb ((s.tables tb).erase k) }

variable {s : Store} {tb tb' : TableId}

@[simp] theorem put_self (s : Store) (r : tb.Record) :
    (s.put tb r).tables tb = (s.tables tb).put r :=
  Function.update_self _ _ _

theorem put_other (s : Store) (r : tb.Record) (h : tb' ≠ tb) :
    (s.put tb r).tables tb' = s.tables tb' :=
  Function.update_of_ne h _ _

@[simp] theorem erase_self (s : Store) (k : tb.Key) :
    (s.erase tb k).tables tb = (s.tables tb).erase k :=
  Function.update_self _ _ _

theorem erase_other (s : Store) (k : tb.Key) (h : tb' ≠ tb) :
    (s.erase tb k).tables tb' = s.tables tb' :=
  Function.update_of_ne h _ _

end Store
end Mvdcc.Tpcc
