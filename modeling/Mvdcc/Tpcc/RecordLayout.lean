import Mvdcc.Library.CString
import Mvdcc.Tpcc.Records

/-!
The records with character arrays in full, as they lie in memory. `Text n` is what
stands for an array of `n` characters: the array itself, or the string that is read from it.
-/

namespace Mvdcc.Tpcc.RecordLayout
open Library

abbrev Plain (_ : Nat) : Type := List UInt8

structure Item (Text : Nat → Type) where
  iId : UInt32
  iImId : UInt32
  iPrice : Float
  iName : Text 25
  iData : Text 51

structure Address (Text : Nat → Type) where
  street1 : Text 21
  street2 : Text 21
  city : Text 21
  state : Text 3
  zip : Text 10

structure Warehouse (Text : Nat → Type) where
  wId : UInt16
  wTax : Float
  wYtd : Float
  wName : Text 11
  wAddress : Address Text

/-- `s_dist` is one array of ten times 25 characters in memory, and ten strings to a reader. -/
structure Stock (Dist : Type) (Text : Nat → Type) where
  sWId : UInt16
  sIId : UInt32
  sQuantity : Int16
  sYtd : UInt32
  sOrderCnt : UInt16
  sRemoteCnt : UInt16
  sDist : Dist
  sData : Text 51

structure District (Text : Nat → Type) where
  dWId : UInt16
  dId : UInt8
  dNextOId : UInt32
  dTax : Float
  dYtd : Float
  dName : Text 11
  dAddress : Address Text

structure Customer (Text : Nat → Type) where
  cWId : UInt16
  cDId : UInt8
  cId : UInt32
  cPaymentCnt : UInt16
  cDeliveryCnt : UInt16
  cSince : Timestamp
  cCreditLim : Float
  cDiscount : Float
  cBalance : Float
  cYtdPayment : Float
  cFirst : Text 17
  cMiddle : Text 3
  cLast : Text 17
  cPhone : Text 17
  cCredit : Text 3
  cData : Text 501
  cAddress : Address Text

structure History (Text : Nat → Type) where
  hCWId : UInt16
  hCDId : UInt8
  hCId : UInt32
  hWId : UInt16
  hDId : UInt8
  hDate : Timestamp
  hAmount : Float
  hData : Text 25

structure OrderLine (Text : Nat → Type) where
  olWId : UInt16
  olDId : UInt8
  olOId : UInt32
  olNumber : UInt8
  olIId : UInt32
  olSupplyWId : UInt16
  olDeliveryD : Timestamp
  olQuantity : UInt8
  olAmount : Float
  olDistInfo : Text 25

end Mvdcc.Tpcc.RecordLayout
