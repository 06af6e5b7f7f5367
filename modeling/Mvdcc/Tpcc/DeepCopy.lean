import Mathlib.Logic.Function.Basic
import Mvdcc.Tpcc.RecordLayout

namespace Mvdcc.Tpcc
open Library

/-- `copy_cstr`: the loop over a buffer and an array of its size. The last place
of the buffer is left for a NUL. -/
def copyCstr : List UInt8 → List UInt8 → List UInt8
  | [], _ => []
  | [_], _ => [0]
  | o :: o' :: out, [] => o :: o' :: out -- the array is not shorter
  | _ :: o :: out, c :: inp => if c = 0 then 0 :: o :: out else c :: copyCstr (o :: out) inp

theorem length_copyCstr (out inp : List UInt8) : (copyCstr out inp).length = out.length := by
  fun_induction copyCstr out inp with
  | case1 => rfl
  | case2 => rfl
  | case3 => rfl
  | case4 => rfl
  | case5 _ o out c inp hc ih => rw [List.length_cons, ih]; rfl

/-- A string that ends in an array of the same size is copied whole. -/
theorem read_copyCstr {out inp : List UInt8} (hl : out.length = inp.length)
    (h : CString.Terminated inp) : CString.read (copyCstr out inp) = CString.read inp := by
  fun_induction copyCstr out inp with
  | case1 inp =>
    obtain rfl : inp = [] := List.length_eq_zero_iff.mp hl.symm
    rfl
  | case2 _ inp =>
    obtain ⟨c, rfl⟩ := List.length_eq_one_iff.mp hl.symm
    obtain rfl : 0 = c := List.mem_singleton.mp h
    rfl
  | case3 => cases hl
  | case4 => rfl
  | case5 _ o out c inp hc ih =>
    have hrest : CString.Terminated inp := by
      rcases List.mem_cons.mp h with h | h
      · exact absurd h.symm hc
      · exact h
    rw [CString.read_cons hc, CString.read_cons hc, ih (Nat.succ.inj hl) hrest]

end Mvdcc.Tpcc

namespace Mvdcc.Library.CharArray
variable {n : Nat}

/-- `copy_cstr(out, in, sizeof(out))`. -/
def copyCstr (out inp : CharArray n) : CharArray n :=
  ⟨Tpcc.copyCstr out.bytes inp.bytes, (Tpcc.length_copyCstr _ _).trans out.length_eq⟩

theorem read_copyCstr {out inp : CharArray n} (h : inp.Terminated) :
    (out.copyCstr inp).read = inp.read :=
  Tpcc.read_copyCstr (out.length_eq.trans inp.length_eq.symm) h

end Mvdcc.Library.CharArray

namespace Mvdcc.Tpcc.RecordLayout
open Library

/-- Two objects, or a single one: the assignments if the source is another object. -/
def copyObject (assign : R → R → R) (this src : Nat) (objects : Nat → R) : Nat → R :=
  if this ≠ src then Function.update objects this (assign (objects this) (objects src)) else objects

/-!
For each record: what is read of it, that its strings end, and its copy. The
addresses of two objects are two objects.
-/

namespace Item

def read (i : Item CharArray) : Item Plain where
  iId := i.iId
  iImId := i.iImId
  iPrice := i.iPrice
  iName := i.iName.read
  iData := i.iData.read

def Terminated (i : Item CharArray) : Prop := i.iName.Terminated ∧ i.iData.Terminated

def assign (dst src : Item CharArray) : Item CharArray where
  iId := src.iId
  iImId := src.iImId
  iPrice := src.iPrice
  iName := dst.iName.copyCstr src.iName
  iData := dst.iData.copyCstr src.iData

def deepCopyFrom := copyObject assign

theorem read_assign {dst src : Item CharArray} (h : src.Terminated) :
    (assign dst src).read = src.read := by
  obtain ⟨h₁, h₂⟩ := h
  simp only [assign, read, CharArray.read_copyCstr h₁, CharArray.read_copyCstr h₂]

end Item

namespace Address

def read (a : Address CharArray) : Address Plain where
  street1 := a.street1.read
  street2 := a.street2.read
  city := a.city.read
  state := a.state.read
  zip := a.zip.read

def Terminated (a : Address CharArray) : Prop :=
  a.street1.Terminated ∧ a.street2.Terminated ∧ a.city.Terminated ∧ a.state.Terminated ∧
  a.zip.Terminated

def assign (dst src : Address CharArray) : Address CharArray where
  street1 := dst.street1.copyCstr src.street1
  street2 := dst.street2.copyCstr src.street2
  city := dst.city.copyCstr src.city
  state := dst.state.copyCstr src.state
  zip := dst.zip.copyCstr src.zip

theorem read_assign {dst src : Address CharArray} (h : src.Terminated) :
    (assign dst src).read = src.read := by
  obtain ⟨h₁, h₂, h₃, h₄, h₅⟩ := h
  simp only [assign, read, CharArray.read_copyCstr h₁, CharArray.read_copyCstr h₂,
    CharArray.read_copyCstr h₃, CharArray.read_copyCstr h₄, CharArray.read_copyCstr h₅]

end Address

namespace Warehouse

def read (w : Warehouse CharArray) : Warehouse Plain where
  wId := w.wId
  wTax := w.wTax
  wYtd := w.wYtd
  wName := w.wName.read
  wAddress := w.wAddress.read

def Terminated (w : Warehouse CharArray) : Prop := w.wName.Terminated ∧ w.wAddress.Terminated

def assign (dst src : Warehouse CharArray) : Warehouse CharArray where
  wId := src.wId
  wTax := src.wTax
  wYtd := src.wYtd
  wName := dst.wName.copyCstr src.wName
  wAddress := Address.assign dst.wAddress src.wAddress

def deepCopyFrom := copyObject assign

theorem read_assign {dst src : Warehouse CharArray} (h : src.Terminated) :
    (assign dst src).read = src.read := by
  obtain ⟨h₁, h₂⟩ := h
  simp only [assign, read, CharArray.read_copyCstr h₁, Address.read_assign h₂]

end Warehouse

namespace District

def read (d : District CharArray) : District Plain where
  dWId := d.dWId
  dId := d.dId
  dNextOId := d.dNextOId
  dTax := d.dTax
  dYtd := d.dYtd
  dName := d.dName.read
  dAddress := d.dAddress.read

def Terminated (d : District CharArray) : Prop := d.dName.Terminated ∧ d.dAddress.Terminated

def assign (dst src : District CharArray) : District CharArray where
  dId := src.dId
  dWId := src.dWId
  dNextOId := src.dNextOId
  dTax := src.dTax
  dYtd := src.dYtd
  dName := dst.dName.copyCstr src.dName
  dAddress := Address.assign dst.dAddress src.dAddress

def deepCopyFrom := copyObject assign

theorem read_assign {dst src : District CharArray} (h : src.Terminated) :
    (assign dst src).read = src.read := by
  obtain ⟨h₁, h₂⟩ := h
  simp only [assign, read, CharArray.read_copyCstr h₁, Address.read_assign h₂]

end District

namespace Customer

def read (c : Customer CharArray) : Customer Plain where
  cWId := c.cWId
  cDId := c.cDId
  cId := c.cId
  cPaymentCnt := c.cPaymentCnt
  cDeliveryCnt := c.cDeliveryCnt
  cSince := c.cSince
  cCreditLim := c.cCreditLim
  cDiscount := c.cDiscount
  cBalance := c.cBalance
  cYtdPayment := c.cYtdPayment
  cFirst := c.cFirst.read
  cMiddle := c.cMiddle.read
  cLast := c.cLast.read
  cPhone := c.cPhone.read
  cCredit := c.cCredit.read
  cData := c.cData.read
  cAddress := c.cAddress.read

def Terminated (c : Customer CharArray) : Prop :=
  c.cFirst.Terminated ∧ c.cMiddle.Terminated ∧ c.cLast.Terminated ∧ c.cPhone.Terminated ∧
  c.cCredit.Terminated ∧ c.cData.Terminated ∧ c.cAddress.Terminated

def assign (dst src : Customer CharArray) : Customer CharArray where
  cId := src.cId
  cDId := src.cDId
  cWId := src.cWId
  cPaymentCnt := src.cPaymentCnt
  cDeliveryCnt := src.cDeliveryCnt
  cSince := src.cSince
  cCreditLim := src.cCreditLim
  cDiscount := src.cDiscount
  cBalance := src.cBalance
  cYtdPayment := src.cYtdPayment
  cFirst := dst.cFirst.copyCstr src.cFirst
  cMiddle := dst.cMiddle.copyCstr src.cMiddle
  cLast := dst.cLast.copyCstr src.cLast
  cPhone := dst.cPhone.copyCstr src.cPhone
  cCredit := dst.cCredit.copyCstr src.cCredit
  cData := dst.cData.copyCstr src.cData
  cAddress := Address.assign dst.cAddress src.cAddress

def deepCopyFrom := copyObject assign

theorem read_assign {dst src : Customer CharArray} (h : src.Terminated) :
    (assign dst src).read = src.read := by
  obtain ⟨h₁, h₂, h₃, h₄, h₅, h₆, h₇⟩ := h
  simp only [assign, read, CharArray.read_copyCstr h₁, CharArray.read_copyCstr h₂,
    CharArray.read_copyCstr h₃, CharArray.read_copyCstr h₄, CharArray.read_copyCstr h₅,
    CharArray.read_copyCstr h₆, Address.read_assign h₇]

end Customer

namespace History

def read (h : History CharArray) : History Plain where
  hCWId := h.hCWId
  hCDId := h.hCDId
  hCId := h.hCId
  hWId := h.hWId
  hDId := h.hDId
  hDate := h.hDate
  hAmount := h.hAmount
  hData := h.hData.read

def Terminated (h : History CharArray) : Prop := h.hData.Terminated

def assign (dst src : History CharArray) : History CharArray where
  hCId := src.hCId
  hCDId := src.hCDId
  hCWId := src.hCWId
  hDId := src.hDId
  hWId := src.hWId
  hDate := src.hDate
  hAmount := src.hAmount
  hData := dst.hData.copyCstr src.hData

def deepCopyFrom := copyObject assign

theorem read_assign {dst src : History CharArray} (h : src.Terminated) :
    (assign dst src).read = src.read := by
  simp only [assign, read, CharArray.read_copyCstr h]

end History

namespace OrderLine

def read (ol : OrderLine CharArray) : OrderLine Plain where
  olWId := ol.olWId
  olDId := ol.olDId
  olOId := ol.olOId
  olNumber := ol.olNumber
  olIId := ol.olIId
  olSupplyWId := ol.olSupplyWId
  olDeliveryD := ol.olDeliveryD
  olQuantity := ol.olQuantity
  olAmount := ol.olAmount
  olDistInfo := ol.olDistInfo.read

def Terminated (ol : OrderLine CharArray) : Prop := ol.olDistInfo.Terminated

def assign (dst src : OrderLine CharArray) : OrderLine CharArray where
  olOId := src.olOId
  olDId := src.olDId
  olWId := src.olWId
  olNumber := src.olNumber
  olIId := src.olIId
  olSupplyWId := src.olSupplyWId
  olDeliveryD := src.olDeliveryD
  olQuantity := src.olQuantity
  olAmount := src.olAmount
  olDistInfo := dst.olDistInfo.copyCstr src.olDistInfo

def deepCopyFrom := copyObject assign

theorem read_assign {dst src : OrderLine CharArray} (h : src.Terminated) :
    (assign dst src).read = src.read := by
  simp only [assign, read, CharArray.read_copyCstr h]

end OrderLine

def Order.assign (_ src : Order) : Order where
  oId := src.oId
  oDId := src.oDId
  oWId := src.oWId
  oCId := src.oCId
  oCarrierId := src.oCarrierId
  oOlCnt := src.oOlCnt
  oAllLocal := src.oAllLocal
  oEntryD := src.oEntryD

def Order.deepCopyFrom := copyObject Order.assign

def NewOrder.assign (_ src : NewOrder) : NewOrder where
  noOId := src.noOId
  noDId := src.noDId
  noWId := src.noWId

def NewOrder.deepCopyFrom := copyObject NewOrder.assign

namespace Stock

def dist (s : Stock (CharArray 250) CharArray) (i : Fin 10) : List UInt8 :=
  (s.sDist.bytes.drop (25 * i)).take 25

def read (s : Stock (CharArray 250) CharArray) : Stock (Fin 10 → List UInt8) Plain where
  sWId := s.sWId
  sIId := s.sIId
  sQuantity := s.sQuantity
  sYtd := s.sYtd
  sOrderCnt := s.sOrderCnt
  sRemoteCnt := s.sRemoteCnt
  sDist i := CString.read (s.dist i)
  sData := s.sData.read

def Terminated (s : Stock (CharArray 250) CharArray) : Prop :=
  (∀ i, CString.Terminated (s.dist i)) ∧ s.sData.Terminated

/-- `sizeof(10 * (Stock::DIST + 1))`: the operand is an `int`. -/
def sizeofDist : Nat := 4

def assign (dst src : Stock (CharArray 250) CharArray) : Stock (CharArray 250) CharArray where
  sIId := src.sIId
  sWId := src.sWId
  sQuantity := src.sQuantity
  sYtd := src.sYtd
  sOrderCnt := src.sOrderCnt
  sRemoteCnt := src.sRemoteCnt
  sDist := dst.sDist.memcpy sizeofDist src.sDist
  sData := dst.sData.copyCstr src.sData

def deepCopyFrom := copyObject assign

variable {dst src : Stock (CharArray 250) CharArray}

theorem length_take_dist (s : Stock (CharArray 250) CharArray) :
    (s.sDist.bytes.take 4).length = 4 := by
  rw [List.length_take, s.sDist.length_eq]
  rfl

/-- The first row gets four characters. -/
theorem dist_assign_zero : (assign dst src).dist 0 = CString.memcpy 4 (dst.dist 0) (src.dist 0) := by
  change (src.sDist.bytes.take 4 ++ dst.sDist.bytes.drop 4).take 25 =
    (src.sDist.bytes.take 25).take 4 ++ (dst.sDist.bytes.take 25).drop 4
  rw [List.take_append, length_take_dist, List.take_take, List.take_take, List.drop_take]
  rfl

/-- The other rows get none. -/
theorem dist_assign_of_ne {i : Fin 10} (hi : i ≠ 0) : (assign dst src).dist i = dst.dist i := by
  have hpos : 4 ≤ 25 * (i : Nat) := by
    have hi : (i : Nat) ≠ 0 := fun h => hi (Fin.ext h)
    omega
  change ((src.sDist.bytes.take 4 ++ dst.sDist.bytes.drop 4).drop (25 * i)).take 25 =
    (dst.sDist.bytes.drop (25 * i)).take 25
  rw [List.drop_append, length_take_dist,
    List.drop_eq_nil_of_le ((length_take_dist src).le.trans hpos), List.nil_append,
    List.drop_drop, Nat.add_sub_of_le hpos]

/-- What a destination must hold already, for the copy to be whole. -/
structure Held (dst src : Stock (CharArray 250) CharArray) : Prop where
  others : ∀ i, i ≠ 0 → CString.read (dst.dist i) = CString.read (src.dist i)
  first : CString.Terminated ((src.dist 0).take 4) ∨
    CString.read ((dst.dist 0).drop 4) = CString.read ((src.dist 0).drop 4)

theorem read_assign_iff (h : src.Terminated) : (assign dst src).read = src.read ↔ Held dst src := by
  have hdata : (dst.sData.copyCstr src.sData).read = src.sData.read := CharArray.read_copyCstr h.2
  have hrows : (assign dst src).read = src.read ↔
      ∀ i, CString.read ((assign dst src).dist i) = CString.read (src.dist i) := by
    constructor
    · intro heq i
      exact congrFun (congrArg Stock.sDist heq) i
    · intro hall
      rw [read, read, funext hall]
      simp only [assign, hdata]
  rw [hrows]
  constructor
  · intro hall
    refine ⟨fun i hi => by rw [← dist_assign_of_ne hi, hall i], CString.read_memcpy_iff.mp ?_⟩
    rw [← dist_assign_zero, hall 0]
  · rintro ⟨hothers, hfirst⟩ i
    by_cases hi : i = 0
    · rw [hi, dist_assign_zero]
      exact CString.read_memcpy_iff.mpr hfirst
    · rw [dist_assign_of_ne hi, hothers i hi]

end Stock

/-- The copy reads as the source did, and so does the source. -/
structure Copied (read : R → S) (this src : Nat) (before after : Nat → R) : Prop where
  copy : read (after this) = read (before src)
  source : after src = before src

theorem copied_iff {read : R → S} {assign : R → R → R} {this src : Nat} {objects : Nat → R} :
    Copied read this src objects (copyObject assign this src objects) ↔
      this = src ∨ read (assign (objects this) (objects src)) = read (objects src) := by
  unfold copyObject
  by_cases hsame : this = src
  · rw [if_neg (not_not_intro hsame)]
    exact ⟨fun _ => Or.inl hsame, fun _ => ⟨by rw [hsame], rfl⟩⟩
  · rw [if_pos hsame, or_iff_right hsame]
    constructor
    · rintro ⟨hcopy, -⟩
      rwa [Function.update_self] at hcopy
    · intro hcopy
      exact ⟨by rwa [Function.update_self], Function.update_of_ne (Ne.symm hsame) _ _⟩

inductive RecordId where
  | item | warehouse | stock | district | customer | history | order | newOrder | orderLine

namespace RecordId

@[reducible] def Object : RecordId → Type
  | item => Item CharArray
  | warehouse => Warehouse CharArray
  | stock => Stock (CharArray 250) CharArray
  | district => District CharArray
  | customer => Customer CharArray
  | history => History CharArray
  | order => Order
  | newOrder => NewOrder
  | orderLine => OrderLine CharArray

@[reducible] def Reading : RecordId → Type
  | item => Item Plain
  | warehouse => Warehouse Plain
  | stock => Stock (Fin 10 → List UInt8) Plain
  | district => District Plain
  | customer => Customer Plain
  | history => History Plain
  | order => Order
  | newOrder => NewOrder
  | orderLine => OrderLine Plain

def read : (r : RecordId) → r.Object → r.Reading
  | item => Item.read
  | warehouse => Warehouse.read
  | stock => Stock.read
  | district => District.read
  | customer => Customer.read
  | history => History.read
  | order => id
  | newOrder => id
  | orderLine => OrderLine.read

def Terminated : (r : RecordId) → r.Object → Prop
  | item => Item.Terminated
  | warehouse => Warehouse.Terminated
  | stock => Stock.Terminated
  | district => District.Terminated
  | customer => Customer.Terminated
  | history => History.Terminated
  | order => fun _ => True
  | newOrder => fun _ => True
  | orderLine => OrderLine.Terminated

def deepCopyFrom : (r : RecordId) → Nat → Nat → (Nat → r.Object) → Nat → r.Object
  | item => Item.deepCopyFrom
  | warehouse => Warehouse.deepCopyFrom
  | stock => Stock.deepCopyFrom
  | district => District.deepCopyFrom
  | customer => Customer.deepCopyFrom
  | history => History.deepCopyFrom
  | order => Order.deepCopyFrom
  | newOrder => NewOrder.deepCopyFrom
  | orderLine => OrderLine.deepCopyFrom

/-- Of the stock alone a destination must hold a part already. -/
def Held : (r : RecordId) → r.Object → r.Object → Prop
  | stock => Stock.Held
  | _ => fun _ _ => True

end RecordId

theorem copied_of_read_assign {read : R → S} {assign : R → R → R} {this src : Nat}
    {objects : Nat → R} (h : read (assign (objects this) (objects src)) = read (objects src)) :
    Copied read this src objects (copyObject assign this src objects) ↔ this = src ∨ True :=
  copied_iff.trans (or_congr_right (iff_of_true h trivial))

/-- Every record is copied whole, whatever the destination holds and whether or not it is the
source, but the stock: its first district's text gets four characters, the other nine none. -/
theorem deep_copies_whole (r : RecordId) (this src : Nat) (objects : Nat → r.Object)
    (h : r.Terminated (objects src)) :
    Copied r.read this src objects (r.deepCopyFrom this src objects) ↔
      this = src ∨ r.Held (objects this) (objects src) := by
  cases r with
  | item => exact copied_of_read_assign (Item.read_assign h)
  | warehouse => exact copied_of_read_assign (Warehouse.read_assign h)
  | stock => exact copied_iff.trans (or_congr_right (Stock.read_assign_iff h))
  | district => exact copied_of_read_assign (District.read_assign h)
  | customer => exact copied_of_read_assign (Customer.read_assign h)
  | history => exact copied_of_read_assign (History.read_assign h)
  | order => exact copied_of_read_assign (by rfl)
  | newOrder => exact copied_of_read_assign (by rfl)
  | orderLine => exact copied_of_read_assign (OrderLine.read_assign h)

def Stock.filled (c : UInt8) : Stock (CharArray 250) CharArray where
  sWId := 1
  sIId := 1
  sQuantity := 10
  sYtd := 0
  sOrderCnt := 0
  sRemoteCnt := 0
  sDist := ⟨(List.replicate 10 (List.replicate 24 c ++ [0])).flatten, by
    rw [List.length_flatten, List.map_replicate, List.sum_replicate, List.length_append,
      List.length_replicate]
    rfl⟩
  sData := ⟨List.replicate 50 c ++ [0], rfl⟩

/-- Two stocks with the same district texts, and nothing else in common. -/
def sameTexts (a : Nat) : Stock (CharArray 250) CharArray :=
  if a = 0 then
    { Stock.filled 65 with
      sWId := 2
      sIId := 7
      sQuantity := 91
      sYtd := 5
      sOrderCnt := 3
      sRemoteCnt := 1
      sData := (Stock.filled 66).sData }
  else Stock.filled 65

/-- The other fields are copied whole, onto whatever they were. -/
theorem deep_copies_whole_same_texts :
    (sameTexts 0).sQuantity ≠ (sameTexts 1).sQuantity ∧
    (sameTexts 0).sData.read ≠ (sameTexts 1).sData.read ∧
    Copied Stock.read 0 1 sameTexts (Stock.deepCopyFrom 0 1 sameTexts) :=
  ⟨by decide, by decide +kernel, (deep_copies_whole .stock 0 1 sameTexts
    ⟨by decide +kernel, by decide +kernel⟩).mpr (Or.inr ⟨fun _ _ => rfl, Or.inr rfl⟩)⟩

/-- A destination of one letter at address 0, and sources of another. -/
def filledStocks (a : Nat) : Stock (CharArray 250) CharArray := .filled (if a = 0 then 66 else 65)

/-- The second district's text stays what it was, and so does most of the first one's. -/
theorem stock_keeps_old_texts :
    (filledStocks 1).Terminated ∧
    ¬ Copied Stock.read 0 1 filledStocks (Stock.deepCopyFrom 0 1 filledStocks) ∧
    CString.read ((Stock.deepCopyFrom 0 1 filledStocks 0).dist 0) =
      List.replicate 4 65 ++ List.replicate 20 66 := by
  refine ⟨⟨by decide +kernel, by decide +kernel⟩, fun h => ?_, by decide +kernel⟩
  have hrow : CString.read ((Stock.filled 66).dist 1) = CString.read ((Stock.filled 65).dist 1) :=
    congrFun (congrArg Stock.sDist h.copy) 1
  exact absurd hrow (by decide +kernel)

end Mvdcc.Tpcc.RecordLayout
