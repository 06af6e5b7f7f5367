import Mathlib.Tactic.Linarith
import Mvdcc.Tpcc.Consistency

namespace Mvdcc.Tpcc
open Library

/-! What the tables say about each other, whatever order the profiles have run in. -/

def OrderLineKey.order (k : OrderLineKey) : OrderKey := ⟨k.wId, k.dId, k.oId⟩

def OrderLine.order (ol : OrderLine) : OrderKey := ⟨ol.olWId, ol.olDId, ol.olOId⟩

def OrderLine.stockKey (ol : OrderLine) : StockKey := ⟨ol.olSupplyWId, ol.olIId⟩

def Order.customer (o : Order) : CustomerKey := ⟨o.oWId, o.oDId, o.oCId⟩

def History.customer (h : History) : CustomerKey := ⟨h.hCWId, h.hCDId, h.hCId⟩

namespace Store

/-- A count over the lines that a stock row supplies. -/
noncomputable def supplied (s : Store) (k : StockKey) (f : OrderLine → Nat) : Nat :=
  (s.tables .orderLine).total (fun ol => if ol.stockKey = k then f ol else 0)

/-- One for a line of an order that is not all local. -/
def remote (s : Store) (ol : OrderLine) : Nat :=
  if ((s.tables .order).find ol.order).any (fun o => o.oAllLocal = 0) then 1 else 0

/-- A line has been delivered to a customer. -/
def deliveredTo (s : Store) (k : CustomerKey) (ol : OrderLine) : Bool :=
  ((s.tables .order).find ol.order).any (fun o => o.customer = k ∧ o.oCarrierId ≠ 0)

/-- What a customer owes for the lines delivered so far. -/
noncomputable def delivered (s : Store) (k : CustomerKey) : ℚ :=
  (s.tables .orderLine).total (fun ol => if s.deliveredTo k ol then ol.olAmount else 0)

noncomputable def deliveries (s : Store) (k : CustomerKey) : Nat :=
  (s.tables .order).total (fun o => if o.customer = k ∧ o.oCarrierId ≠ 0 then 1 else 0)

def payments (s : Store) (p : History → Bool) : List History := s.history.filter p

def paid (s : Store) (p : History → Bool) : ℚ := ((s.payments p).map History.hAmount).sum

end Store

/-- The orders, their new-order rows and their lines fit together, where an order is expected to
have so many lines. Its lines are numbered from one, and dated when a carrier has them. -/
structure Filed (expected : Order → Nat) (s : Store) : Prop where
  pending : ∀ w d i, s.HasNewOrder w d i ↔
    ∃ o, (s.tables .order).find ⟨w, d, i⟩ = some o ∧ o.oCarrierId = 0
  lines : ∀ k, (s.tables .orderLine).find k ≠ none ↔ ∃ o, (s.tables .order).find k.order = some o ∧
    1 ≤ k.olNumber.toNat ∧ k.olNumber.toNat ≤ expected o
  dates : ∀ k ol o, (s.tables .orderLine).find k = some ol →
    (s.tables .order).find k.order = some o → (ol.olDeliveryD = 0 ↔ o.oCarrierId = 0)
  ids : ∀ k o, (s.tables .order).find k = some o → k.oId.toNat < 2 ^ 32 - 1

/-- Every order has as many lines as it says. -/
def OrderBooks (s : Store) : Prop := Filed (fun o => o.oOlCnt.toNat) s

/-- What the counters of the stock rows stood at when no line had been supplied. -/
structure StockOpening where
  ytd : StockKey → UInt32
  orderCnt : StockKey → UInt16
  remoteCnt : StockKey → UInt16

structure StockCounted (opening : StockOpening) (s : Store) (k : StockKey) (st : Stock) : Prop where
  ytd : st.sYtd = opening.ytd k + UInt32.ofNat (s.supplied k (fun ol => ol.olQuantity.toNat))
  orderCnt : st.sOrderCnt = opening.orderCnt k + UInt16.ofNat (s.supplied k (fun _ => 1))
  remoteCnt : st.sRemoteCnt = opening.remoteCnt k + UInt16.ofNat (s.supplied k s.remote)

def StockBooks (opening : StockOpening) (s : Store) : Prop :=
  ∀ k st, (s.tables .stock).find k = some st → StockCounted opening s k st

/-- What the accounts stood at before any payment and any delivery. -/
structure Opening where
  wYtd : WarehouseKey → ℚ
  dYtd : DistrictKey → ℚ
  balance : CustomerKey → ℚ
  ytdPayment : CustomerKey → ℚ
  paymentCnt : CustomerKey → UInt16
  deliveryCnt : CustomerKey → UInt16

structure CustomerCounted (opening : Opening) (s : Store) (k : CustomerKey) (c : Customer) :
    Prop where
  balance : c.cBalance = opening.balance k + s.delivered k - s.paid (fun h => h.customer = k)
  ytdPayment : c.cYtdPayment = opening.ytdPayment k + s.paid (fun h => h.customer = k)
  paymentCnt : c.cPaymentCnt =
    opening.paymentCnt k + UInt16.ofNat (s.payments (fun h => h.customer = k)).length
  deliveryCnt : c.cDeliveryCnt = opening.deliveryCnt k + UInt16.ofNat (s.deliveries k)

structure MoneyBooks (opening : Opening) (s : Store) : Prop where
  warehouses : ∀ k w, (s.tables .warehouse).find k = some w →
    w.wYtd = opening.wYtd k + s.paid (fun h => h.hWId = k.wId)
  districts : ∀ k d, (s.tables .district).find k = some d →
    d.dYtd = opening.dYtd k + s.paid (fun h => h.hWId = k.wId ∧ h.hDId = k.dId)
  customers : ∀ k c, (s.tables .customer).find k = some c → CustomerCounted opening s k c

/-- All books at once, in the middle of an order or between two profiles. -/
structure Books (stock : StockOpening) (money : Opening) (expected : Order → Nat) (s : Store) :
    Prop where
  orders : Filed expected s
  stock : StockBooks stock s
  money : MoneyBooks money s

section Congruence
variable {s s' : Store} {stock : StockOpening} {money : Opening}

/-- The stock books read the stock, the lines and the flags of their orders. -/
theorem StockBooks.congr (h : StockBooks stock s)
    (hst : s'.tables .stock = s.tables .stock)
    (hol : s'.tables .orderLine = s.tables .orderLine)
    (ho : ∀ k ol, (s.tables .orderLine).find k = some ol → s'.remote ol = s.remote ol) :
    StockBooks stock s' := by
  intro k st hfind
  rw [hst] at hfind
  have hcounted := h k st hfind
  have hsame : ∀ f g : OrderLine → Nat,
      (∀ k ol, (s.tables .orderLine).find k = some ol → f ol = g ol) →
      s'.supplied k f = s.supplied k g := by
    intro f g hfg
    unfold Store.supplied
    rw [hol]
    exact Table.total_congr (fun k ol hk => by rw [hfg k ol hk])
  refine ⟨?_, ?_, ?_⟩
  · rw [hsame _ _ (fun _ _ _ => rfl)]
    exact hcounted.ytd
  · rw [hsame _ _ (fun _ _ _ => rfl)]
    exact hcounted.orderCnt
  · rw [hsame _ _ ho]
    exact hcounted.remoteCnt

/-- The account of a customer reads the deliveries to it, and the history. -/
theorem CustomerCounted.congr {k : CustomerKey} {c : Customer} (h : CustomerCounted money s k c)
    (hdelivered : s'.delivered k = s.delivered k) (hdeliveries : s'.deliveries k = s.deliveries k)
    (hh : s'.history = s.history) : CustomerCounted money s' k c := by
  have hpaid : ∀ p, s'.paid p = s.paid p := fun p => by rw [Store.paid, Store.payments, hh]; rfl
  refine ⟨?_, ?_, ?_, ?_⟩
  · rw [hdelivered, hpaid]
    exact h.balance
  · rw [hpaid]
    exact h.ytdPayment
  · rw [Store.payments, hh]
    exact h.paymentCnt
  · rw [hdeliveries]
    exact h.deliveryCnt

theorem Filed.congr {expected expected' : Order → Nat} (h : Filed expected s)
    (he : ∀ k o, (s.tables .order).find k = some o → expected o = expected' o) :
    Filed expected' s := by
  refine { h with lines := fun k => ?_ }
  rw [h.lines k]
  refine exists_congr (fun o => and_congr_right (fun ho => ?_))
  rw [he _ o ho]

end Congruence
end Mvdcc.Tpcc
