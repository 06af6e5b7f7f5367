import Mvdcc.Tpcc.Books

namespace Mvdcc.Tpcc
open Library

/-- While an order is placed, so many of its lines are there. -/
def filling (k : OrderKey) (n : Nat) (o : Order) : Nat :=
  if TableId.createKey .order o = k then n else o.oOlCnt.toNat

section Orders
variable {s s' : Store} {stock : StockOpening} {money : Opening} {expected : Order → Nat}
variable {o : Order} {ol : OrderLine} {k : OrderLineKey}

theorem order_of_find (h : (s.tables .orderLine).find k = some ol) : ol.order = k.order := by
  rw [← (s.tables .orderLine).keyed k ol h]
  rfl

/-- A line belongs to an order that is there. -/
theorem Filed.order (h : Filed expected s) (hol : (s.tables .orderLine).find k = some ol) :
    ∃ o, (s.tables .order).find ol.order = some o := by
  obtain ⟨o, ho, _⟩ := (h.lines k).mp (by rw [hol]; exact Option.some_ne_none ol)
  exact ⟨o, order_of_find hol ▸ ho⟩

/-- What the books read of a line's order does not change when another order is added. -/
theorem find_order_put (h : Filed expected s)
    (hnew : (s.tables .order).find (TableId.createKey .order o) = none)
    (ho : s'.tables .order = (s.tables .order).put o)
    (hol : (s.tables .orderLine).find k = some ol) :
    (s'.tables .order).find ol.order = (s.tables .order).find ol.order := by
  obtain ⟨o', ho'⟩ := h.order hol
  rw [ho, Table.find_put_other]
  rintro heq
  rw [heq, hnew] at ho'
  cases ho'

theorem deliveredTo_congr {k : CustomerKey}
    (h : (s'.tables .order).find ol.order = (s.tables .order).find ol.order) :
    s'.deliveredTo k ol = s.deliveredTo k ol := by
  rw [Store.deliveredTo, h]
  rfl

theorem MoneyBooks.congr (h : MoneyBooks money s)
    (hw : s'.tables .warehouse = s.tables .warehouse)
    (hd : ∀ k d', (s'.tables .district).find k = some d' →
      ∃ d, (s.tables .district).find k = some d ∧ d'.dYtd = d.dYtd)
    (hc : s'.tables .customer = s.tables .customer) (hh : s'.history = s.history)
    (hdelivered : ∀ k, s'.delivered k = s.delivered k)
    (hdeliveries : ∀ k, s'.deliveries k = s.deliveries k) : MoneyBooks money s' := by
  have hpaid : ∀ p, s'.paid p = s.paid p := fun p => by rw [Store.paid, Store.payments, hh]; rfl
  refine ⟨?_, ?_, ?_⟩
  · intro k w hfind
    rw [hw] at hfind
    rw [hpaid]
    exact h.warehouses k w hfind
  · intro k d' hfind
    obtain ⟨d, hd, hytd⟩ := hd k d' hfind
    rw [hpaid, hytd]
    exact h.districts k d hd
  · intro k c hfind
    rw [hc] at hfind
    exact (h.customers k c hfind).congr (hdelivered k) (hdeliveries k) hh

end Orders

section Placing
variable {s s' : Store} {stock : StockOpening} {money : Opening} {d : District} {o : Order}

/-- An order is filed, without its lines. -/
theorem Filed.place {no : NewOrder} (h : OrderBooks s)
    (hno : no = ⟨o.oWId, o.oDId, o.oId⟩) (hcarrier : o.oCarrierId = 0)
    (hid : o.oId.toNat < 2 ^ 32 - 1)
    (hnew : (s.tables .order).find (TableId.createKey .order o) = none)
    (hneword : s'.tables .newOrder = (s.tables .newOrder).put no)
    (hord : s'.tables .order = (s.tables .order).put o)
    (hol : s'.tables .orderLine = s.tables .orderLine) :
    Filed (filling (TableId.createKey .order o) 0) s' := by
  refine ⟨?_, ?_, ?_, ?_⟩
  · intro w d i
    rw [Store.HasNewOrder, hneword, hord, Table.find_put, Table.find_put, hno]
    simp only [TableId.createKey, NewOrderKey.mk.injEq, OrderKey.mk.injEq]
    split
    · exact iff_of_true (Option.some_ne_none _) ⟨o, rfl, hcarrier⟩
    · exact h.pending w d i
  · intro k
    rw [hol, h.lines k, hord, Table.find_put]
    split
    · rename_i heq
      rw [heq, hnew]
      refine iff_of_false (by simp) ?_
      rintro ⟨o', ho', hlo, hhi⟩
      obtain rfl := Option.some.inj ho'
      rw [filling, if_pos rfl] at hhi
      omega
    · rename_i hne
      refine exists_congr (fun o' => and_congr_right (fun ho' => ?_))
      have hkey := (s.tables .order).keyed _ _ ho'
      rw [filling, if_neg (hkey ▸ hne)]
  · intro k ol o' hfind ho'
    rw [hol] at hfind
    rw [← order_of_find hfind, find_order_put h hnew hord hfind, order_of_find hfind] at ho'
    exact h.dates k ol o' hfind ho'
  · intro k o' ho'
    rw [hord, Table.find_put] at ho'
    split at ho'
    · rename_i heq
      rw [heq]
      exact hid
    · exact h.ids k o' ho'

/-- The head of a new order: the next id of the district, the new-order row and the order. -/
theorem Books.place {no : NewOrder}
    (h : Books stock money (fun o => o.oOlCnt.toNat) s)
    (hd : (s.tables .district).find (TableId.createKey .district d) = some d)
    (hbound : d.dNextOId.toNat < 2 ^ 32 - 1) (hno : no = ⟨o.oWId, o.oDId, o.oId⟩)
    (hid : o.oId = d.dNextOId) (hcarrier : o.oCarrierId = 0)
    (hnew : (s.tables .order).find (TableId.createKey .order o) = none) :
    Books stock money (filling (TableId.createKey .order o) 0)
      (((s.put .district { d with dNextOId := d.dNextOId + 1 }).put .newOrder no).put .order o) := by
  set d' : District := { d with dNextOId := d.dNextOId + 1 }
  set s' := ((s.put .district d').put .newOrder no).put .order o
  have hsame : ∀ tb, tb ≠ .district → tb ≠ .newOrder → tb ≠ .order →
      s'.tables tb = s.tables tb := by
    intro tb hdistrict hneworder horder
    rw [Store.put_other _ _ horder, Store.put_other _ _ hneworder, Store.put_other _ _ hdistrict]
  have hol := hsame .orderLine (by decide) (by decide) (by decide)
  have hneword : s'.tables .newOrder = (s.tables .newOrder).put no := by
    rw [Store.put_other _ _ (by decide), Store.put_self, Store.put_other _ _ (by decide)]
  have hord : s'.tables .order = (s.tables .order).put o := by
    rw [Store.put_self, Store.put_other _ _ (by decide), Store.put_other _ _ (by decide)]
  have hfind : ∀ k ol, (s.tables .orderLine).find k = some ol →
      (s'.tables .order).find ol.order = (s.tables .order).find ol.order :=
    fun _ _ hk => find_order_put h.orders hnew hord hk
  refine ⟨Filed.place h.orders hno hcarrier (hid ▸ hbound) hnew hneword hord hol, ?_, ?_⟩
  · refine h.stock.congr (hsame _ (by decide) (by decide) (by decide)) hol ?_
    intro k ol hk
    rw [Store.remote, hfind k ol hk]
    rfl
  · refine h.money.congr (hsame _ (by decide) (by decide) (by decide)) ?_
      (hsame _ (by decide) (by decide) (by decide)) rfl ?_ ?_
    · intro k e he
      rw [Store.put_other _ _ (by decide), Store.put_other _ _ (by decide), Store.put_self,
        Table.find_put] at he
      split at he
      · rename_i heq
        obtain rfl := Option.some.inj he
        exact ⟨d, heq ▸ hd, rfl⟩
      · exact ⟨e, he, rfl⟩
    · intro k
      rw [Store.delivered, hol]
      refine Table.total_congr (fun k' ol hk => ?_)
      rw [deliveredTo_congr (hfind k' ol hk)]
    · intro k
      rw [Store.deliveries, hord, Table.total_put_new hnew, if_neg (fun hin => hin.2 hcarrier),
        Nat.zero_add]
      rfl

/-- A line of the order that is being placed. -/
structure Fills (o : Order) (n : Nat) (flag : Bool) (ol : OrderLine) : Prop where
  order : ol.order = TableId.createKey .order o
  number : ol.olNumber.toNat = n + 1
  date : ol.olDeliveryD = 0
  carrier : o.oCarrierId = 0
  local_iff : o.oAllLocal = 0 ↔ flag = true

variable {n : Nat} {flag : Bool} {ol : OrderLine} {k₀ : OrderKey}

theorem Filed.fill (h : Filed (filling (TableId.createKey .order o) n) s)
    (ho : (s.tables .order).find (TableId.createKey .order o) = some o)
    (hf : Fills o n flag ol) (hord : s'.tables .order = s.tables .order)
    (hneword : s'.tables .newOrder = s.tables .newOrder)
    (hol : s'.tables .orderLine = (s.tables .orderLine).put ol) :
    Filed (filling (TableId.createKey .order o) (n + 1)) s' := by
  have hnum := hf.number
  have hkey : (TableId.createKey .orderLine ol).order = TableId.createKey .order o := hf.order
  refine ⟨?_, ?_, ?_, ?_⟩
  · intro w d i
    rw [Store.HasNewOrder, hneword, hord]
    exact h.pending w d i
  · intro k
    rw [hol, hord, Table.find_put]
    split
    · rename_i heq
      refine iff_of_true (Option.some_ne_none _) ⟨o, ?_, ?_, ?_⟩
      · rw [heq, hkey, ho]
      · rw [heq]
        change 1 ≤ ol.olNumber.toNat
        omega
      · rw [heq, filling, if_pos rfl]
        exact Nat.le_of_eq hnum
    · rename_i hne
      rw [h.lines k]
      refine exists_congr (fun o' => and_congr_right (fun ho' => ?_))
      unfold filling
      split
      · rename_i hin
        refine and_congr_right (fun _ => ⟨fun hle => Nat.le_succ_of_le hle, fun hle => ?_⟩)
        -- the last number is that of the new line
        by_contra hgt
        refine hne ?_
        have hlast : k.olNumber.toNat = ol.olNumber.toNat := by omega
        have hat := (s.tables .order).keyed _ _ ho'
        rw [hin, ← hkey] at hat
        obtain ⟨w, d, i, m⟩ := k
        simp only [OrderLineKey.order, OrderKey.mk.injEq] at hat
        obtain ⟨rfl, rfl, rfl⟩ := hat
        have hm : m = ol.olNumber := UInt8.toNat_inj.mp hlast
        rw [hm]
      · exact Iff.rfl
  · intro k ol' o' hfind ho'
    rw [hord] at ho'
    rw [hol, Table.find_put] at hfind
    split at hfind
    · rename_i heq
      obtain rfl := Option.some.inj hfind
      rw [heq, hkey, ho] at ho'
      obtain rfl := Option.some.inj ho'
      exact iff_of_true hf.date hf.carrier
    · exact h.dates k ol' o' hfind ho'
  · intro k o' ho'
    rw [hord] at ho'
    exact h.ids k o' ho'

theorem supplied_put (k : StockKey) (f : OrderLine → Nat)
    (hnew : (s.tables .orderLine).find (TableId.createKey .orderLine ol) = none)
    (hol : s'.tables .orderLine = (s.tables .orderLine).put ol) :
    s'.supplied k f = s.supplied k f + if ol.stockKey = k then f ol else 0 := by
  rw [Store.supplied, hol, Table.total_put_new hnew, Nat.add_comm]
  rfl

theorem remote_congr (hord : s'.tables .order = s.tables .order) : s'.remote = s.remote := by
  funext ol
  rw [Store.remote, hord]
  rfl

/-- The stock row counts the line that it supplies. -/
theorem StockBooks.fill {st : Stock} (h : StockBooks stock s)
    (ho : (s.tables .order).find (TableId.createKey .order o) = some o)
    (hf : Fills o n flag ol) (hst : (s.tables .stock).find ol.stockKey = some st)
    (hnew : (s.tables .orderLine).find (TableId.createKey .orderLine ol) = none)
    (hstock : s'.tables .stock =
      (s.tables .stock).put (NewOrderTx.modifyStock st ol.olQuantity flag))
    (hord : s'.tables .order = s.tables .order)
    (hol : s'.tables .orderLine = (s.tables .orderLine).put ol) : StockBooks stock s' := by
  have hkey : TableId.createKey .stock (NewOrderTx.modifyStock st ol.olQuantity flag) =
      ol.stockKey := ((s.tables .stock).keyed _ _ hst : TableId.createKey .stock st = _)
  have hsupplied : ∀ k f, s'.supplied k f = s.supplied k f + if ol.stockKey = k then f ol else 0 :=
    fun k f => supplied_put k f hnew hol
  have hremote : s.remote ol = if flag then 1 else 0 := by
    rw [Store.remote, hf.order, ho]
    have hflag := hf.local_iff
    cases flag <;> simp_all
  intro k st' hfind
  rw [hstock, Table.find_put, hkey] at hfind
  split at hfind
  · rename_i heq
    obtain rfl := Option.some.inj hfind
    have hold := h _ st (heq ▸ hst)
    refine ⟨?_, ?_, ?_⟩
    · rw [hsupplied, if_pos heq.symm, UInt32.ofNat_add, ← UInt32.add_assoc, ← hold.ytd]
      simp [NewOrderTx.modifyStock]
    · rw [hsupplied, if_pos heq.symm, UInt16.ofNat_add, ← UInt16.add_assoc, ← hold.orderCnt]
      rfl
    · rw [remote_congr hord, hsupplied, if_pos heq.symm, UInt16.ofNat_add, ← UInt16.add_assoc,
        ← hold.remoteCnt, hremote]
      cases flag <;> simp [NewOrderTx.modifyStock]
  · rename_i hne
    have hold := h k st' hfind
    refine ⟨?_, ?_, ?_⟩
    · rw [hsupplied, if_neg (Ne.symm hne), Nat.add_zero]
      exact hold.ytd
    · rw [hsupplied, if_neg (Ne.symm hne), Nat.add_zero]
      exact hold.orderCnt
    · rw [remote_congr hord, hsupplied, if_neg (Ne.symm hne), Nat.add_zero]
      exact hold.remoteCnt

/-- One round of the loop over the order lines: a stock row is updated, and a line filed. -/
theorem Books.fill {st : Stock} (h : Books stock money (filling (TableId.createKey .order o) n) s)
    (ho : (s.tables .order).find (TableId.createKey .order o) = some o)
    (hf : Fills o n flag ol) (hst : (s.tables .stock).find ol.stockKey = some st)
    (hnew : (s.tables .orderLine).find (TableId.createKey .orderLine ol) = none) :
    Books stock money (filling (TableId.createKey .order o) (n + 1))
      ((s.put .stock (NewOrderTx.modifyStock st ol.olQuantity flag)).put .orderLine ol) := by
  set s' := (s.put .stock (NewOrderTx.modifyStock st ol.olQuantity flag)).put .orderLine ol
  have hsame : ∀ tb, tb ≠ .stock → tb ≠ .orderLine → s'.tables tb = s.tables tb := by
    intro tb hstock hline
    rw [Store.put_other _ _ hline, Store.put_other _ _ hstock]
  have hstock : s'.tables .stock =
      (s.tables .stock).put (NewOrderTx.modifyStock st ol.olQuantity flag) := by
    rw [Store.put_other _ _ (by decide), Store.put_self]
  have hol : s'.tables .orderLine = (s.tables .orderLine).put ol := by
    rw [Store.put_self, Store.put_other _ _ (by decide)]
  have hord := hsame .order (by decide) (by decide)
  have hundelivered : ∀ k, s.deliveredTo k ol = false := by
    intro k
    rw [Store.deliveredTo, hf.order, ho, Option.any_some, hf.carrier]
    simp
  refine ⟨h.orders.fill ho hf hord (hsame _ (by decide) (by decide)) hol,
    h.stock.fill ho hf hst hnew hstock hord hol, ?_⟩
  refine h.money.congr (hsame _ (by decide) (by decide)) ?_ (hsame _ (by decide) (by decide)) rfl
    ?_ ?_
  · intro k d hd
    rw [hsame _ (by decide) (by decide)] at hd
    exact ⟨d, hd, rfl⟩
  · intro k
    have hcongr : s'.deliveredTo k = s.deliveredTo k :=
      funext (fun ol => deliveredTo_congr (by rw [hord]))
    rw [Store.delivered, hol, Table.total_put_new hnew, hcongr, hundelivered]
    simp [Store.delivered]
  · intro k
    rw [Store.deliveries, hord]
    rfl

end Placing

section Paying
variable {s s' : Store} {stock : StockOpening} {money : Opening} {expected : Order → Nat}

theorem Filed.same (h : Filed expected s) (hord : s'.tables .order = s.tables .order)
    (hneword : s'.tables .newOrder = s.tables .newOrder)
    (hol : s'.tables .orderLine = s.tables .orderLine) : Filed expected s' := by
  refine ⟨?_, ?_, ?_, ?_⟩
  · intro w d i
    rw [Store.HasNewOrder, hneword, hord]
    exact h.pending w d i
  · rw [hord, hol]
    exact h.lines
  · rw [hord, hol]
    exact h.dates
  · rw [hord]
    exact h.ids

/-- A payment is on one more line of the history. -/
theorem payments_append {hist : History} (hh : s'.history = s.history ++ [hist])
    (p : History → Bool) :
    s'.payments p = s.payments p ++ if p hist then [hist] else [] := by
  rw [Store.payments, hh, List.filter_append, List.filter_singleton]
  cases p hist <;> rfl

theorem paid_append {hist : History} (hh : s'.history = s.history ++ [hist])
    (p : History → Bool) :
    s'.paid p = s.paid p + if p hist then hist.hAmount else 0 := by
  rw [Store.paid, payments_append hh, List.map_append, List.sum_append]
  cases p hist <;> simp [Store.paid]

theorem MoneyBooks.pay {w : Warehouse} {d : District} {c : Customer} {hist : History}
    (h : MoneyBooks money s)
    (hw : (s.tables .warehouse).find (TableId.createKey .warehouse w) = some w)
    (hd : (s.tables .district).find (TableId.createKey .district d) = some d)
    (hc : (s.tables .customer).find (TableId.createKey .customer c) = some c)
    (hwid : hist.hWId = w.wId) (hdid : hist.hWId = d.dWId ∧ hist.hDId = d.dId)
    (hcid : hist.customer = TableId.createKey .customer c)
    (hware : s'.tables .warehouse =
      (s.tables .warehouse).put { w with wYtd := w.wYtd + hist.hAmount })
    (hdist : s'.tables .district =
      (s.tables .district).put { d with dYtd := d.dYtd + hist.hAmount })
    (hcust : s'.tables .customer = (s.tables .customer).put
      { c with
        cBalance := c.cBalance - hist.hAmount
        cYtdPayment := c.cYtdPayment + hist.hAmount
        cPaymentCnt := c.cPaymentCnt + 1 })
    (hh : s'.history = s.history ++ [hist])
    (hdelivered : ∀ k, s'.delivered k = s.delivered k)
    (hdeliveries : ∀ k, s'.deliveries k = s.deliveries k) : MoneyBooks money s' := by
  have hpaid := fun p => paid_append hh p
  refine ⟨?_, ?_, ?_⟩
  · intro k w' hfind
    rw [hware, Table.find_put] at hfind
    rw [hpaid]
    split at hfind
    · rename_i heq
      obtain rfl := Option.some.inj hfind
      have hold := h.warehouses _ w hw
      rw [if_pos (by simp [heq, hwid, TableId.createKey])]
      dsimp only
      rw [hold, heq, add_assoc]
    · rename_i hne
      rw [if_neg (fun he => hne ?_), add_zero]
      · exact h.warehouses k w' hfind
      · obtain ⟨wId⟩ := k
        rw [TableId.createKey, ← hwid, of_decide_eq_true he]
  · intro k d' hfind
    rw [hdist, Table.find_put] at hfind
    rw [hpaid]
    split at hfind
    · rename_i heq
      obtain rfl := Option.some.inj hfind
      have hold := h.districts _ d hd
      rw [if_pos (by simp [heq, hdid, TableId.createKey])]
      dsimp only
      rw [hold, heq, add_assoc]
    · rename_i hne
      rw [if_neg (fun he => hne ?_), add_zero]
      · exact h.districts k d' hfind
      · obtain ⟨wId, dId⟩ := k
        obtain ⟨hw', hd'⟩ := of_decide_eq_true he
        rw [TableId.createKey, ← hdid.1, ← hdid.2, hw', hd']
  · intro k c' hfind
    rw [hcust, Table.find_put] at hfind
    split at hfind
    · rename_i heq
      obtain rfl := Option.some.inj hfind
      have hold := h.customers _ c hc
      have hat : decide (hist.customer = k) = true := decide_eq_true (hcid.trans heq.symm)
      have hkey : k = TableId.createKey .customer c := heq
      refine ⟨?_, ?_, ?_, ?_⟩
      · rw [hdelivered, hpaid, hat, if_pos rfl, hkey]
        dsimp only
        rw [hold.balance, sub_sub]
      · rw [hpaid, hat, if_pos rfl, hkey]
        dsimp only
        rw [hold.ytdPayment, add_assoc]
      · rw [payments_append hh, hat, if_pos rfl, hkey, List.length_append, UInt16.ofNat_add,
          ← UInt16.add_assoc, ← hold.paymentCnt]
        rfl
      · rw [hdeliveries, hkey]
        exact hold.deliveryCnt
    · rename_i hne
      have hold := h.customers k c' hfind
      have hat : decide (hist.customer = k) = false :=
        decide_eq_false (fun he => hne (he.symm.trans hcid))
      refine ⟨?_, ?_, ?_, ?_⟩
      · rw [hdelivered, hpaid, hat, if_neg Bool.false_ne_true, add_zero]
        exact hold.balance
      · rw [hpaid, hat, if_neg Bool.false_ne_true, add_zero]
        exact hold.ytdPayment
      · rw [payments_append hh, hat, if_neg Bool.false_ne_true, List.append_nil]
        exact hold.paymentCnt
      · rw [hdeliveries]
        exact hold.deliveryCnt

/-- A payment, in every row that it goes into. -/
theorem Books.pay {w : Warehouse} {d : District} {c : Customer} {hist : History}
    (h : Books stock money expected s)
    (hw : (s.tables .warehouse).find (TableId.createKey .warehouse w) = some w)
    (hd : (s.tables .district).find (TableId.createKey .district d) = some d)
    (hc : (s.tables .customer).find (TableId.createKey .customer c) = some c)
    (hwid : hist.hWId = w.wId) (hdid : hist.hWId = d.dWId ∧ hist.hDId = d.dId)
    (hcid : hist.customer = TableId.createKey .customer c) :
    Books stock money expected
      { ((s.put .warehouse { w with wYtd := w.wYtd + hist.hAmount }).put .district
          { d with dYtd := d.dYtd + hist.hAmount }).put .customer
          { c with
            cBalance := c.cBalance - hist.hAmount
            cYtdPayment := c.cYtdPayment + hist.hAmount
            cPaymentCnt := c.cPaymentCnt + 1 } with
        history := s.history ++ [hist] } := by
  set w' : Warehouse := { w with wYtd := w.wYtd + hist.hAmount }
  set d' : District := { d with dYtd := d.dYtd + hist.hAmount }
  set s' := { ((s.put .warehouse w').put .district d').put .customer
    { c with
      cBalance := c.cBalance - hist.hAmount
      cYtdPayment := c.cYtdPayment + hist.hAmount
      cPaymentCnt := c.cPaymentCnt + 1 } with
    history := s.history ++ [hist] } with hs'
  have hsame : ∀ tb, tb ≠ .warehouse → tb ≠ .district → tb ≠ .customer →
      s'.tables tb = s.tables tb := by
    intro tb hware hdist hcust
    rw [hs']
    dsimp only
    rw [Store.put_other _ _ hcust, Store.put_other _ _ hdist, Store.put_other _ _ hware]
  have hol := hsame .orderLine (by decide) (by decide) (by decide)
  have hord := hsame .order (by decide) (by decide) (by decide)
  refine ⟨h.orders.same hord (hsame _ (by decide) (by decide) (by decide)) hol,
    h.stock.congr (hsame _ (by decide) (by decide) (by decide)) hol
      (fun _ _ _ => by rw [remote_congr hord]),
    h.money.pay hw hd hc hwid hdid hcid ?_ ?_ ?_ rfl ?_ ?_⟩
  · rw [hs']
    dsimp only
    rw [Store.put_other _ _ (by decide), Store.put_other _ _ (by decide), Store.put_self]
  · rw [hs']
    dsimp only
    rw [Store.put_other _ _ (by decide), Store.put_self, Store.put_other _ _ (by decide)]
  · rw [hs']
    dsimp only
    rw [Store.put_self, Store.put_other _ _ (by decide), Store.put_other _ _ (by decide)]
  · intro k
    have hcongr : s'.deliveredTo k = s.deliveredTo k :=
      funext (fun ol => deliveredTo_congr (by rw [hord]))
    rw [Store.delivered, hol, hcongr]
    rfl
  · intro k
    rw [Store.deliveries, hord]
    rfl

end Paying
end Mvdcc.Tpcc
