import Mvdcc.Tpcc.Bookkeeping
import Mvdcc.Tpcc.Keys

namespace Mvdcc.Tpcc
open Library

/-- A line before and after the delivery of some lines. -/
def Dated (rows : List OrderLine) (ol ol' : OrderLine) : Prop :=
  if ol ∈ rows then ∃ date : Timestamp, 0 < date ∧ ol' = { ol with olDeliveryD := date }
  else ol' = ol

def amounts (rows : List OrderLine) : ℚ := (rows.map OrderLine.olAmount).sum

section Visit
variable {s s' : Store} {rows : List OrderLine} {c c' : Captured}

theorem Dated.keeps {ol ol' : OrderLine} (h : Dated rows ol ol') :
    ol'.order = ol.order ∧ ol'.stockKey = ol.stockKey ∧ ol'.olQuantity = ol.olQuantity ∧
      ol'.olAmount = ol.olAmount := by
  unfold Dated at h
  split at h
  · obtain ⟨date, _, rfl⟩ := h
    exact ⟨rfl, rfl, rfl, rfl⟩
  · rw [h]
    exact ⟨rfl, rfl, rfl, rfl⟩

/-- The lambda of a delivery adds up the lines that it visits, and dates each of them once. -/
theorem visit_deliver (hn : rows.Nodup) (hclock : 0 < c.clock)
    (hrows : ∀ ol ∈ rows, (s.tables .orderLine).find (TableId.createKey .orderLine ol) = some ol)
    (h : visit DeliveryTx.deliver rows c s = (c', s')) :
    c'.totalOlAmount = c.totalOlAmount + amounts rows ∧ 0 < c'.clock ∧
      (∀ k, Option.Rel (Dated rows) ((s.tables .orderLine).find k)
        ((s'.tables .orderLine).find k)) ∧
      (∀ tb, tb ≠ .orderLine → s'.tables tb = s.tables tb) ∧ s'.history = s.history := by
  induction rows generalizing c s with
  | nil =>
    simp only [visit, Prod.mk.injEq] at h
    obtain ⟨rfl, rfl⟩ := h
    refine ⟨(add_zero _).symm, hclock, fun k => ?_, fun _ _ => rfl, rfl⟩
    cases (s.tables .orderLine).find k with
    | none => exact .none
    | some ol => exact .some (by simp [Dated])
  | cons ol rows ih =>
    obtain ⟨hnew, hrest⟩ := List.nodup_cons.mp hn
    have hkey : ∀ ol' ∈ rows, TableId.createKey .orderLine ol' ≠ TableId.createKey .orderLine ol := by
      rintro ol' hol' heq
      have hfind := hrows ol' (List.mem_cons_of_mem _ hol')
      rw [heq, hrows ol List.mem_cons_self] at hfind
      exact hnew (Option.some.inj hfind ▸ hol')
    set s₁ := s.put .orderLine (DeliveryTx.deliver c ol).2
    have hrows' : ∀ ol' ∈ rows,
        (s₁.tables .orderLine).find (TableId.createKey .orderLine ol') = some ol' := by
      intro ol' hol'
      have hother : TableId.createKey .orderLine ol' ≠
          TableId.createKey .orderLine (DeliveryTx.deliver c ol).2 := hkey ol' hol'
      rw [Store.put_self, Table.find_put_other _ _ hother]
      exact hrows ol' (List.mem_cons_of_mem _ hol')
    have hnext : 0 < (DeliveryTx.deliver c ol).1.clock := Nat.lt_succ_of_lt hclock
    obtain ⟨htotal, hclock', hdated, hother, hhist⟩ := ih hrest hnext hrows' h
    refine ⟨?_, hclock', fun k => ?_, fun tb hne => ?_, hhist⟩
    · rw [htotal, amounts, amounts, List.map_cons, List.sum_cons, ← add_assoc]
      rfl
    · have hk := hdated k
      rw [Store.put_self, Table.find_put] at hk
      split at hk
      · rename_i heq
        -- the line that comes first is not visited again
        have hfirst : (s.tables .orderLine).find k = some ol := by
          rw [heq]
          exact hrows ol List.mem_cons_self
        rw [hfirst]
        generalize (s'.tables .orderLine).find k = r at hk
        cases hk with
        | some hd =>
          refine .some ?_
          have hgone : (DeliveryTx.deliver c ol).2 ∉ rows := fun hin => hkey _ hin rfl
          unfold Dated at hd ⊢
          rw [if_neg hgone] at hd
          rw [if_pos List.mem_cons_self]
          exact ⟨c.clock, Int.natCast_pos.mpr hclock, hd⟩
      · rename_i hne
        generalize hr : (s.tables .orderLine).find k = r at hk
        generalize (s'.tables .orderLine).find k = r' at hk
        cases hk with
        | none => exact .none
        | @some ol₁ ol₂ hd =>
          refine .some ?_
          have hother' : ol₁ ≠ ol := by
            rintro rfl
            exact hne ((s.tables .orderLine).keyed k _ hr).symm
          unfold Dated at hd ⊢
          simpa [hother'] using hd
    · rw [hother tb hne, Store.put_other _ _ hne]

end Visit

section Deliver
variable {s s' : Store} {stock : StockOpening} {money : Opening} {o o' : Order}
variable {rows : List OrderLine}

/-- What one district's delivery does to the tables, but for the customer. -/
structure Delivers (s : Store) (o o' : Order) (rows : List OrderLine) (s' : Store) : Prop where
  found : (s.tables .order).find (TableId.createKey .order o) = some o
  undelivered : o.oCarrierId = 0
  carried : o'.oCarrierId ≠ 0
  same : o' = { o with oCarrierId := o'.oCarrierId }
  nodup : rows.Nodup
  visited : ∀ ol, ol ∈ rows ↔ (s.tables .orderLine).find (TableId.createKey .orderLine ol) = some ol ∧
    ol.order = TableId.createKey .order o
  newOrder : s'.tables .newOrder = (s.tables .newOrder).erase ⟨o.oWId, o.oDId, o.oId⟩
  order : s'.tables .order = (s.tables .order).put o'
  line : ∀ k, Option.Rel (Dated rows) ((s.tables .orderLine).find k) ((s'.tables .orderLine).find k)
  history : s'.history = s.history

theorem Delivers.key (h : Delivers s o o' rows s') :
    TableId.createKey .order o' = TableId.createKey .order o := by
  rw [h.same]

/-- Another order is as it was. -/
theorem Delivers.find_order (h : Delivers s o o' rows s') (k : OrderKey) :
    (s'.tables .order).find k =
      if k = TableId.createKey .order o then some o' else (s.tables .order).find k := by
  rw [h.order, Table.find_put, h.key]

theorem Delivers.remote (h : Delivers s o o' rows s') : s'.remote = s.remote := by
  funext ol
  rw [Store.remote, Store.remote, h.find_order]
  split
  · rename_i heq
    rw [heq, h.found, Option.any_some, Option.any_some, h.same]
  · rfl

theorem Delivers.filed (h : Delivers s o o' rows s') (hs : OrderBooks s) : OrderBooks s' := by
  have hcnt : o'.oOlCnt = o.oOlCnt := by rw [h.same]
  refine ⟨?_, ?_, ?_, ?_⟩
  · intro w d i
    rw [Store.HasNewOrder, h.newOrder, Table.find_erase, h.find_order]
    simp only [TableId.createKey, NewOrderKey.mk.injEq, OrderKey.mk.injEq]
    split
    · refine iff_of_false (fun hn => hn rfl) ?_
      rintro ⟨o₁, ho₁, hzero⟩
      exact h.carried (Option.some.inj ho₁ ▸ hzero)
    · exact hs.pending w d i
  · intro k
    have hk := h.line k
    have hsome : (s'.tables .orderLine).find k ≠ none ↔ (s.tables .orderLine).find k ≠ none := by
      generalize (s.tables .orderLine).find k = r, (s'.tables .orderLine).find k = r' at hk
      cases hk <;> simp
    rw [hsome, hs.lines k, h.find_order]
    split
    · rename_i heq
      rw [heq, h.found]
      simp only [Option.some.injEq, exists_eq_left', hcnt]
    · exact Iff.rfl
  · intro k ol' o₁ hol' ho₁
    have hk := h.line k
    rw [hol'] at hk
    generalize hol : (s.tables .orderLine).find k = r at hk
    cases hk with
    | @some ol _ hd =>
      have horder := order_of_find hol
      have hmem : ol ∈ rows ↔ k.order = TableId.createKey .order o := by
        rw [h.visited, (s.tables .orderLine).keyed k ol hol, horder]
        exact and_iff_right hol
      rw [h.find_order] at ho₁
      unfold Dated at hd
      split at ho₁
      · rename_i heq
        rw [if_pos (hmem.mpr heq)] at hd
        obtain ⟨date, hdate, rfl⟩ := hd
        obtain rfl := Option.some.inj ho₁
        exact iff_of_false (ne_of_gt hdate) h.carried
      · rename_i hne
        rw [if_neg (fun hin => hne (hmem.mp hin))] at hd
        subst hd
        exact hs.dates k _ o₁ hol ho₁
  · intro k o₁ ho₁
    rw [h.find_order] at ho₁
    split at ho₁
    · rename_i heq
      rw [heq]
      exact hs.ids _ o h.found
    · exact hs.ids k o₁ ho₁

theorem Delivers.stockBooks (h : Delivers s o o' rows s')
    (hst : s'.tables .stock = s.tables .stock) (hs : StockBooks stock s) : StockBooks stock s' := by
  have hsame : ∀ (k : StockKey) (f : OrderLine → Nat),
      (∀ ol ol', Dated rows ol ol' → f ol' = f ol) → s'.supplied k f = s.supplied k f := by
    intro k f hf
    refine (Table.total_rel (fun k' => ?_)).symm
    have hk := h.line k'
    generalize (s.tables .orderLine).find k' = r, (s'.tables .orderLine).find k' = r' at hk
    cases hk with
    | none => exact .none
    | some hd => exact .some (by rw [hf _ _ hd, hd.keeps.2.1])
  intro k st hfind
  rw [hst] at hfind
  have hcounted := hs k st hfind
  refine ⟨?_, ?_, ?_⟩
  · rw [hsame k _ (fun _ _ hd => by rw [hd.keeps.2.2.1])]
    exact hcounted.ytd
  · rw [hsame k _ (fun _ _ _ => rfl)]
    exact hcounted.orderCnt
  · rw [h.remote, hsame k _ (fun ol ol' hd => by rw [Store.remote, hd.keeps.1]; rfl)]
    exact hcounted.remoteCnt

/-- The lines of the delivered order are the ones that are new on the customer's account. -/
theorem Delivers.deliveredTo (h : Delivers s o o' rows s') (k : CustomerKey) (ol : OrderLine) :
    s'.deliveredTo k ol =
      (s.deliveredTo k ol || decide (ol.order = TableId.createKey .order o ∧ o.customer = k)) := by
  rw [Store.deliveredTo, Store.deliveredTo, h.find_order]
  split
  · rename_i heq
    have hcustomer : o'.customer = o.customer := by rw [h.same]; rfl
    rw [heq, h.found, Option.any_some, Option.any_some, h.undelivered, hcustomer]
    simp [h.carried]
  · rename_i hne
    simp [hne]

theorem Delivers.delivered (h : Delivers s o o' rows s') (k : CustomerKey) :
    s'.delivered k = s.delivered k + if o.customer = k then amounts rows else 0 := by
  have hdated : s'.delivered k =
      (s.tables .orderLine).total (fun ol => if s'.deliveredTo k ol then ol.olAmount else 0) := by
    refine (Table.total_rel (fun k' => ?_)).symm
    have hk := h.line k'
    generalize (s.tables .orderLine).find k' = r, (s'.tables .orderLine).find k' = r' at hk
    cases hk with
    | none => exact .none
    | @some ol ol' hd =>
      have hsame : s'.deliveredTo k ol' = s'.deliveredTo k ol := by
        rw [Store.deliveredTo, hd.keeps.1]
        rfl
      exact .some (by rw [hd.keeps.2.2.2, hsame])
  have hsplit : ∀ k' ol, (s.tables .orderLine).find k' = some ol →
      (if s'.deliveredTo k ol then ol.olAmount else 0) =
        (if s.deliveredTo k ol then ol.olAmount else 0) +
          if ol.order = TableId.createKey .order o ∧ o.customer = k then ol.olAmount else 0 := by
    intro k' ol _
    rw [h.deliveredTo]
    by_cases hin : ol.order = TableId.createKey .order o ∧ o.customer = k
    · have hnot : s.deliveredTo k ol = false := by
        rw [Store.deliveredTo, hin.1, h.found, Option.any_some, h.undelivered]
        simp
      simp [hin, hnot]
    · simp [hin]
  rw [hdated, Table.total_congr hsplit, Table.total_add]
  congr 1
  by_cases hk : o.customer = k
  · rw [if_pos hk, amounts, ← Table.total_filter h.nodup h.visited]
    simp [hk]
  · rw [if_neg hk]
    simp only [hk, and_false, if_false]
    exact Table.total_zero

theorem Delivers.deliveries (h : Delivers s o o' rows s') (k : CustomerKey) :
    s'.deliveries k = s.deliveries k + if o.customer = k then 1 else 0 := by
  have hcustomer : o'.customer = o.customer := by rw [h.same]; rfl
  have hold : (s.tables .order).find (TableId.createKey .order o') = some o := by
    rw [h.key, h.found]
  have htotal := Table.total_put (f := fun o : Order =>
    if o.customer = k ∧ o.oCarrierId ≠ 0 then 1 else 0) hold
  have hnew : (if o'.customer = k ∧ o'.oCarrierId ≠ 0 then 1 else 0) =
      if o.customer = k then 1 else 0 := by
    simp [hcustomer, h.carried]
  rw [if_neg (fun hin => hin.2 h.undelivered), hnew] at htotal
  rw [Store.deliveries, h.order]
  exact htotal

/-- The delivery of one order, with its customer's account. -/
theorem Books.deliver {c : Customer} (h : Books stock money (fun o => o.oOlCnt.toNat) s)
    (hd : Delivers s o o' rows s')
    (hc : (s.tables .customer).find o.customer = some c)
    (hcust : s'.tables .customer = (s.tables .customer).put
      { c with cBalance := c.cBalance + amounts rows, cDeliveryCnt := c.cDeliveryCnt + 1 })
    (hsame : ∀ tb, tb = .warehouse ∨ tb = .district ∨ tb = .stock → s'.tables tb = s.tables tb) :
    Books stock money (fun o => o.oOlCnt.toNat) s' := by
  have hpaid : ∀ p, s'.paid p = s.paid p := fun p => by
    rw [Store.paid, Store.payments, hd.history]
    rfl
  refine ⟨hd.filed h.orders, hd.stockBooks (hsame _ (by simp)) h.stock, ?_, ?_, ?_⟩
  · intro k w hw
    rw [hsame _ (by simp)] at hw
    rw [hpaid]
    exact h.money.warehouses k w hw
  · intro k d hdist
    rw [hsame _ (by simp)] at hdist
    rw [hpaid]
    exact h.money.districts k d hdist
  · intro k c' hc'
    have hkey : TableId.createKey .customer c = o.customer := (s.tables .customer).keyed _ _ hc
    rw [hcust, Table.find_put] at hc'
    have hpayments : ∀ p, s'.payments p = s.payments p := fun p => by
      rw [Store.payments, hd.history]
      rfl
    split at hc'
    · rename_i heq
      obtain rfl := Option.some.inj hc'
      have hat : o.customer = k := hkey.symm.trans heq.symm
      have hold := h.money.customers _ c hc
      rw [hat] at hold
      refine ⟨?_, ?_, ?_, ?_⟩
      · rw [hd.delivered, if_pos hat, hpaid]
        dsimp only
        rw [hold.balance]
        linarith
      · rw [hpaid]
        exact hold.ytdPayment
      · rw [hpayments]
        exact hold.paymentCnt
      · rw [hd.deliveries, if_pos hat, UInt16.ofNat_add, ← UInt16.add_assoc, ← hold.deliveryCnt]
        rfl
    · rename_i hne
      have hat : o.customer ≠ k := fun he => hne (he.symm.trans hkey.symm)
      have hold := h.money.customers k c' hc'
      refine ⟨?_, ?_, ?_, ?_⟩
      · rw [hd.delivered, if_neg hat, add_zero, hpaid]
        exact hold.balance
      · rw [hpaid]
        exact hold.ytdPayment
      · rw [hpayments]
        exact hold.paymentCnt
      · rw [hd.deliveries, if_neg hat, Nat.add_zero]
        exact hold.deliveryCnt

end Deliver
end Mvdcc.Tpcc
