import Mvdcc.Tpcc.BookRules

namespace Mvdcc.Tpcc
open Library Transaction

/-- The books between two profiles. -/
abbrev Balanced (stock : StockOpening) (money : Opening) (s : Store) : Prop :=
  Books stock money (fun o => o.oOlCnt.toNat) s

section Updates
variable {τ : Type} {committed view : τ → Store} {T : Transaction τ} {c s : Store}
variable {stock : StockOpening} {money : Opening}

/-- The books while an order has so many of its lines. -/
def Filling (stock : StockOpening) (money : Opening) (o : Order) (n : Nat) (s : Store) : Prop :=
  Books stock money (filling (TableId.createKey .order o) n) s ∧
    (s.tables .order).find (TableId.createKey .order o) = some o

/-- One round of the loop over the order lines. -/
theorem orderLine_books (h : KeyedStore committed view T) {input : NewOrderTx.Input}
    {oId : UInt32} {entryD : Timestamp} {n : Nat} (hn : n < input.olCnt.toNat)
    (hs : Filling stock money (NewOrderTx.createOrder input oId entryD) n s) :
    Works committed view 1 c s (NewOrderTx.orderLine T input oId (1 + n))
      (fun _ => Filling stock money (NewOrderTx.createOrder input oId entryD) (n + 1)) := by
  unfold NewOrderTx.orderLine
  rw [Nat.add_sub_cancel_left]
  dsimp only
  split
  · exact .userAbort
  refine (Works.require h (h.get .item _)).bind ?_
  rintro i _ ⟨_, rfl⟩
  refine (Works.require h (h.prepareUpdate .stock _)).bind ?_
  rintro st s ⟨hst, rfl⟩
  refine (Works.require h (h.finishUpdate .stock _)).bind ?_
  rintro _ _ rfl
  refine (Works.require h (h.prepareInsert .orderLine _)).bind ?_
  rintro _ _ ⟨hnew, rfl⟩
  refine (Works.require h (h.finishInsert .orderLine _)).weaken ?_
  rintro _ _ rfl
  rw [Store.put_other _ _ (by decide)] at hnew
  have hlt := input.olCnt.toNat_lt
  have hnum : (UInt8.ofNat (1 + n)).toNat = n + 1 := by
    rw [UInt8.toNat_ofNat_of_lt' (by rw [UInt8.size]; omega), Nat.add_comm]
  have hfills : Fills (NewOrderTx.createOrder input oId entryD) n input.isRemote
      (NewOrderTx.createOrderline input oId (UInt8.ofNat (1 + n)) (input.items n)
        ((input.items n).olQuantity.toNat * i.iPrice)
        (NewOrderTx.modifyStock st (input.items n).olQuantity input.isRemote)) := by
    refine ⟨rfl, hnum, rfl, rfl, ?_⟩
    change (if input.isRemote then (0 : UInt8) else 1) = 0 ↔ _
    cases input.isRemote <;> decide
  have hfill := hs.1.fill hs.2 hfills hst hnew
  refine ⟨hfill, ?_⟩
  · rw [Store.put_other _ _ (by decide), Store.put_other _ _ (by decide)]
    exact hs.2

theorem newOrder_books (h : KeyedStore committed view T) (input : NewOrderTx.Input)
    (hs : Balanced stock money s) (hb : Bounded s) :
    Publishes committed view 1 c s (NewOrderTx.run T input) (fun _ => Balanced stock money) := by
  unfold NewOrderTx.run
  refine (Works.require h (h.get .warehouse _)).publishes ?_
  rintro w _ ⟨_, rfl⟩
  refine (Works.require h (h.prepareUpdate .district _)).publishes ?_
  rintro d s ⟨hd, rfl⟩
  refine (Works.require h (h.finishUpdate .district _)).publishes ?_
  rintro _ _ rfl
  refine (Works.require h (h.get .customer _)).publishes ?_
  rintro cu _ ⟨_, rfl⟩
  refine (Works.require h (h.prepareInsert .newOrder _)).publishes ?_
  rintro _ _ ⟨_, rfl⟩
  refine (Works.require h (h.finishInsert .newOrder _)).publishes ?_
  rintro _ _ rfl
  refine (Works.require h (h.prepareInsert .order _)).publishes ?_
  rintro _ _ ⟨hnew, rfl⟩
  refine Works.getTimestamp.publishes ?_
  rintro entryD _ rfl
  refine (Works.require h (h.finishInsert .order _)).publishes ?_
  rintro _ s₁ hs₁
  set o := NewOrderTx.createOrder input d.dNextOId entryD
  have hkey : TableId.createKey .district d = ⟨input.wId, input.dId⟩ :=
    (s.tables .district).keyed _ _ hd
  have hold : (s.tables .order).find (TableId.createKey .order o) = none := by
    rwa [Store.put_other _ _ (by decide), Store.put_other _ _ (by decide)] at hnew
  have hfound : (s.tables .district).find (TableId.createKey .district d) = some d := by
    rw [hkey, hd]
  have hstart : Filling stock money o 0 s₁ := by
    refine ⟨hs₁ ▸ hs.place hfound (hb _ d hfound) rfl rfl rfl hold, ?_⟩
    rw [hs₁, Store.put_self]
    exact Table.find_put_self _ o
  have hloop : Works committed view 1 c s₁ (Script.forEach (NewOrderTx.orderLine T input d.dNextOId)
      (List.range' 1 input.olCnt.toNat)) (fun _ => Filling stock money o input.olCnt.toNat) :=
    Works.forRange (I := Filling stock money o) hstart (fun _ hn _ hI => orderLine_books h hn hI)
  refine hloop.publishes ?_
  rintro _ s' ⟨hbooks, ho⟩
  refine finish_publishes h ⟨hbooks.orders.congr ?_, hbooks.stock, hbooks.money⟩
  intro k o' ho'
  rw [filling]
  split
  · rename_i heq
    have hk := (s'.tables .order).keyed _ _ ho'
    rw [← hk, heq, ho] at ho'
    obtain rfl := Option.some.inj ho'
    rfl
  · rfl

theorem payment_books (h : KeyedStore committed view T) (input : PaymentTx.Input)
    (hs : Balanced stock money s) :
    Publishes committed view 1 c s (PaymentTx.run T input) (fun _ => Balanced stock money) := by
  unfold PaymentTx.run
  refine (Works.require h (h.prepareUpdate .warehouse _)).publishes ?_
  rintro w s ⟨hw, rfl⟩
  refine (Works.require h (h.finishUpdate .warehouse _)).publishes ?_
  rintro _ _ rfl
  refine (Works.require h (h.prepareUpdate .district _)).publishes ?_
  rintro d _ ⟨hd, rfl⟩
  refine (Works.require h (h.finishUpdate .district _)).publishes ?_
  rintro _ s₁ hs₁
  have hcustomer : Works committed view 1 c s₁ (T.require (if input.byLastName then
      T.getCustomerByLastNameAndPrepareForUpdate input.cWId input.cDId input.cLast
      else T.prepareRecordForUpdate .customer ⟨input.cWId, input.cDId, input.cId⟩))
      (fun cu s' => (s₁.tables .customer).find ⟨input.cWId, input.cDId, cu.cId⟩ = some cu ∧
        s' = s₁) := by
    split
    · refine (Works.require h (h.byLastName _ _ _)).weaken ?_
      rintro cu s' ⟨hcu, _, rfl⟩
      exact ⟨hcu, rfl⟩
    · refine (Works.require h (h.prepareUpdate .customer _)).weaken ?_
      rintro cu s' ⟨hcu, rfl⟩
      have hkey := (s'.tables .customer).keyed _ _ hcu
      simp only [TableId.createKey, CustomerKey.mk.injEq] at hkey
      exact ⟨by rw [hkey.2.2, hcu], rfl⟩
  refine hcustomer.publishes ?_
  rintro cu _ ⟨hcu, rfl⟩
  refine (Works.require h (h.finishUpdate .customer _)).publishes ?_
  rintro _ _ rfl
  refine (Works.require h h.prepareHistory).publishes ?_
  rintro _ _ rfl
  refine Works.getTimestamp.publishes ?_
  rintro date _ rfl
  refine (Works.require h (h.finishHistory _)).publishes ?_
  rintro _ _ rfl
  refine finish_publishes h ?_
  subst hs₁
  rw [Store.put_other _ _ (by decide)] at hd
  rw [Store.put_other _ _ (by decide), Store.put_other _ _ (by decide)] at hcu
  have hwkey := (s.tables .warehouse).keyed _ _ hw
  have hdkey := (s.tables .district).keyed _ _ hd
  have hckey := (s.tables .customer).keyed _ _ hcu
  rw [← hwkey] at hw
  rw [← hdkey] at hd
  rw [← hckey] at hcu
  simp only [TableId.createKey, WarehouseKey.mk.injEq, DistrictKey.mk.injEq] at hwkey hdkey
  exact @Books.pay s stock money _ w d cu (PaymentTx.createHistory input cu.cId date) hs hw hd hcu
    hwkey.symm ⟨hdkey.1.symm, hdkey.2.symm⟩ hckey.symm

/-- `range_update` adds up the lines of a range, and dates them. -/
theorem deliverOrderLines_works (h : KeyedStore committed view T) (low up : OrderLineKey) :
    Works committed view 1 c s (DeliveryTx.deliverOrderLines T low up) (fun total s' =>
      ∃ rows : List OrderLine, rows.Nodup ∧
        (∀ ol, ol ∈ rows ↔ (s.tables .orderLine).find (TableId.createKey .orderLine ol) = some ol ∧
          OrderLineKey.InRange (TableId.createKey .orderLine ol) (low, up)) ∧
        total = amounts rows ∧
        (∀ k, Option.Rel (Dated rows) ((s.tables .orderLine).find k)
          ((s'.tables .orderLine).find k)) ∧
        (∀ tb, tb ≠ .orderLine → s'.tables tb = s.tables tb) ∧ s'.history = s.history) := by
  intro w hw
  have hrange := Works.require (c := c) (s := s) h
    (h.range low up DeliveryTx.deliver ⟨0, w.clock⟩) w hw
  unfold DeliveryTx.deliverOrderLines
  generalize T.require (T.rangeUpdate low up DeliveryTx.deliver ⟨0, w.clock⟩) w = res at hrange
  obtain ⟨_ | captured, w'⟩ := res
  · exact hrange
  · obtain ⟨s', hw', rows, hn, hrows, hvisit⟩ := hrange
    obtain ⟨htotal, hclock, hdated, hother, hhist⟩ :=
      visit_deliver (c := ⟨0, w.clock⟩) hn hw.2 (fun ol hol => ((hrows ol).mp hol).1) hvisit
    exact ⟨s', ⟨hw'.1, hclock⟩, rows, hn, hrows, htotal.trans (zero_add _), hdated, hother, hhist⟩

/-- A district's delivery, from the new order it found. -/
theorem deliverFound_books (h : KeyedStore committed view T) {input : DeliveryTx.Input}
    (hinput : input.Generated) {dId : UInt8} (hs : Balanced stock money s) {no : NewOrder}
    (hw : no.noWId = input.wId) (hd : no.noDId = dId)
    (hfound : s.HasNewOrder input.wId dId no.noOId) :
    Works committed view 1 c s (do
      let no ← T.require (T.prepareRecordForDelete .newOrder (TableId.createKey .newOrder no))
      T.require (T.finishDelete .newOrder no)
      let o ← T.require (T.prepareRecordForUpdate .order ⟨input.wId, dId, no.noOId⟩)
      let o : Order := { o with oCarrierId := input.oCarrierId }
      T.require (T.finishUpdate .order o)
      let total ← DeliveryTx.deliverOrderLines T ⟨o.oWId, o.oDId, o.oId, 1⟩
        ⟨o.oWId, o.oDId, o.oId + 1, 1⟩
      let c ← T.require (T.prepareRecordForUpdate .customer ⟨input.wId, dId, o.oCId⟩)
      T.require (T.finishUpdate .customer
        { c with cBalance := c.cBalance + total, cDeliveryCnt := c.cDeliveryCnt + 1 }))
      (fun _ => Balanced stock money) := by
  have hcarrier : input.oCarrierId ≠ 0 := by
    intro hz
    have hlow := hinput.1
    rw [hz] at hlow
    exact absurd hlow (by decide)
  refine (Works.require h (h.prepareDelete .newOrder _)).bind ?_
  rintro no' s ⟨hno', rfl⟩
  have hsame := (s.tables .newOrder).keyed _ _ hno'
  simp only [TableId.createKey, NewOrderKey.mk.injEq] at hsame
  refine (Works.require h (h.finishDelete .newOrder _)).bind ?_
  rintro _ _ rfl
  refine (Works.require h (h.prepareUpdate .order _)).bind ?_
  rintro o _ ⟨ho, rfl⟩
  refine (Works.require h (h.finishUpdate .order _)).bind ?_
  rintro _ s₁ hs₁
  rw [Store.erase_other _ _ (by decide), hsame.2.2] at ho
  have hkey : TableId.createKey .order o = ⟨input.wId, dId, no.noOId⟩ :=
    (s.tables .order).keyed _ _ ho
  obtain ⟨o₀, ho₀, hundelivered⟩ := (hs.orders.pending _ _ _).mp hfound
  obtain rfl := Option.some.inj (ho.symm.trans ho₀)
  obtain ⟨hkw, hkd, hki⟩ : o.oWId = input.wId ∧ o.oDId = dId ∧ o.oId = no.noOId := by
    simpa [TableId.createKey] using hkey
  rw [← hkey] at ho
  set o' : Order := { o with oCarrierId := input.oCarrierId }
  refine (deliverOrderLines_works h _ _).bind ?_
  rintro total s₂ ⟨rows, hn, hrows, rfl, hdated, hother, hhist⟩
  refine (Works.require h (h.prepareUpdate .customer _)).bind ?_
  rintro cu s₂ ⟨hcu, rfl⟩
  refine (Works.require h (h.finishUpdate .customer _)).weaken ?_
  rintro _ s₃ rfl
  have hs₁same : ∀ tb, tb ≠ .newOrder → tb ≠ .order → s₁.tables tb = s.tables tb := by
    intro tb hnew hord
    rw [hs₁, Store.put_other _ _ hord, Store.erase_other _ _ hnew]
  have hlines : s₁.tables .orderLine = s.tables .orderLine := hs₁same _ (by decide) (by decide)
  rw [hlines] at hrows hdated
  have hcustomer : s₂.tables .customer = s.tables .customer := by
    rw [hother _ (by decide), hs₁same _ (by decide) (by decide)]
  have hdelivers : Delivers s o o' rows (s₂.put .customer
      { cu with cBalance := cu.cBalance + amounts rows, cDeliveryCnt := cu.cDeliveryCnt + 1 }) := by
    refine ⟨ho, hundelivered, hcarrier, rfl, hn, fun ol => ?_, ?_, ?_, fun k => ?_, ?_⟩
    · rw [hrows]
      refine and_congr_right (fun hol => ?_)
      -- no line has the number 0, so the range has the lines of this order only
      obtain ⟨_, _, hnum, _⟩ := (hs.orders.lines _).mp (by rw [hol]; exact Option.some_ne_none ol)
      have hrange := OrderLineKey.inRange_linesOf (o := o') (hs.orders.ids _ o ho)
        (k := TableId.createKey .orderLine ol) hnum
      refine hrange.trans ?_
      simp [OrderLine.order, TableId.createKey, o']
    · rw [Store.put_other _ _ (by decide), hother _ (by decide), hs₁, Store.put_other _ _ (by decide),
        Store.erase_self]
      simp only [TableId.createKey, hsame, hw, hd, hkw, hkd, hki]
    · rw [Store.put_other _ _ (by decide), hother _ (by decide), hs₁, Store.put_self,
        Store.erase_other _ _ (by decide)]
    · rw [Store.put_other _ _ (by decide)]
      exact hdated k
    · change s₂.history = _
      rw [hhist, hs₁]
      rfl
  refine hs.deliver (c := cu) hdelivers ?_ ?_ ?_
  · rw [Order.customer, hkw, hkd, ← hcustomer]
    exact hcu
  · rw [Store.put_self, hcustomer]
  · rintro tb (rfl | rfl | rfl)
    all_goals
      rw [Store.put_other _ _ (by decide), hother _ (by decide),
        hs₁same _ (by decide) (by decide)]

theorem deliverDistrict_books (h : KeyedStore committed view T) {input : DeliveryTx.Input}
    (hinput : input.Generated) (dId : UInt8) (hs : Balanced stock money s) :
    Works committed view 1 c s (DeliveryTx.deliverDistrict T input dId)
      (fun _ => Balanced stock money) := by
  unfold DeliveryTx.deliverDistrict
  refine (ask_works (h.smallest _)).bind ?_
  intro res
  cases res with
  | fail =>
    rintro w ⟨⟨hc, _, hv⟩, hclock⟩
    exact ⟨s, ⟨⟨hc, hv⟩, hclock⟩, hs⟩
  | _ =>
    refine Script.Meets.bind (checked_works h) ?_
    rintro no w ⟨s', hat, rfl, hw, hd, _, hfound, _⟩
    refine deliverFound_books h hinput hs hw hd ?_ w hat
    rw [Store.HasNewOrder, hfound]
    exact Option.some_ne_none no

theorem delivery_books (h : KeyedStore committed view T) {input : DeliveryTx.Input}
    (hinput : input.Generated) (hs : Balanced stock money s) :
    Publishes committed view 1 c s (DeliveryTx.run T input) (fun _ => Balanced stock money) := by
  have hloop : Works committed view 1 c s (Script.forEach
      (fun dId => DeliveryTx.deliverDistrict T input (UInt8.ofNat dId)) (List.range' 1 10))
      (fun _ => Balanced stock money) :=
    Works.forRange (I := fun _ => Balanced stock money) hs
      (fun _ _ _ hs => deliverDistrict_books h hinput _ hs)
  exact hloop.publishes (fun _ _ hs' => finish_publishes h hs')

end Updates
end Mvdcc.Tpcc
