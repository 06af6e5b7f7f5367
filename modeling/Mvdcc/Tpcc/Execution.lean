import Mvdcc.Tpcc.Effects

namespace Mvdcc.Tpcc
open Library Transaction

section Rules
variable {τ α β ι : Type} (committed view : τ → Store)

/-- The transaction sees `s`, and its abort would give `c`. -/
def At (c s : Store) (w : World τ) : Prop := committed w.tx = c ∧ view w.tx = s

/-- What an operation has left, by its result. -/
def Replied (c s : Store) (Q : α → Store → Prop) (F : Prop) (res : Reply α) (w : World τ) :
    Prop :=
  committed w.tx = c ∧ match res with
    | .success a => Q a (view w.tx)
    | .fail => F ∧ view w.tx = s
    | .abort => True

/-- A profile that ends early has committed nothing; the system's abort is carried out. -/
def Ended (c : Store) (st : Status) (w : World τ) : Prop :=
  committed w.tx = c ∧ (st = .userAbort ∨ st = .systemAbort ∧ view w.tx = c)

/-- Part of a profile takes what it sees from `s` to a store with `Q`. -/
def Does (c s : Store) (x : Script (World τ) Status α) (Q : α → Store → Prop) : Prop :=
  Script.Meets (At committed view c s) x (fun a w => ∃ s', At committed view c s' w ∧ Q a s')
    (Ended committed view c)

/-- A whole profile, or its end, commits a store with `Q` if it commits. -/
def Commits (c s : Store) (x : Script (World τ) Status Unit) (Q : Store → Prop) : Prop :=
  Script.Meets (At committed view c s) x (fun _ w => ∃ s', At committed view s' s' w ∧ Q s')
    (Ended committed view c)

variable {committed view} {T : Transaction τ} {c s : Store} {w : World τ}
variable {x : Script (World τ) Status α} {f : α → Script (World τ) Status β}
variable {Q : α → Store → Prop} {R : β → Store → Prop}

theorem Does.userAbort : Does committed view c s (Script.throw .userAbort) Q :=
  Script.Meets.throw (fun _ hat => ⟨hat.1, Or.inl rfl⟩)

theorem Does.bind (hx : Does committed view c s x Q)
    (hf : ∀ a s', Q a s' → Does committed view c s' (f a) R) :
    Does committed view c s (x >>= f) R := by
  refine Script.Meets.bind hx ?_
  rintro a w ⟨s', hat, hq⟩
  exact hf a s' hq w hat

theorem Does.weaken {Q' : α → Store → Prop} (hx : Does committed view c s x Q)
    (hq : ∀ a s', Q a s' → Q' a s') : Does committed view c s x Q' :=
  Script.Meets.weaken hx (fun _ hat => hat) (fun a _ ⟨s', hat, h⟩ => ⟨s', hat, hq a s' h⟩)

theorem Does.forEach {body : ι → Script (World τ) Status Unit} {is : List ι} {n : Nat}
    {I : Nat → Store → Prop} (hs : I n s)
    (h : ∀ i ∈ is, ∀ n s, I n s → Does committed view c s (body i) (fun _ => I (n + 1))) :
    Does committed view c s (Script.forEach body is) (fun _ => I (n + is.length)) := by
  refine Script.Meets.weaken (Script.Meets.forEach (n := n)
    (I := fun n w => ∃ s', At committed view c s' w ∧ I n s') ?_)
    (fun w hat => ⟨s, hat, hs⟩) (fun _ _ hq => hq)
  rintro i hi n w ⟨s', hat, hI⟩
  exact h i hi n s' hI w hat

theorem Does.getTimestamp :
    Does committed view c s (getTimestamp : Script (World τ) Status _) (fun _ s' => s' = s) :=
  fun _ hat => ⟨s, hat, rfl⟩

/-- An operation, before its result is looked at. -/
theorem ask_replies {op : Request τ α} {Q : Store → α → Store → Prop} {F : Store → Prop}
    (hop : Serves committed view op Q F) :
    Script.Meets (At committed view c s) (ask op) (Replied committed view c s (Q s) (F s))
      (Ended committed view c) := by
  rintro w ⟨hc, rfl⟩
  obtain ⟨hsame, hres⟩ := hop w.tx
  exact ⟨hsame.trans hc, hres⟩

/-- A result that is not `FAIL` is a success of the operation, or ends the profile. -/
theorem checked_does (h : KeyedStore committed view T) {F : Prop} {res : Reply α}
    (hF : res = .fail → ¬ F) :
    Script.Meets (Replied committed view c s Q F res) (T.checked res)
      (fun a w => ∃ s', At committed view c s' w ∧ Q a s') (Ended committed view c) := by
  rintro ⟨tx, coins, clock⟩ ⟨hc, hres⟩
  have habort : Ended committed view c .systemAbort { tx := T.abort tx, coins, clock } :=
    ⟨(h.abort tx).1.trans hc, Or.inr ⟨rfl, (h.abort tx).2.trans hc⟩⟩
  match res, coins with
  | .success a, [] => exact ⟨_, ⟨hc, rfl⟩, hres⟩
  | .success a, false :: coins => exact ⟨_, ⟨hc, rfl⟩, hres⟩
  | .success a, true :: coins => exact habort
  | .fail, _ => exact absurd hres.1 (hF rfl)
  | .abort, _ => exact habort

theorem Does.require (h : KeyedStore committed view T) {op : Request τ α}
    {Q : Store → α → Store → Prop} (hop : Serves committed view op Q (fun _ => False)) :
    Does committed view c s (T.require op) (Q s) :=
  (ask_replies hop).bind (fun _ => checked_does h (fun _ => id))

/-- A commit publishes what the transaction sees. -/
theorem finish_commits (h : KeyedStore committed view T) {Q : Store → Prop} (hs : Q s) :
    Commits committed view c s T.finish Q := by
  rintro w ⟨hc, rfl⟩
  have hcommit := h.commit w.tx
  unfold Transaction.finish
  cases hdone : (T.commit w.tx).1 with
  | true =>
    simp only [hdone, if_true] at hcommit
    simp only [if_true, hdone]
    exact ⟨_, hcommit, hs⟩
  | false =>
    simp only [hdone, Bool.false_eq_true, if_false] at hcommit
    simp only [Bool.false_eq_true, if_false, hdone]
    exact ⟨hcommit.1.trans hc, Or.inr ⟨rfl, hcommit.2.trans hc⟩⟩

/-- What follows a part of a profile commits. -/
theorem Does.commits {f : α → Script (World τ) Status Unit} {Q' : Store → Prop}
    (hx : Does committed view c s x Q)
    (hf : ∀ a s', Q a s' → Commits committed view c s' (f a) Q') :
    Commits committed view c s (x >>= f) Q' := by
  refine Script.Meets.bind hx ?_
  rintro a w ⟨s', hat, hq⟩
  exact hf a s' hq w hat

end Rules

section Profiles
variable {τ : Type} {committed view : τ → Store} {T : Transaction τ} {c s : Store}

/-- One round of the loop over the order lines. -/
theorem orderLine_does (h : KeyedStore committed view T) (input : NewOrderTx.Input)
    (oId : UInt32) (olNum : Nat) :
    Does committed view c s (NewOrderTx.orderLine T input oId olNum)
      (fun _ => Grown input.wId input.dId 1 s) := by
  unfold NewOrderTx.orderLine
  dsimp only
  split
  · exact .userAbort
  refine (Does.require h (h.get .item _)).bind ?_
  rintro i _ ⟨_, rfl⟩
  refine (Does.require h (h.prepareUpdate .stock _)).bind ?_
  rintro st _ ⟨_, rfl⟩
  refine (Does.require h (h.finishUpdate .stock _)).bind ?_
  rintro _ _ rfl
  refine (Does.require h (h.prepareInsert .orderLine _)).bind ?_
  rintro _ _ ⟨hnew, rfl⟩
  refine (Does.require h (h.finishInsert .orderLine _)).weaken ?_
  rintro _ _ rfl
  change Grown _ _ (0 + 1) _ _
  exact (Grown.put _ _ _ _ (Or.inl rfl)).trans (.insert hnew rfl rfl)

theorem newOrder_commits (h : KeyedStore committed view T) (input : NewOrderTx.Input)
    (hs : Sound s) (hb : Bounded s) :
    Commits committed view c s (NewOrderTx.run T input) Sound := by
  unfold NewOrderTx.run
  refine (Does.require h (h.get .warehouse _)).commits ?_
  rintro w _ ⟨_, rfl⟩
  refine (Does.require h (h.prepareUpdate .district _)).commits ?_
  rintro d s ⟨hd, rfl⟩
  refine (Does.require h (h.finishUpdate .district _)).commits ?_
  rintro _ _ rfl
  refine (Does.require h (h.get .customer _)).commits ?_
  rintro cu _ ⟨_, rfl⟩
  refine (Does.require h (h.prepareInsert .newOrder _)).commits ?_
  rintro _ _ ⟨_, rfl⟩
  refine (Does.require h (h.finishInsert .newOrder _)).commits ?_
  rintro _ _ rfl
  refine (Does.require h (h.prepareInsert .order _)).commits ?_
  rintro _ _ ⟨hnew, rfl⟩
  refine Does.getTimestamp.commits ?_
  rintro entryD _ rfl
  refine (Does.require h (h.finishInsert .order _)).commits ?_
  rintro _ s₁ hs₁
  have hloop : Does committed view c s₁ (Script.forEach (NewOrderTx.orderLine T input d.dNextOId)
      (List.range' 1 input.olCnt.toNat))
      (fun _ => Grown input.wId input.dId (0 + (List.range' 1 input.olCnt.toNat).length) s₁) := by
    refine Does.forEach (I := fun n s' => Grown input.wId input.dId n s₁ s') (.refl _ _ _) ?_
    intro olNum _ n s' hg
    exact (orderLine_does h input _ olNum).weaken (fun _ s'' hline => hg.trans hline)
  refine hloop.commits ?_
  rintro _ s' hg
  refine finish_commits h ?_
  subst hs₁
  rw [Nat.zero_add, List.length_range'] at hg
  have hkey := (s.tables .district).keyed _ _ hd
  have hold : (s.tables .order).find ⟨input.wId, input.dId, d.dNextOId⟩ = none := by
    rwa [Store.put_other _ _ (by decide), Store.put_other _ _ (by decide)] at hnew
  rw [← hkey] at hd
  have hat := hb _ d hd
  simp only [TableId.createKey, DistrictKey.mk.injEq] at hkey
  obtain ⟨hw, hdist⟩ := hkey
  rw [← hw, ← hdist] at hg hold
  refine hs.order hd hat ?_ ?_ ?_ hold ?_ hg
  · rfl
  · exact ⟨hw.symm, hdist.symm, rfl⟩
  · rfl
  · rfl

/-- `range_update` only dates the lines. -/
theorem deliverOrderLines_does (h : KeyedStore committed view T) (low up : OrderLineKey)
    (wId : UInt16) (dId : UInt8) :
    Does committed view c s (DeliveryTx.deliverOrderLines T low up)
      (fun _ => Grown wId dId 0 s) := by
  intro w hat
  have hrange := Does.require (c := c) (s := s) h
    (h.range low up DeliveryTx.deliver ⟨0, w.clock⟩) w hat
  unfold DeliveryTx.deliverOrderLines
  generalize T.require (T.rangeUpdate low up DeliveryTx.deliver ⟨0, w.clock⟩) w = res at hrange
  obtain ⟨_ | captured, w'⟩ := res
  · exact hrange
  · obtain ⟨s', hat', rows, _, hrows, hvisit⟩ := hrange
    refine ⟨s', hat', Grown.visit (fun _ _ => rfl) wId dId ?_ hvisit⟩
    intro ol hol
    rw [((hrows ol).mp hol).1]
    exact Option.some_ne_none ol

/-- A district's delivery, from the new order it found. -/
theorem deliverFound_does (h : KeyedStore committed view T) {input : DeliveryTx.Input}
    (hinput : input.Generated) {dId : UInt8} (hs : Sound s) {no : NewOrder}
    (hw : no.noWId = input.wId) (hd : no.noDId = dId)
    (hfound : s.HasNewOrder input.wId dId no.noOId)
    (hleast : ∀ oId, 1 ≤ oId → s.HasNewOrder input.wId dId oId → no.noOId ≤ oId) :
    Does committed view c s (do
      let no ← T.require (T.prepareRecordForDelete .newOrder (TableId.createKey .newOrder no))
      T.require (T.finishDelete .newOrder no)
      let o ← T.require (T.prepareRecordForUpdate .order ⟨input.wId, dId, no.noOId⟩)
      let o : Order := { o with oCarrierId := input.oCarrierId }
      T.require (T.finishUpdate .order o)
      let total ← DeliveryTx.deliverOrderLines T ⟨o.oWId, o.oDId, o.oId, 1⟩
        ⟨o.oWId, o.oDId, o.oId + 1, 1⟩
      let c ← T.require (T.prepareRecordForUpdate .customer ⟨input.wId, dId, o.oCId⟩)
      T.require (T.finishUpdate .customer
        { c with cBalance := c.cBalance + total, cDeliveryCnt := c.cDeliveryCnt + 1 }))
      (fun _ => Sound) := by
  have hcarrier : input.oCarrierId ≠ 0 := by
    intro hz
    have hlow := hinput.1
    rw [hz] at hlow
    exact absurd hlow (by decide)
  refine (Does.require h (h.prepareDelete .newOrder _)).bind ?_
  rintro no' s ⟨hno', rfl⟩
  have hsame := (s.tables .newOrder).keyed _ _ hno'
  simp only [TableId.createKey, NewOrderKey.mk.injEq] at hsame
  refine (Does.require h (h.finishDelete .newOrder _)).bind ?_
  rintro _ _ rfl
  refine (Does.require h (h.prepareUpdate .order _)).bind ?_
  rintro o _ ⟨ho, rfl⟩
  refine (Does.require h (h.finishUpdate .order _)).bind ?_
  rintro _ s₁ hs₁
  have hsound : Sound s₁ := by
    rw [Store.erase_other _ _ (by decide), hsame.2.2] at ho
    subst hs₁
    rw [show TableId.createKey .newOrder no' = ⟨input.wId, dId, no.noOId⟩ by
      simp [TableId.createKey, hsame, hw, hd]]
    exact hs.deliver (o := o) rfl rfl hcarrier ho hfound hleast
  refine (deliverOrderLines_does h _ _ input.wId dId).bind ?_
  rintro total s₂ hlines
  refine (Does.require h (h.prepareUpdate .customer _)).bind ?_
  rintro cu _ ⟨_, rfl⟩
  refine (Does.require h (h.finishUpdate .customer _)).weaken ?_
  rintro _ _ rfl
  exact (hlines.trans (.put _ _ _ _ (Or.inr rfl))).sound hsound

theorem deliverDistrict_does (h : KeyedStore committed view T) {input : DeliveryTx.Input}
    (hinput : input.Generated) (dId : UInt8) (hs : Sound s) :
    Does committed view c s (DeliveryTx.deliverDistrict T input dId) (fun _ => Sound) := by
  unfold DeliveryTx.deliverDistrict
  refine (ask_replies (h.smallest _)).bind ?_
  intro res
  cases res with
  | fail =>
    rintro w ⟨hc, _, hv⟩
    exact ⟨s, ⟨hc, hv⟩, hs⟩
  | _ =>
    refine Script.Meets.bind (checked_does h (by simp)) ?_
    rintro no w ⟨s', hat, rfl, hw, hd, _, hfound, hleast⟩
    refine deliverFound_does h hinput hs hw hd ?_ hleast w hat
    rw [Store.HasNewOrder, hfound]
    exact Option.some_ne_none no

theorem delivery_commits (h : KeyedStore committed view T) {input : DeliveryTx.Input}
    (hinput : input.Generated) (hs : Sound s) :
    Commits committed view c s (DeliveryTx.run T input) Sound := by
  have hloop : Does committed view c s (Script.forEach
      (fun dId => DeliveryTx.deliverDistrict T input (UInt8.ofNat dId)) (List.range' 1 10))
      (fun _ => Sound) :=
    Does.forEach (n := 0) (I := fun _ => Sound) hs
      (fun dId _ _ _ hs => deliverDistrict_does h hinput (UInt8.ofNat dId) hs)
  exact hloop.commits (fun _ _ hs' => finish_commits h hs')

theorem payment_commits (h : KeyedStore committed view T) (input : PaymentTx.Input)
    (hs : Sound s) : Commits committed view c s (PaymentTx.run T input) Sound := by
  unfold PaymentTx.run
  refine (Does.require h (h.prepareUpdate .warehouse _)).commits ?_
  rintro wh s ⟨hw, rfl⟩
  refine (Does.require h (h.finishUpdate .warehouse _)).commits ?_
  rintro _ _ rfl
  refine (Does.require h (h.prepareUpdate .district _)).commits ?_
  rintro d _ ⟨hd, rfl⟩
  refine (Does.require h (h.finishUpdate .district _)).commits ?_
  rintro _ s₁ hs₁
  have hsound : Sound s₁ := by
    rw [Store.put_other _ _ (by decide)] at hd
    have hwkey := (s.tables .warehouse).keyed _ _ hw
    have hdkey := (s.tables .district).keyed _ _ hd
    rw [← hwkey] at hw
    rw [← hdkey] at hd
    simp only [TableId.createKey, WarehouseKey.mk.injEq, DistrictKey.mk.injEq] at hwkey hdkey
    subst hs₁
    exact hs.pay input.hAmount hw hd (hdkey.1.trans hwkey.symm)
  have hcustomer : Does committed view c s₁ (T.require (if input.byLastName then
      T.getCustomerByLastNameAndPrepareForUpdate input.cWId input.cDId input.cLast
      else T.prepareRecordForUpdate .customer ⟨input.cWId, input.cDId, input.cId⟩))
      (fun _ s' => s' = s₁) := by
    split
    · exact (Does.require h (h.byLastName _ _ _)).weaken (fun _ _ hq => hq.2.2)
    · exact (Does.require h (h.prepareUpdate .customer _)).weaken (fun _ _ hq => hq.2)
  refine hcustomer.commits ?_
  rintro cu _ rfl
  refine (Does.require h (h.finishUpdate .customer _)).commits ?_
  rintro _ _ rfl
  refine (Does.require h h.prepareHistory).commits ?_
  rintro _ _ rfl
  refine Does.getTimestamp.commits ?_
  rintro date _ rfl
  refine (Does.require h (h.finishHistory _)).commits ?_
  rintro _ _ rfl
  refine finish_commits h ?_
  exact ((Grown.put _ input.wId input.dId _ (Or.inr rfl)).trans (.history _ _ _ _)).sound hsound

end Profiles
end Mvdcc.Tpcc
