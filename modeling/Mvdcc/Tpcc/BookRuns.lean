import Mvdcc.Tpcc.QueryReports

namespace Mvdcc.Tpcc
open Library Transaction

section Openings

noncomputable def stockOpening (s : Store) : StockOpening where
  ytd k := ((s.tables .stock).find k).elim 0
    (fun st => st.sYtd - UInt32.ofNat (s.supplied k (fun ol => ol.olQuantity.toNat)))
  orderCnt k := ((s.tables .stock).find k).elim 0
    (fun st => st.sOrderCnt - UInt16.ofNat (s.supplied k (fun _ => 1)))
  remoteCnt k := ((s.tables .stock).find k).elim 0
    (fun st => st.sRemoteCnt - UInt16.ofNat (s.supplied k s.remote))

theorem stockBooks_opening (s : Store) : StockBooks (stockOpening s) s := by
  intro k st hst
  constructor <;> simp [stockOpening, hst]

noncomputable def moneyOpening (s : Store) : Opening where
  wYtd k := ((s.tables .warehouse).find k).elim 0
    (fun w => w.wYtd - s.paid (fun h => h.hWId = k.wId))
  dYtd k := ((s.tables .district).find k).elim 0
    (fun d => d.dYtd - s.paid (fun h => h.hWId = k.wId ∧ h.hDId = k.dId))
  balance k := ((s.tables .customer).find k).elim 0
    (fun c => c.cBalance - s.delivered k + s.paid (fun h => h.customer = k))
  ytdPayment k := ((s.tables .customer).find k).elim 0
    (fun c => c.cYtdPayment - s.paid (fun h => h.customer = k))
  paymentCnt k := ((s.tables .customer).find k).elim 0
    (fun c => c.cPaymentCnt - UInt16.ofNat (s.payments (fun h => h.customer = k)).length)
  deliveryCnt k := ((s.tables .customer).find k).elim 0
    (fun c => c.cDeliveryCnt - UInt16.ofNat (s.deliveries k))

theorem moneyBooks_opening (s : Store) : MoneyBooks (moneyOpening s) s := by
  refine ⟨?_, ?_, ?_⟩
  · intro k w hw
    simp [moneyOpening, hw]
  · intro k d hd
    simp [moneyOpening, hd]
  · intro k c hc
    refine ⟨?_, ?_, ?_, ?_⟩
    · simp only [moneyOpening, hc, Option.elim_some]
      linarith
    all_goals simp [moneyOpening, hc]

end Openings

section Runs
variable {τ : Type} {committed view : τ → Store} {T : QueryTransaction τ} {w w' : World τ}
variable {stock : StockOpening} {money : Opening} {c : Store}

/-- Between two calls nothing is uncommitted, and the books are kept. -/
def Kept (committed view : τ → Store) (stock : StockOpening) (money : Opening) (w : World τ) :
    Prop :=
  ∃ s, At committed view s s w ∧ Balanced stock money s

/-- Passes that fail are undone, up to one that commits or that its user aborts. -/
theorem runWithRetry_kept (h : KeyedStore committed view T.toTransaction) {Input : Type}
    {profile : Input → Script (World τ) Status Unit} {attempts : List (Attempt Input)}
    {done : Bool} (hs : Balanced stock money c) (hw : At committed view c c w)
    (hpublishes : ∀ a ∈ attempts,
      Publishes committed view 1 c c (profile a.input) (fun _ => Balanced stock money))
    (hrun : runWithRetry T.toTransaction profile attempts w = some (done, w')) :
    Kept committed view stock money w' := by
  induction attempts generalizing w with
  | nil => cases hrun
  | cons a rest ih =>
    have hpass := hpublishes a List.mem_cons_self
      { w with coins := a.coins, clock := w.clock + 1 } ⟨hw, Nat.succ_pos w.clock⟩
    unfold runWithRetry statusOf at hrun
    generalize profile a.input { w with coins := a.coins, clock := w.clock + 1 } = res
      at hpass hrun
    obtain ⟨st | _, w₁⟩ := res
    · obtain ⟨rfl | ⟨hc, rfl | ⟨rfl, hv⟩⟩, _⟩ := hpass
      · cases hrun
      · simp only [Option.some.injEq, Prod.mk.injEq] at hrun
        obtain ⟨_, rfl⟩ := hrun
        obtain ⟨hcommitted, hview⟩ := h.abort w₁.tx
        exact ⟨c, ⟨hcommitted.trans hc, hview.trans hc⟩, hs⟩
      · exact ih ⟨hc, hv⟩
          (fun a' ha' => hpublishes a' (List.mem_cons_of_mem _ ha')) hrun
    · simp only [Option.some.injEq, Prod.mk.injEq] at hrun
      obtain ⟨_, rfl⟩ := hrun
      obtain ⟨s, hstands, hbooks⟩ := hpass
      exact ⟨s, hstands.1, hbooks⟩

/-- A profile that only reports leaves everything as it was, and its report is that of the pass
that has committed. -/
theorem runForReport_reports (h : KeyedStore committed view T.toTransaction)
    {Input Report : Type} {profile : Input → Script (World τ) Status Report}
    {attempts : List (Attempt Input)} {res : Option (Input × Report)}
    {R : Input → Report → Prop} (hw : At committed view c c w)
    (hpublishes : ∀ a ∈ attempts,
      Publishes committed view 0 c c (profile a.input) (fun r s' => s' = c ∧ R a.input r))
    (hrun : runForReport T profile attempts w = some (res, w')) :
    At committed view c c w' ∧ ∀ i r, res = some (i, r) → R i r := by
  induction attempts generalizing w with
  | nil => cases hrun
  | cons a rest ih =>
    have hpass := hpublishes a List.mem_cons_self { w with coins := a.coins } ⟨hw, Nat.zero_le _⟩
    unfold runForReport at hrun
    generalize profile a.input { w with coins := a.coins } = out at hpass hrun
    obtain ⟨st | r, w₁⟩ := out
    · obtain ⟨rfl | ⟨hc, rfl | ⟨rfl, hv⟩⟩, _⟩ := hpass
      · cases hrun
      · simp only [Option.some.injEq, Prod.mk.injEq] at hrun
        obtain ⟨rfl, rfl⟩ := hrun
        obtain ⟨hcommitted, hview⟩ := h.abort w₁.tx
        exact ⟨⟨hcommitted.trans hc, hview.trans hc⟩, by simp⟩
      · exact ih ⟨hc, hv⟩
          (fun a' ha' => hpublishes a' (List.mem_cons_of_mem _ ha')) hrun
    · obtain ⟨s, hstands, rfl, hr⟩ := hpass
      simp only [Option.some.injEq, Prod.mk.injEq] at hrun
      obtain ⟨rfl, rfl⟩ := hrun
      refine ⟨hstands.1, ?_⟩
      rintro i r' heq
      obtain ⟨rfl, rfl⟩ := Prod.mk.inj (Option.some.inj heq)
      exact hr

/-- One completed call. -/
theorem Kept.step (h : KeyedQueries committed view T) (hw : Kept committed view stock money w)
    (hb : Bounded (committed w.tx)) {call : AnyCall} (hcall : call.Generated)
    (hstep : stepAny T call w = some w') : Kept committed view stock money w' := by
  obtain ⟨s, hat, hs⟩ := hw
  have hbounded : Bounded s := hat.1 ▸ hb
  have hkeyed := h.toKeyedStore
  cases call with
  | orderStatus attempts =>
    obtain ⟨⟨res, _⟩, hrun, rfl⟩ := Option.map_eq_some_iff.mp hstep
    exact ⟨s, (runForReport_reports hkeyed (R := fun input r => r.Truthful input s) hat
      (fun a _ => OrderStatusTx.run_reports h a.input hs.orders) hrun).1, hs⟩
  | stockLevel attempts =>
    obtain ⟨⟨res, _⟩, hrun, rfl⟩ := Option.map_eq_some_iff.mp hstep
    exact ⟨s, (runForReport_reports hkeyed
      (R := fun input n => StockLevelTx.Counts input s n) hat
      (fun a _ => StockLevelTx.run_counts h a.input hs.orders) hrun).1, hs⟩
  | update call =>
    cases call with
    | newOrder attempts =>
      obtain ⟨⟨_, _⟩, hrun, rfl⟩ := Option.map_eq_some_iff.mp hstep
      exact runWithRetry_kept hkeyed hs hat
        (fun a _ => newOrder_books hkeyed a.input hs hbounded) hrun
    | payment attempts =>
      obtain ⟨⟨_, _⟩, hrun, rfl⟩ := Option.map_eq_some_iff.mp hstep
      exact runWithRetry_kept hkeyed hs hat
        (fun a _ => payment_books hkeyed a.input hs) hrun
    | delivery attempts =>
      obtain ⟨⟨_, _⟩, hrun, rfl⟩ := Option.map_eq_some_iff.mp hstep
      exact runWithRetry_kept hkeyed hs hat
        (fun a ha => delivery_books hkeyed (hcall a ha) hs) hrun

/-- A run of completed calls, from a clean start, as long as no district runs out of order
ids. -/
structure CompletedRun (committed view : τ → Store) (T : QueryTransaction τ)
    (calls : List AnyCall) (w₀ w : World τ) : Prop where
  clean : view w₀.tx = committed w₀.tx
  generated : ∀ call ∈ calls, call.Generated
  bounded : ∀ u call u', (fullSystem T).Takes calls w₀ u call u' → Bounded (committed u.tx)
  run : (fullSystem T).run calls w₀ = some w

variable {calls : List AnyCall} {w₀ : World τ}

theorem CompletedRun.kept (hrun : CompletedRun committed view T calls w₀ w)
    (h : KeyedQueries committed view T) (hs : Balanced stock money (committed w₀.tx)) :
    Kept committed view stock money w := by
  obtain ⟨hclean, hcalls, hbounded, hrun⟩ := hrun
  have hstart : Kept committed view stock money w₀ := ⟨_, ⟨rfl, hclean⟩, hs⟩
  clear hclean hs
  induction calls generalizing w₀ with
  | nil =>
    simp only [TransitionSystem.run, Option.some.injEq] at hrun
    exact hrun ▸ hstart
  | cons call calls ih =>
    obtain ⟨u, hstep, hrest⟩ := Option.bind_eq_some_iff.mp hrun
    have hb := hbounded w₀ call u ⟨[], calls, rfl, rfl, hstep⟩
    refine ih (fun c hc => hcalls c (List.mem_cons_of_mem _ hc)) ?_ hrest
      (hstart.step h hb (hcalls call List.mem_cons_self) hstep)
    rintro v c v' ⟨before, after, rfl, hv, hc⟩
    refine hbounded v c v' ⟨call :: before, after, rfl, ?_, hc⟩
    simp only [TransitionSystem.run, hstep, Option.bind_some, hv]

theorem CompletedRun.balanced (hrun : CompletedRun committed view T calls w₀ w)
    (h : KeyedQueries committed view T) (hs : Balanced stock money (committed w₀.tx)) :
    Balanced stock money (committed w.tx) := by
  obtain ⟨s, hat, hbooks⟩ := hrun.kept h hs
  exact hat.1.symm ▸ hbooks

theorem CompletedRun.orders (hrun : CompletedRun committed view T calls w₀ w)
    (h : KeyedQueries committed view T) (hs : OrderBooks (committed w₀.tx)) :
    OrderBooks (committed w.tx) :=
  (hrun.balanced h ⟨hs, stockBooks_opening _, moneyBooks_opening _⟩).orders

end Runs
end Mvdcc.Tpcc
