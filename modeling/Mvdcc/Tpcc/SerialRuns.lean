import Mvdcc.Tpcc.Database
import Mvdcc.Tpcc.Execution

namespace Mvdcc.Tpcc
open Library Transaction

section Runs
variable {τ : Type} {committed view : τ → Store} {T : Transaction τ} {w w' : World τ}
variable {calls : List Call}

/-- Between two calls, nothing is uncommitted. -/
structure Settled (committed view : τ → Store) (w : World τ) : Prop where
  clean : view w.tx = committed w.tx
  sound : Sound (committed w.tx)

/-- Passes that fail are undone, up to one that commits or that its user aborts. -/
theorem runWithRetry_settled (h : KeyedStore committed view T) {Input : Type}
    {profile : Input → Script (World τ) Status Unit} {attempts : List (Attempt Input)}
    {done : Bool} {c : Store} (hs : Sound c) (hat : At committed view c c w)
    (hcommits : ∀ a ∈ attempts, Commits committed view c c (profile a.input) Sound)
    (hrun : runWithRetry T profile attempts w = some (done, w')) :
    Settled committed view w' := by
  induction attempts generalizing w with
  | nil => cases hrun
  | cons a rest ih =>
    have hpass :=
      hcommits a List.mem_cons_self { w with coins := a.coins, clock := w.clock + 1 } hat
    unfold runWithRetry statusOf at hrun
    generalize profile a.input { w with coins := a.coins, clock := w.clock + 1 } = res at hpass hrun
    obtain ⟨st | _, w₁⟩ := res
    · obtain ⟨hc, rfl | ⟨rfl, hv⟩⟩ := hpass
      · simp only [Option.some.injEq, Prod.mk.injEq] at hrun
        obtain ⟨_, rfl⟩ := hrun
        obtain ⟨hcommitted, hview⟩ := h.abort w₁.tx
        exact ⟨hview.trans hcommitted.symm, by rw [hcommitted, hc]; exact hs⟩
      · exact ih ⟨hc, hv⟩ (fun a' ha' => hcommits a' (List.mem_cons_of_mem _ ha')) hrun
    · obtain ⟨s, ⟨hc, hv⟩, hsound⟩ := hpass
      simp only [Option.some.injEq, Prod.mk.injEq] at hrun
      obtain ⟨_, rfl⟩ := hrun
      exact ⟨hv.trans hc.symm, by rw [hc]; exact hsound⟩

/-- One completed call. -/
theorem Settled.step (h : KeyedStore committed view T) (hw : Settled committed view w)
    (hb : Bounded (committed w.tx)) {call : Call} (hcall : call.Generated)
    (hstep : step T call w = some w') : Settled committed view w' := by
  have hat : At committed view (committed w.tx) (committed w.tx) w := ⟨rfl, hw.clean⟩
  cases call with
  | newOrder attempts =>
    obtain ⟨⟨_, _⟩, hrun, rfl⟩ := Option.map_eq_some_iff.mp hstep
    exact runWithRetry_settled h hw.sound hat
      (fun a _ => newOrder_commits h a.input hw.sound hb) hrun
  | payment attempts =>
    obtain ⟨⟨_, _⟩, hrun, rfl⟩ := Option.map_eq_some_iff.mp hstep
    exact runWithRetry_settled h hw.sound hat
      (fun a _ => payment_commits h a.input hw.sound) hrun
  | delivery attempts =>
    obtain ⟨⟨_, _⟩, hrun, rfl⟩ := Option.map_eq_some_iff.mp hstep
    exact runWithRetry_settled h hw.sound hat
      (fun a ha => delivery_commits h (hcall a ha) hw.sound) hrun

/-- After any finite sequence of completed calls the consistency conditions hold, as long as no
district runs out of order ids. -/
theorem runs_consistent (h : KeyedStore committed view T) {w₀ : World τ}
    (hclean : view w₀.tx = committed w₀.tx) (hconsistent : Consistent (committed w₀.tx))
    (hpositive : PositiveIds (committed w₀.tx)) (hcalls : ∀ call ∈ calls, call.Generated)
    (hbounded : ∀ u call u', (system T).Takes calls w₀ u call u' → Bounded (committed u.tx))
    (hrun : (system T).run calls w₀ = some w) : Consistent (committed w.tx) := by
  have hstart : Settled committed view w₀ := ⟨hclean, ⟨hconsistent, hpositive⟩⟩
  clear hclean hconsistent hpositive
  suffices hend : Settled committed view w from hend.sound.toConsistent
  induction calls generalizing w₀ with
  | nil =>
    simp only [TransitionSystem.run, Option.some.injEq] at hrun
    exact hrun ▸ hstart
  | cons call calls ih =>
    obtain ⟨u, hstep, hrest⟩ := Option.bind_eq_some_iff.mp hrun
    have hb := hbounded w₀ call u ⟨[], calls, rfl, rfl, hstep⟩
    refine ih (fun c hc => hcalls c (List.mem_cons_of_mem _ hc)) ?_ hrest
      (hstart.step h hb (hcalls call List.mem_cons_self) hstep)
    rintro v c v' ⟨before, after, rfl, hv, hc⟩
    refine hbounded v c v' ⟨call :: before, after, rfl, ?_, hc⟩
    simp only [TransitionSystem.run, hstep, Option.bind_some, hv]

end Runs

section Population
open Database

def pendingOrder (oId : UInt32) : Order where
  oWId := 1
  oDId := 1
  oId := oId
  oCId := 1
  oCarrierId := 0
  oOlCnt := 0
  oAllLocal := 1
  oEntryD := 0

/-- One district with its orders, all of them pending. -/
def population (ids : List UInt32) : Database where
  rows
    | .item => [⟨2, 1⟩]
    | .warehouse => [⟨1, 0⟩]
    | .stock => [⟨1, 2, 20, 0, 0, 0, []⟩]
    | .district => [⟨1, 1, 2, 0⟩]
    | .customer => [⟨1, 1, 1, 0, 0, 0, 0, ""⟩]
    | .order => ids.map pendingOrder
    | .newOrder => ids.map (fun oId => ⟨1, 1, oId⟩)
    | .orderLine => []
  history := []

variable {ids : List UInt32} {oId : UInt32}

theorem population_order {k : OrderKey} {o : Order}
    (h : (population ids).find .order k = some o) :
    k = ⟨1, 1, o.oId⟩ ∧ o = pendingOrder o.oId ∧ o.oId ∈ ids := by
  obtain ⟨hmem, rfl⟩ := mem_of_find h
  obtain ⟨oId, hid, rfl⟩ := List.mem_map.mp hmem
  exact ⟨rfl, rfl, hid⟩

theorem population_find_order (h : oId ∈ ids) :
    (population ids).find .order ⟨1, 1, oId⟩ = some (pendingOrder oId) := by
  have hsome : ((population ids).find .order ⟨1, 1, oId⟩).isSome :=
    List.find?_isSome.mpr ⟨pendingOrder oId, List.mem_map_of_mem h, decide_eq_true rfl⟩
  obtain ⟨o, ho⟩ := Option.isSome_iff_exists.mp hsome
  obtain ⟨hkey, heq, _⟩ := population_order ho
  simp only [OrderKey.mk.injEq, true_and] at hkey
  rw [ho, heq, ← hkey]

theorem population_hasNewOrder {wId : UInt16} {dId : UInt8} :
    (population ids).store.HasNewOrder wId dId oId ↔ wId = 1 ∧ dId = 1 ∧ oId ∈ ids := by
  rw [Store.HasNewOrder, find_store, ← Option.isSome_iff_ne_none]
  constructor
  · intro h
    obtain ⟨no, hno⟩ := Option.isSome_iff_exists.mp h
    obtain ⟨hmem, hkey⟩ := mem_of_find hno
    obtain ⟨i, hi, rfl⟩ := List.mem_map.mp hmem
    simp only [TableId.createKey, NewOrderKey.mk.injEq] at hkey
    obtain ⟨rfl, rfl, rfl⟩ := hkey
    exact ⟨rfl, rfl, hi⟩
  · rintro ⟨rfl, rfl, h⟩
    have hmem : (⟨1, 1, oId⟩ : NewOrder) ∈ (population ids).rows .newOrder :=
      List.mem_map.mpr ⟨oId, h, rfl⟩
    exact Option.isSome_iff_exists.mpr ⟨_, find_of_mem hmem⟩

theorem population_consistent (hnodup : ids.Nodup) {m : Nat}
    (hids : ∀ oId : UInt32, oId ∈ ids ↔ m ≤ oId.toNat ∧ oId.toNat + 1 ≤ 2) (hm : m ≤ 1) :
    Consistent (population ids).store := by
  refine ⟨?_, ?_⟩
  · intro k w hw
    obtain ⟨hmem, _⟩ := mem_of_find hw
    obtain rfl := List.mem_singleton.mp hmem
    have hkeys : (((population ids).rows .district).map (TableId.createKey .district)).Nodup :=
      List.nodup_singleton _
    change (0 : ℚ) = (Table.ofRows _ _).total _
    rw [Table.total_ofRows hkeys]
    simp [population]
  · intro k d hd
    obtain ⟨hmem, _⟩ := mem_of_find hd
    obtain rfl := List.mem_singleton.mp hmem
    refine ⟨⟨pendingOrder 1, population_find_order ((hids 1).mpr ⟨hm, by decide⟩), rfl⟩, ?_,
      ⟨m, fun oId => ?_⟩, ?_, ?_⟩
    · intro oId ho
      obtain ⟨o, ho⟩ := Option.ne_none_iff_exists'.mp ho
      obtain ⟨hkey, _, hid⟩ := population_order ho
      simp only [OrderKey.mk.injEq, true_and] at hkey
      rw [hkey]
      exact ((hids _).mp hid).2
    · rw [population_hasNewOrder, hids]
      simp
    · have hkeys : (((population ids).rows .order).map (TableId.createKey .order)).Nodup := by
        rw [population, List.map_map]
        exact hnodup.map (fun _ _ h => by simpa [pendingOrder] using h)
      have hlines : (((population ids).rows .orderLine).map
          (TableId.createKey .orderLine)).Nodup := List.nodup_nil
      change (Table.ofRows _ _).total _ = (Table.ofRows _ _).total _
      rw [Table.total_ofRows hkeys, Table.total_ofRows hlines]
      simp [population, pendingOrder, Function.comp_def]
    · intro oId o ho
      obtain ⟨hkey, heq, hid⟩ := population_order ho
      simp only [OrderKey.mk.injEq, true_and] at hkey
      rw [population_hasNewOrder, hkey]
      refine iff_of_true ?_ ⟨rfl, rfl, hid⟩
      rw [heq]
      rfl

def idsLeft (x : Database) : Bool :=
  (x.rows .district).all (fun d => d.dNextOId.toNat < 2 ^ 32 - 1)

/-- Bounds along a run, read off the rows. -/
theorem bounded_of_idsLeft {calls : List Call} {w₀ : World Tx}
    (h : ∀ n < calls.length, ((system transaction).run (calls.take n) w₀).all
      (fun u => idsLeft u.tx.base) = true) (u : World Tx) (call : Call) (u' : World Tx)
    (htakes : (system transaction).Takes calls w₀ u call u') : Bounded (committed u.tx) := by
  obtain ⟨before, after, rfl, hu, _⟩ := htakes
  have hbefore := h before.length (by simp)
  rw [List.take_left, hu] at hbefore
  intro k d hd
  exact of_decide_eq_true (List.all_eq_true.mp hbefore d (mem_of_find hd).1)

def initial (ids : List UInt32) : World Tx := ⟨⟨population ids, population ids⟩, [], 0⟩

def payment : PaymentTx.Input := ⟨1, 1, 1, 1, 1, 10, false, ""⟩

def newOrder : NewOrderTx.Input := ⟨1, 1, 1, 2, false, false, fun _ => ⟨1, 2, 3⟩⟩

/-- An order that is retried after an abort, a payment, and a delivery. -/
def oneOfEach : List Call :=
  [.newOrder [⟨newOrder, [false, true]⟩, ⟨newOrder, []⟩], .payment [⟨payment, []⟩],
    .delivery [⟨⟨1, 1⟩, []⟩]]

theorem runs_consistent_one_of_each :
    ∃ w, (system transaction).run oneOfEach (initial [1]) = some w ∧
      Consistent (committed w.tx) := by
  have hrun : ((system transaction).run oneOfEach (initial [1])).isSome := by decide +kernel
  obtain ⟨w, hw⟩ := Option.isSome_iff_exists.mp hrun
  have hstart : Consistent (committed (initial [1]).tx) := by
    refine population_consistent (m := 1) (by decide) ?_ (by decide)
    intro oId
    rw [List.mem_singleton, ← UInt32.toNat_inj]
    change oId.toNat = 1 ↔ _
    omega
  refine ⟨w, hw, runs_consistent keyedStore rfl hstart ?_ ?_
    (bounded_of_idsLeft (by decide +kernel)) hw⟩
  · intro wId dId h
    exact absurd (population_hasNewOrder.mp h).2.2 (by decide)
  · intro call hcall
    simp only [oneOfEach, List.mem_cons, List.not_mem_nil, or_false] at hcall
    obtain rfl | rfl | rfl := hcall
    · trivial
    · trivial
    · intro a ha
      obtain rfl := List.mem_singleton.mp ha
      exact ⟨by decide, by decide⟩

def oneDelivery : List Call := [.delivery [⟨⟨1, 1⟩, []⟩]]

/-- With an order 0 the conditions do not carry over: the delivery takes order 1 first. -/
theorem delivery_passes_over_zero :
    ¬ ∀ (τ : Type) (committed view : τ → Store) (T : Transaction τ) (calls : List Call)
      (w₀ w : World τ), KeyedStore committed view T → view w₀.tx = committed w₀.tx →
      Consistent (committed w₀.tx) → (∀ call ∈ calls, call.Generated) →
      (∀ u call u', (system T).Takes calls w₀ u call u' → Bounded (committed u.tx)) →
      (system T).run calls w₀ = some w → Consistent (committed w.tx) := by
  intro h
  have hrun : ((system transaction).run oneDelivery (initial [0, 1])).map (fun w =>
        (w.tx.base.find .newOrder ⟨1, 1, 0⟩, w.tx.base.find .newOrder ⟨1, 1, 1⟩,
          (w.tx.base.find .district ⟨1, 1⟩).map District.dNextOId)) =
      some (some ⟨1, 1, 0⟩, none, some 2) := by
    decide +kernel
  obtain ⟨w, hw, hafter⟩ := Option.map_eq_some_iff.mp hrun
  simp only [Prod.mk.injEq, Option.map_eq_some_iff] at hafter
  obtain ⟨hzero, hone, d, hd, hnext⟩ := hafter
  have hstart : Consistent (committed (initial [0, 1]).tx) := by
    refine population_consistent (m := 0) (by decide) ?_ (by decide)
    intro oId
    rw [List.mem_cons, List.mem_singleton, ← UInt32.toNat_inj, ← UInt32.toNat_inj]
    change oId.toNat = 0 ∨ oId.toNat = 1 ↔ _
    omega
  have hgenerated : ∀ call ∈ oneDelivery, call.Generated := by
    intro call hcall
    obtain rfl := List.mem_singleton.mp hcall
    intro a ha
    obtain rfl := List.mem_singleton.mp ha
    exact ⟨by decide, by decide⟩
  have hconsistent := h Tx committed Database.view transaction oneDelivery (initial [0, 1]) w
    keyedStore rfl hstart hgenerated (bounded_of_idsLeft (by decide +kernel)) hw
  obtain ⟨_, hkey⟩ := mem_of_find hd
  simp only [TableId.createKey, DistrictKey.mk.injEq] at hkey
  obtain ⟨m, hm⟩ := (hconsistent.districts _ d hd).newOrders
  rw [hkey.1, hkey.2, hnext] at hm
  have hlow := (hm 0).mp (fun hn => Option.some_ne_none _ (hzero.symm.trans hn))
  exact (hm 1).mpr ⟨hlow.1.trans (Nat.zero_le _), by decide⟩ hone

end Population
end Mvdcc.Tpcc
