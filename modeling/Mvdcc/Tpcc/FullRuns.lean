import Mvdcc.Tpcc.BookRuns
import Mvdcc.Tpcc.SerialRuns

namespace Mvdcc.Tpcc
open Library Transaction

section Results
variable {τ : Type} {committed view : τ → Store} {T : QueryTransaction τ} {w₀ w w' : World τ}
variable {calls : List AnyCall} {stock : StockOpening} {money : Opening}

/-- Whatever profiles run, every order has the lines that it says, numbered from one and dated
when a carrier has them, and a new-order row as long as none has. -/
theorem orders_kept (h : KeyedQueries committed view T)
    (hrun : CompletedRun committed view T calls w₀ w) (hs : OrderBooks (committed w₀.tx)) :
    OrderBooks (committed w.tx) :=
  hrun.orders h hs

/-- The counters of every stock row count the lines that it has supplied. -/
theorem stock_kept (h : KeyedQueries committed view T)
    (hrun : CompletedRun committed view T calls w₀ w) (hs : OrderBooks (committed w₀.tx))
    (hstock : StockBooks stock (committed w₀.tx)) : StockBooks stock (committed w.tx) :=
  (hrun.balanced h ⟨hs, hstock, moneyBooks_opening _⟩).stock

/-- The accounts of customers, districts and warehouses show every payment in the history and
every delivered line. -/
theorem money_kept (h : KeyedQueries committed view T)
    (hrun : CompletedRun committed view T calls w₀ w) (hs : OrderBooks (committed w₀.tx))
    (hmoney : MoneyBooks money (committed w₀.tx)) : MoneyBooks money (committed w.tx) :=
  (hrun.balanced h ⟨hs, stockBooks_opening _, hmoney⟩).money

end Results

deriving instance DecidableEq for Order

section Rows
open Database

def Database.Tx.sortedRange (low up : OrderLineKey) (x : Database) : List OrderLine :=
  (inRange low up x).insertionSort (fun a b =>
    (TableId.createKey .orderLine a).rawKey ≤ (TableId.createKey .orderLine b).rawKey)

def Database.Tx.ordersOf (cWId : UInt16) (cDId : UInt8) (cId : UInt32) (x : Database) :
    List Order :=
  (x.rows .order).filter (fun o => x.find .order (TableId.createKey .order o) = some o ∧
    o.oWId = cWId ∧ o.oDId = cDId ∧ o.oCId = cId)

/-- The same database, with the lookups of the profiles that only read. -/
def Database.queries : QueryTransaction Tx where
  toTransaction := transaction
  getCustomerByLastName := fun cWId cDId cLast x =>
    x.succeed (Tx.byLastName cWId cDId cLast x.copy)
  getOrderByCustomerId := fun cWId cDId cId x =>
    match (Tx.ordersOf cWId cDId cId x.copy).argmax (fun o => o.oId.toNat) with
    | some o => (.success o, x)
    | none => (.fail, x)
  rangeQuery := fun low up x => x.succeed (some (Tx.sortedRange low up x.copy))

variable {x : Database} {cWId : UInt16} {cDId : UInt8} {cId : UInt32} {o : Order}

theorem mem_ordersOf : o ∈ Tx.ordersOf cWId cDId cId x ↔
    x.find .order ⟨cWId, cDId, o.oId⟩ = some o ∧ o.oCId = cId := by
  unfold Tx.ordersOf
  rw [List.mem_filter, decide_eq_true_iff]
  constructor
  · rintro ⟨_, hfind, rfl, rfl, rfl⟩
    exact ⟨hfind, rfl⟩
  · rintro ⟨hfind, rfl⟩
    obtain ⟨hmem, hkey⟩ := mem_of_find hfind
    have hkey' := hkey
    simp only [TableId.createKey, OrderKey.mk.injEq] at hkey'
    exact ⟨hmem, by rw [hkey, hfind], hkey'.1, hkey'.2.1, rfl⟩

theorem sortedRange_pairwise (low up : OrderLineKey) (x : Database) :
    (Tx.sortedRange low up x).Pairwise (fun a b =>
      (TableId.createKey .orderLine a).rawKey < (TableId.createKey .orderLine b).rawKey) := by
  have hsorted : (Tx.sortedRange low up x).Pairwise (fun a b =>
      (TableId.createKey .orderLine a).rawKey ≤ (TableId.createKey .orderLine b).rawKey) :=
    List.pairwise_insertionSort _ _
  have hnodup : (Tx.sortedRange low up x).Nodup :=
    (List.perm_insertionSort _ _).nodup_iff.mpr (List.nodup_dedup _)
  refine (hsorted.and hnodup).imp_of_mem (fun {a b} ha hb hab => lt_of_le_of_ne hab.1 ?_)
  have hfound : ∀ ol ∈ Tx.sortedRange low up x,
      x.find .orderLine (TableId.createKey .orderLine ol) = some ol := by
    intro ol hol
    have hin := (List.perm_insertionSort _ _).mem_iff.mp hol
    exact (of_decide_eq_true (List.mem_filter.mp (List.mem_dedup.mp hin)).2).1
  intro heq
  have hkey := OrderLineKey.sortsAs.injective heq
  have hfind := hfound a ha
  rw [hkey, hfound b hb] at hfind
  exact hab.2 (Option.some.inj hfind).symm

theorem keyedQueries : KeyedQueries committed Database.view queries where
  toKeyedStore := keyedStore
  named := fun cWId cDId cLast =>
    succeed_serves (Tx.byLastName cWId cDId cLast) (fun x c h => by
      have hc := List.find?_some h
      rw [decide_eq_true_iff] at hc
      obtain ⟨hfind, hw, hd, hlast⟩ := hc
      subst hw hd
      exact ⟨hfind, hlast, rfl⟩)
  newest := by
    intro cWId cDId cId x
    dsimp only [queries]
    cases hmax : (Tx.ordersOf cWId cDId cId x.copy).argmax (fun o => o.oId.toNat) with
    | some o =>
      obtain ⟨hfind, hmine⟩ := mem_ordersOf.mp (List.argmax_mem hmax)
      refine ⟨rfl, hfind, hmine, fun o' ho' hmine' => ?_, rfl⟩
      exact UInt32.le_iff_toNat_le.mpr
        (List.le_of_mem_argmax (f := fun o : Order => o.oId.toNat) (mem_ordersOf.mpr ⟨ho', hmine'⟩) hmax)
    | none =>
      refine ⟨rfl, fun oId o ho hmine => ?_, rfl⟩
      have hkey := (mem_of_find ho).2
      simp only [TableId.createKey, OrderKey.mk.injEq] at hkey
      have hin : o ∈ Tx.ordersOf cWId cDId cId x.copy :=
        mem_ordersOf.mpr ⟨by rw [hkey.2.2]; exact ho, hmine⟩
      rw [List.argmax_eq_none.mp hmax] at hin
      cases hin
  query := by
    intro low up x
    refine ⟨rfl, sortedRange_pairwise low up x.copy, fun ol => ?_, rfl⟩
    unfold Tx.sortedRange Tx.inRange
    rw [(List.perm_insertionSort _ _).mem_iff, List.mem_dedup, List.mem_filter,
      decide_eq_true_iff]
    exact and_iff_right_of_imp (fun h => (mem_of_find h.1).1)

end Rows

section Examples
open Database

/-- The population with one order, in a district that goes on from order 30. -/
def thirtieth : Database where
  rows
    | .district => [⟨1, 1, 30, 0⟩]
    | tb => (population [1]).rows tb
  history := []

def start : World Tx := ⟨⟨thirtieth, thirtieth⟩, [], 0⟩

theorem start_orderBooks : OrderBooks (committed start.tx) := by
  have horder : ∀ k o, ((committed start.tx).tables .order).find k = some o →
      k = ⟨1, 1, 1⟩ ∧ o = pendingOrder 1 := by
    intro k o ho
    obtain ⟨hkey, heq, hid⟩ := @population_order [1] _ _ ho
    rw [List.mem_singleton] at hid
    rw [hid] at hkey heq
    exact ⟨hkey, heq⟩
  refine ⟨?_, ?_, ?_, ?_⟩
  · intro w d i
    refine (@population_hasNewOrder [1] _ _ _).trans ⟨?_, ?_⟩
    · rintro ⟨rfl, rfl, hi⟩
      exact ⟨_, population_find_order hi, rfl⟩
    · rintro ⟨o, ho, _⟩
      have hkey := (horder _ o ho).1
      simp only [OrderKey.mk.injEq] at hkey
      exact ⟨hkey.1, hkey.2.1, List.mem_singleton.mpr hkey.2.2⟩
  · intro k
    refine iff_of_false (fun hn => hn rfl) ?_
    rintro ⟨o, ho, hlo, hhi⟩
    rw [(horder _ o ho).2] at hhi
    exact absurd (hlo.trans hhi) (by decide)
  · intro k ol o hol
    cases hol
  · intro k o ho
    rw [(horder k o ho).1]
    decide

def orderStatus : OrderStatusTx.Input := ⟨1, 1, 1, false, ""⟩

def stockLevel : StockLevelTx.Input := ⟨1, 1, 20⟩

def allFive : List AnyCall :=
  oneOfEach.map .update ++ [.update (.delivery [⟨⟨1, 1⟩, []⟩]), .orderStatus [⟨orderStatus, []⟩],
    .stockLevel [⟨stockLevel, []⟩]]

theorem allFive_completed {f : World Tx → α} {a : α}
    (h : ((fullSystem queries).run allFive start).map f = some a) :
    ∃ w, CompletedRun committed Database.view queries allFive start w ∧ f w = a := by
  obtain ⟨w, hw, hf⟩ := Option.map_eq_some_iff.mp h
  refine ⟨w, ⟨rfl, ?_, ?_, hw⟩, hf⟩
  · intro call hcall
    simp only [allFive, oneOfEach, List.map_cons, List.map_nil, List.cons_append, List.nil_append,
      List.mem_cons, List.not_mem_nil, or_false] at hcall
    obtain rfl | rfl | rfl | rfl | rfl | rfl := hcall
    · trivial
    · trivial
    · intro a ha
      obtain rfl := List.mem_singleton.mp ha
      exact ⟨by decide, by decide⟩
    · intro a ha
      obtain rfl := List.mem_singleton.mp ha
      exact ⟨by decide, by decide⟩
    · trivial
    · trivial
  · rintro u call u' ⟨before, after, hlist, hu, _⟩
    have hleft : ∀ n < allFive.length, ((fullSystem queries).run (allFive.take n) start).all
        (fun u => idsLeft u.tx.base) = true := by
      decide +kernel
    have hbefore := hleft before.length (by rw [hlist]; simp)
    rw [hlist, List.take_left, hu] at hbefore
    intro k d hd
    exact of_decide_eq_true (List.all_eq_true.mp hbefore d (mem_of_find hd).1)

theorem allFive_done : ((fullSystem queries).run allFive start).map (fun _ => ()) = some () := by
  decide +kernel

theorem orders_kept_allFive : ∃ w, CompletedRun committed Database.view queries allFive start w ∧
    OrderBooks (committed w.tx) := by
  obtain ⟨w, hw, _⟩ := allFive_completed allFive_done
  exact ⟨w, hw, orders_kept keyedQueries hw start_orderBooks⟩

theorem stock_kept_allFive : ∃ w, CompletedRun committed Database.view queries allFive start w ∧
    StockBooks (stockOpening (committed start.tx)) (committed w.tx) := by
  obtain ⟨w, hw, _⟩ := allFive_completed allFive_done
  exact ⟨w, hw, stock_kept keyedQueries hw start_orderBooks (stockBooks_opening _)⟩

theorem money_kept_allFive : ∃ w, CompletedRun committed Database.view queries allFive start w ∧
    MoneyBooks (moneyOpening (committed start.tx)) (committed w.tx) := by
  obtain ⟨w, hw, _⟩ := allFive_completed allFive_done
  exact ⟨w, hw, money_kept keyedQueries hw start_orderBooks (moneyBooks_opening _)⟩

end Examples
end Mvdcc.Tpcc
