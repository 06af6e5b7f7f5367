import Mathlib.Algebra.BigOperators.Ring.Finset
import Mathlib.Data.Rat.Cast.Defs
import Mvdcc.Tpcc.Profiles

namespace Mvdcc.Tpcc
open Library

namespace Store

noncomputable def districtYtd (s : Store) (wId : UInt16) : ℚ :=
  (s.tables .district).total (fun d => if d.dWId = wId then d.dYtd else 0)

noncomputable def orderedLines (s : Store) (wId : UInt16) (dId : UInt8) : Nat :=
  (s.tables .order).total (fun o => if o.oWId = wId ∧ o.oDId = dId then o.oOlCnt.toNat else 0)

noncomputable def orderLines (s : Store) (wId : UInt16) (dId : UInt8) : Nat :=
  (s.tables .orderLine).total (fun ol => if ol.olWId = wId ∧ ol.olDId = dId then 1 else 0)

def HasNewOrder (s : Store) (wId : UInt16) (dId : UInt8) (oId : UInt32) : Prop :=
  (s.tables .newOrder).find ⟨wId, dId, oId⟩ ≠ none

end Store

/-- The conditions on one district. The new orders are those from some id on, up to the
greatest one, or there are none. -/
structure DistrictConsistent (s : Store) (d : District) : Prop where
  latest : ∃ o, (s.tables .order).find ⟨d.dWId, d.dId, o.oId⟩ = some o ∧
    o.oId.toNat + 1 = d.dNextOId.toNat
  greatest : ∀ oId, (s.tables .order).find ⟨d.dWId, d.dId, oId⟩ ≠ none →
    oId.toNat + 1 ≤ d.dNextOId.toNat
  newOrders : ∃ m : Nat, ∀ oId : UInt32, s.HasNewOrder d.dWId d.dId oId ↔
    m ≤ oId.toNat ∧ oId.toNat + 1 ≤ d.dNextOId.toNat
  lines : s.orderedLines d.dWId d.dId = s.orderLines d.dWId d.dId
  carrier : ∀ oId o, (s.tables .order).find ⟨d.dWId, d.dId, oId⟩ = some o →
    (o.oCarrierId = 0 ↔ s.HasNewOrder d.dWId d.dId oId)

structure Consistent (s : Store) : Prop where
  ytd : ∀ k w, (s.tables .warehouse).find k = some w → w.wYtd = s.districtYtd w.wId
  districts : ∀ k d, (s.tables .district).find k = some d → DistrictConsistent s d

def PositiveIds (s : Store) : Prop := ∀ wId dId, ¬ s.HasNewOrder wId dId 0

/-- No district is about to run out of order ids. -/
def Bounded (s : Store) : Prop :=
  ∀ k d, (s.tables .district).find k = some d → d.dNextOId.toNat < 2 ^ 32 - 1

section Lines
variable {s s' s'' : Store} {wId wId' : UInt16} {dId dId' : UInt8} {n m : Nat}

/-- Nothing that the conditions read has changed, but for new order lines of one district. -/
structure Grown (wId : UInt16) (dId : UInt8) (n : Nat) (s s' : Store) : Prop where
  warehouse : s'.tables .warehouse = s.tables .warehouse
  district : s'.tables .district = s.tables .district
  order : s'.tables .order = s.tables .order
  newOrder : s'.tables .newOrder = s.tables .newOrder
  lines : ∀ w d, s'.orderLines w d = s.orderLines w d + if w = wId ∧ d = dId then n else 0

theorem Grown.refl (wId : UInt16) (dId : UInt8) (s : Store) : Grown wId dId 0 s s :=
  ⟨rfl, rfl, rfl, rfl, by simp⟩

theorem Grown.trans (h : Grown wId dId n s s') (h' : Grown wId dId m s' s'') :
    Grown wId dId (n + m) s s'' := by
  refine ⟨h'.warehouse.trans h.warehouse, h'.district.trans h.district, h'.order.trans h.order,
    h'.newOrder.trans h.newOrder, ?_⟩
  intro w d
  rw [h'.lines, h.lines]
  split <;> omega

/-- Rows of the other tables do not matter. -/
theorem Grown.put {tb : TableId} (r : tb.Record) (wId : UInt16) (dId : UInt8) (s : Store)
    (h : tb = .stock ∨ tb = .customer) : Grown wId dId 0 s (s.put tb r) := by
  have hsame : ∀ tb', tb' ≠ tb → (s.put tb r).tables tb' = s.tables tb' :=
    fun tb' hne => Store.put_other s r hne
  rcases h with rfl | rfl <;>
    exact ⟨hsame _ (by decide), hsame _ (by decide), hsame _ (by decide), hsame _ (by decide),
      by simp [Store.orderLines, hsame .orderLine (by decide)]⟩

/-- An order line under a new key. -/
theorem Grown.insert {ol : OrderLine}
    (h : (s.tables .orderLine).find (TableId.createKey .orderLine ol) = none)
    (hw : ol.olWId = wId) (hd : ol.olDId = dId) : Grown wId dId 1 s (s.put .orderLine ol) := by
  subst hw hd
  have hsame : ∀ tb, tb ≠ .orderLine → (s.put .orderLine ol).tables tb = s.tables tb :=
    fun tb hne => Store.put_other s ol hne
  refine ⟨hsame _ (by decide), hsame _ (by decide), hsame _ (by decide), hsame _ (by decide), ?_⟩
  intro w d
  unfold Store.orderLines
  rw [Store.put_self, Table.total_put_new h, Nat.add_comm]
  simp only [eq_comm]

/-- An order line whose key is there already. -/
theorem Grown.replace {ol ol' : OrderLine}
    (h : (s.tables .orderLine).find (TableId.createKey .orderLine ol) = some ol')
    (wId : UInt16) (dId : UInt8) : Grown wId dId 0 s (s.put .orderLine ol) := by
  have hsame : ∀ tb, tb ≠ .orderLine → (s.put .orderLine ol).tables tb = s.tables tb :=
    fun tb hne => Store.put_other s ol hne
  have hkey := (s.tables .orderLine).keyed _ _ h
  simp only [TableId.createKey, OrderLineKey.mk.injEq] at hkey
  refine ⟨hsame _ (by decide), hsame _ (by decide), hsame _ (by decide), hsame _ (by decide), ?_⟩
  intro w d
  have htotal := Table.total_put (f := fun ol : OrderLine =>
    if ol.olWId = w ∧ ol.olDId = d then 1 else 0) h
  simp only [hkey.1, hkey.2.1] at htotal
  unfold Store.orderLines
  rw [Store.put_self, Nat.add_right_cancel htotal]
  simp

/-- The history does not matter. -/
theorem Grown.history (hs : List History) (wId : UInt16) (dId : UInt8) (s : Store) :
    Grown wId dId 0 s { s with history := hs } :=
  ⟨rfl, rfl, rfl, rfl, fun _ _ => by simp [Store.orderLines]⟩

/-- A lambda that keeps the keys adds no order line. -/
theorem Grown.visit {f : Captured → OrderLine → Captured × OrderLine}
    (hf : ∀ c ol, TableId.createKey .orderLine (f c ol).2 = TableId.createKey .orderLine ol)
    (wId : UInt16) (dId : UInt8) {rows : List OrderLine} {c c' : Captured}
    (hrows : ∀ ol ∈ rows, (s.tables .orderLine).find (TableId.createKey .orderLine ol) ≠ none)
    (h : visit f rows c s = (c', s')) : Grown wId dId 0 s s' := by
  induction rows generalizing c s with
  | nil =>
    simp only [Tpcc.visit, Prod.mk.injEq] at h
    exact h.2 ▸ .refl wId dId s
  | cons ol rows ih =>
    obtain ⟨old, hold⟩ := Option.ne_none_iff_exists'.mp (hrows ol List.mem_cons_self)
    have hput : Grown wId dId 0 s (s.put .orderLine (f c ol).2) :=
      .replace (by rw [hf, hold]) wId dId
    refine hput.trans (ih ?_ h)
    intro ol' hmem
    rw [Store.put_self, Table.find_put]
    split
    · exact Option.some_ne_none _
    · exact hrows ol' (List.mem_cons_of_mem _ hmem)

end Lines
end Mvdcc.Tpcc
