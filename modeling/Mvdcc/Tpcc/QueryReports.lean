import Mvdcc.Library.Ascending
import Mvdcc.Tpcc.BookProfiles

namespace Mvdcc.Tpcc
open Library Transaction

section Lines
variable {s : Store} {o : Order} {rows : List OrderLine}

/-- Lines of one order, in the order of their keys, are those from 1 to `o_ol_cnt`. -/
theorem numbers_of_rows (hs : OrderBooks s)
    (ho : (s.tables .order).find (TableId.createKey .order o) = some o)
    (hsorted : rows.Pairwise (fun a b =>
      (TableId.createKey .orderLine a).rawKey < (TableId.createKey .orderLine b).rawKey))
    (hrows : ∀ ol, ol ∈ rows ↔ (s.tables .orderLine).find (TableId.createKey .orderLine ol) = some ol ∧
      ol.order = TableId.createKey .order o) :
    rows.map (fun ol => ol.olNumber.toNat) = List.range' 1 o.oOlCnt.toNat := by
  refine pairwise_lt_ext ?_ List.pairwise_lt_range' (fun n => ?_)
  · rw [List.pairwise_map]
    refine hsorted.imp_of_mem (fun {a b} ha hb hlt => ?_)
    have hab := ((hrows a).mp ha).2.trans ((hrows b).mp hb).2.symm
    simp only [OrderLine.order, OrderKey.mk.injEq] at hab
    simp only [OrderLineKey.rawKey, hab] at hlt
    omega
  · rw [List.mem_map, List.mem_range'_1]
    constructor
    · rintro ⟨ol, hol, rfl⟩
      obtain ⟨hfind, horder⟩ := (hrows ol).mp hol
      obtain ⟨o', ho', hlo, hhi⟩ := (hs.lines _).mp (by rw [hfind]; exact Option.some_ne_none ol)
      rw [← order_of_find hfind, horder, ho] at ho'
      obtain rfl := Option.some.inj ho'
      exact ⟨hlo, Nat.lt_one_add_iff.mpr hhi⟩
    · rintro ⟨hlo, hhi⟩
      have hcnt := o.oOlCnt.toNat_lt
      have hnum : (UInt8.ofNat n).toNat = n :=
        UInt8.toNat_ofNat_of_lt' (by rw [UInt8.size]; omega)
      have hthere := (hs.lines ⟨o.oWId, o.oDId, o.oId, UInt8.ofNat n⟩).mpr
        ⟨o, ho, by rw [hnum]; exact hlo, by rw [hnum]; omega⟩
      obtain ⟨ol, hol⟩ := Option.ne_none_iff_exists'.mp hthere
      have hkey := (s.tables .orderLine).keyed _ _ hol
      refine ⟨ol, (hrows ol).mpr ⟨by rw [hkey, hol], order_of_find hol⟩, ?_⟩
      have hnumber := congrArg OrderLineKey.olNumber hkey
      rw [show ol.olNumber = UInt8.ofNat n from hnumber, hnum]

end Lines

namespace OrderStatusTx

/-- What a report says of the store: the newest order of the customer, and all of its lines by
their numbers, delivered when the order has a carrier. -/
structure Report.Truthful (r : Report) (input : Input) (s : Store) : Prop where
  newest : ∃ c o, (s.tables .customer).find ⟨input.wId, input.dId, c.cId⟩ = some c ∧
    (if input.byLastName then c.cLast = input.cLast else c.cId = input.cId) ∧
    r.cLast = c.cLast ∧ r.cBalance = c.cBalance ∧
    (s.tables .order).find ⟨input.wId, input.dId, r.oId⟩ = some o ∧ o.oCId = c.cId ∧
    (∀ o', (s.tables .order).find ⟨input.wId, input.dId, o'.oId⟩ = some o' → o'.oCId = c.cId →
      o'.oId ≤ r.oId) ∧
    r.oEntryD = o.oEntryD ∧ r.oCarrierId = o.oCarrierId ∧ r.lines.length = o.oOlCnt.toNat
  lines : ∀ i < r.lines.length, ∃ ol,
    (s.tables .orderLine).find ⟨input.wId, input.dId, r.oId, UInt8.ofNat (i + 1)⟩ = some ol ∧
    r.lines[i]? = some (report ol) ∧ (ol.olDeliveryD = 0 ↔ r.oCarrierId = 0)

variable {τ : Type} {committed view : τ → Store} {T : QueryTransaction τ} {c s : Store}

theorem run_reports (h : KeyedQueries committed view T) (input : Input) (hs : OrderBooks s) :
    Publishes committed view 0 c s (run T input) (fun r s' => s' = s ∧ r.Truthful input s) := by
  unfold run
  have hcustomer : Works committed view 0 c s (T.require (if input.byLastName then
      T.getCustomerByLastName input.wId input.dId input.cLast
      else T.getRecord .customer ⟨input.wId, input.dId, input.cId⟩))
      (fun cu s' => (s.tables .customer).find ⟨input.wId, input.dId, cu.cId⟩ = some cu ∧
        (if input.byLastName then cu.cLast = input.cLast else cu.cId = input.cId) ∧ s' = s) := by
    split
    · exact Works.require h.toKeyedStore (h.named _ _ _)
    · refine (Works.require h.toKeyedStore (h.get .customer _)).weaken ?_
      rintro cu s' ⟨hcu, rfl⟩
      have hkey := (s'.tables .customer).keyed _ _ hcu
      simp only [TableId.createKey, CustomerKey.mk.injEq] at hkey
      exact ⟨by rw [hkey.2.2, hcu], hkey.2.2, rfl⟩
  refine hcustomer.publishes ?_
  rintro cu _ ⟨hcu, hname, rfl⟩
  refine (Works.require h.toKeyedStore (h.newest _ _ _)).publishes ?_
  rintro o s ⟨ho, hmine, hnewest, rfl⟩
  refine (Works.require h.toKeyedStore (h.query _ _)).publishes ?_
  rintro rows s ⟨hsorted, hrows, rfl⟩
  refine finish_reports h.toKeyedStore ⟨rfl, ?_⟩
  have hkey : TableId.createKey .order o = ⟨input.wId, input.dId, o.oId⟩ :=
    (s.tables .order).keyed _ _ ho
  have hfound : (s.tables .order).find (TableId.createKey .order o) = some o := by rw [hkey, ho]
  have hmem : ∀ ol, ol ∈ rows ↔
      (s.tables .orderLine).find (TableId.createKey .orderLine ol) = some ol ∧
        ol.order = TableId.createKey .order o := by
    intro ol
    rw [hrows]
    refine and_congr_right (fun hol => ?_)
    obtain ⟨_, _, hnum, _⟩ := (hs.lines _).mp (by rw [hol]; exact Option.some_ne_none ol)
    have hrange := OrderLineKey.inRange_linesOf (hs.ids _ o hfound)
      (k := TableId.createKey .orderLine ol) hnum
    refine hrange.trans ?_
    simp [OrderLine.order, TableId.createKey]
  have hnumbers := numbers_of_rows hs hfound hsorted hmem
  have hlength : rows.length = o.oOlCnt.toNat := by
    have := congrArg List.length hnumbers
    rwa [List.length_map, List.length_range'] at this
  refine ⟨⟨cu, o, hcu, hname, rfl, rfl, ho, hmine, hnewest, rfl, rfl, ?_⟩, ?_⟩
  · rw [List.length_map, hlength]
  · intro i hi
    rw [List.length_map] at hi
    obtain ⟨hfind, horder⟩ := (hmem rows[i]).mp (List.getElem_mem hi)
    have hnum : rows[i].olNumber.toNat = i + 1 := by
      have hat : (rows.map (fun ol => ol.olNumber.toNat))[i]? =
          (List.range' 1 o.oOlCnt.toNat)[i]? := by rw [hnumbers]
      rw [List.getElem?_map, List.getElem?_eq_getElem hi,
        List.getElem?_range' (hlength ▸ hi)] at hat
      have hnext : rows[i].olNumber.toNat = 1 + 1 * i := Option.some.inj hat
      omega
    have hline : TableId.createKey .orderLine rows[i] =
        ⟨input.wId, input.dId, o.oId, UInt8.ofNat (i + 1)⟩ := by
      rw [hkey] at horder
      simp only [OrderLine.order, OrderKey.mk.injEq] at horder
      rw [TableId.createKey, horder.1, horder.2.1, horder.2.2, ← hnum, UInt8.ofNat_toNat]
    refine ⟨rows[i], hline ▸ hfind, ?_, ?_⟩
    · rw [List.getElem?_map, List.getElem?_eq_getElem hi]
      rfl
    · refine hs.dates _ _ o hfind ?_
      rw [← order_of_find hfind, horder, hfound]

end OrderStatusTx

namespace StockLevelTx

/-- A line of the last twenty orders of the district, for an item. -/
def Recent (input : Input) (nextOId : UInt32) (s : Store) (i : UInt32) : Prop :=
  ∃ k ol, (s.tables .orderLine).find k = some ol ∧ k.wId = input.wId ∧ k.dId = input.dId ∧
    nextOId.toNat - 20 ≤ k.oId.toNat ∧ k.oId.toNat < nextOId.toNat ∧ ol.olIId = i

def Scarce (input : Input) (s : Store) (i : UInt32) : Prop :=
  ∃ st, (s.tables .stock).find ⟨input.wId, i⟩ = some st ∧
    st.sQuantity.toInt < input.threshold.toNat

/-- What the count means: the items of the last twenty orders, each once, of which there are too
few. Before the twentieth order the range wraps around, and nothing is counted. -/
def Counts (input : Input) (s : Store) (n : Nat) : Prop :=
  ∃ d, (s.tables .district).find ⟨input.wId, input.dId⟩ = some d ∧
    (20 ≤ d.dNextOId.toNat → ∃ ids : Finset UInt32, n = ids.card ∧
      ∀ i, i ∈ ids ↔ i ≠ unusedItemId ∧ Recent input d.dNextOId s i ∧ Scarce input s i) ∧
    (d.dNextOId.toNat < 20 → n = 0)

theorem mem_insertId {i j : UInt32} {ids : List UInt32} :
    j ∈ insertId i ids ↔ j = i ∨ j ∈ ids := by
  unfold insertId
  split
  · rename_i hin
    refine ⟨Or.inr, fun h => ?_⟩
    rcases h with rfl | h
    · exact hin
    · exact h
  · exact List.mem_orderedInsert _

theorem insertId_nodup {i : UInt32} {ids : List UInt32} (h : ids.Nodup) :
    (insertId i ids).Nodup := by
  unfold insertId
  split
  · exact h
  · rename_i hnew
    exact (List.perm_orderedInsert _ i ids).nodup_iff.mpr (List.nodup_cons.mpr ⟨hnew, h⟩)

/-- The set that the range fills has each item once, but for the unused one. -/
theorem collect_spec (rows : List OrderLine) {ids : List UInt32} (h : ids.Nodup) :
    (rows.foldl collect ids).Nodup ∧ ∀ i, i ∈ rows.foldl collect ids ↔
      i ∈ ids ∨ i ≠ unusedItemId ∧ ∃ ol ∈ rows, ol.olIId = i := by
  induction rows generalizing ids with
  | nil => simp [h]
  | cons ol rows ih =>
    rw [List.foldl_cons]
    unfold collect
    split
    · rename_i hused
      obtain ⟨hn, hmem⟩ := ih (insertId_nodup (i := ol.olIId) h)
      refine ⟨hn, fun i => (hmem i).trans ?_⟩
      rw [mem_insertId]
      constructor
      · rintro ((rfl | hi) | ⟨hne, ol', hol', rfl⟩)
        · exact Or.inr ⟨hused, ol, List.mem_cons_self, rfl⟩
        · exact Or.inl hi
        · exact Or.inr ⟨hne, ol', List.mem_cons_of_mem _ hol', rfl⟩
      · rintro (hi | ⟨hne, ol', hol', rfl⟩)
        · exact Or.inl (Or.inr hi)
        · rcases List.mem_cons.mp hol' with rfl | hol'
          · exact Or.inl (Or.inl rfl)
          · exact Or.inr ⟨hne, ol', hol', rfl⟩
    · rename_i hunused
      obtain ⟨hn, hmem⟩ := ih h
      refine ⟨hn, fun i => (hmem i).trans (or_congr_right (and_congr_right (fun hne => ?_)))⟩
      constructor
      · rintro ⟨ol', hol', rfl⟩
        exact ⟨ol', List.mem_cons_of_mem _ hol', rfl⟩
      · rintro ⟨ol', hol', rfl⟩
        rcases List.mem_cons.mp hol' with rfl | hol'
        · exact absurd hne hunused
        · exact ⟨ol', hol', rfl⟩

variable {τ : Type} {committed view : τ → Store} {T : QueryTransaction τ} {c s : Store}

/-- The loop over the set keeps the scarce items. -/
theorem eraseStocked_works (h : KeyedQueries committed view T) (input : Input)
    (ids : List UInt32) :
    Works committed view 0 c s (eraseStocked T input ids) (fun rest s' => s' = s ∧
      rest.Sublist ids ∧ ∀ i, i ∈ rest ↔ i ∈ ids ∧ Scarce input s i) := by
  induction ids generalizing s with
  | nil => exact Works.pure ⟨rfl, List.Sublist.refl _, by simp⟩
  | cons i ids ih =>
    unfold eraseStocked
    refine (Works.require h.toKeyedStore (h.get .stock _)).bind ?_
    rintro st s ⟨hst, rfl⟩
    refine ih.bind ?_
    rintro rest s ⟨rfl, hsub, hrest⟩
    have hscarce : Scarce input s i ↔ ¬ st.sQuantity.toInt ≥ input.threshold.toNat := by
      rw [ge_iff_le, not_le]
      constructor
      · rintro ⟨st', hst', hlt⟩
        obtain rfl := Option.some.inj (hst.symm.trans hst')
        exact hlt
      · exact fun hlt => ⟨st, hst, hlt⟩
    refine Works.pure ⟨rfl, ?_, fun j => ?_⟩
    · split
      · exact hsub.cons i
      · exact hsub.cons_cons i
    · split
      · rename_i henough
        rw [hrest, List.mem_cons]
        refine and_congr_left (fun hj => ⟨Or.inr, fun hor => hor.resolve_left ?_⟩)
        rintro rfl
        exact hscarce.mp hj henough
      · rename_i hfew
        rw [List.mem_cons, List.mem_cons, hrest, or_and_right]
        refine or_congr_left ⟨fun he => ⟨he, he ▸ hscarce.mpr hfew⟩, And.left⟩

theorem run_counts (h : KeyedQueries committed view T) (input : Input) (hs : OrderBooks s) :
    Publishes committed view 0 c s (run T input) (fun n s' => s' = s ∧ Counts input s n) := by
  unfold run
  refine (Works.require h.toKeyedStore (h.get .district _)).publishes ?_
  rintro d s ⟨hd, rfl⟩
  refine (Works.require h.toKeyedStore (h.query _ _)).publishes ?_
  rintro rows s ⟨_, hrows, rfl⟩
  refine (eraseStocked_works h input _).publishes ?_
  rintro ids s ⟨rfl, hsub, hids⟩
  refine finish_reports h.toKeyedStore ⟨rfl, d, hd, ?_, ?_⟩
  all_goals
    intro hnext
    obtain ⟨hn, hcollected⟩ := collect_spec rows List.nodup_nil
  · refine ⟨ids.toFinset, (List.toFinset_card_of_nodup (hsub.nodup hn)).symm, fun i => ?_⟩
    rw [List.mem_toFinset, hids, hcollected, ← and_assoc]
    refine and_congr_left (fun _ => ?_)
    simp only [List.not_mem_nil, false_or]
    refine and_congr_right (fun _ => ?_)
    have hlow : (d.dNextOId - 20).toNat = d.dNextOId.toNat - 20 :=
      UInt32.toNat_sub_of_le _ _ (UInt32.le_iff_toNat_le.mpr hnext)
    constructor
    · rintro ⟨ol, hol, rfl⟩
      obtain ⟨hfind, hrange⟩ := (hrows ol).mp hol
      obtain ⟨_, _, hnum, _⟩ := (hs.lines _).mp (by rw [hfind]; exact Option.some_ne_none ol)
      rw [OrderLineKey.inRange_iff (k := TableId.createKey .orderLine ol) hnum, hlow] at hrange
      exact ⟨_, ol, hfind, hrange.1, hrange.2.1, hrange.2.2.1, hrange.2.2.2, rfl⟩
    · rintro ⟨k, ol, hfind, hw, hdId, hlo, hhi, rfl⟩
      obtain ⟨_, _, hnum, _⟩ := (hs.lines k).mp (by rw [hfind]; exact Option.some_ne_none ol)
      have hkey := (s.tables .orderLine).keyed k ol hfind
      refine ⟨ol, (hrows ol).mpr ⟨hkey ▸ hfind, ?_⟩, rfl⟩
      rw [hkey, OrderLineKey.inRange_iff hnum, hlow]
      exact ⟨hw, hdId, hlo, hhi⟩
  · -- the lower end has wrapped around to ids above the upper end
    have hempty : rows = [] := by
      refine List.eq_nil_iff_forall_not_mem.mpr (fun ol hol => ?_)
      obtain ⟨hfind, hrange⟩ := (hrows ol).mp hol
      obtain ⟨_, _, hnum, _⟩ := (hs.lines _).mp (by rw [hfind]; exact Option.some_ne_none ol)
      rw [OrderLineKey.inRange_iff (k := TableId.createKey .orderLine ol) hnum] at hrange
      have hlow : (d.dNextOId - 20).toNat = 2 ^ 32 - 20 + d.dNextOId.toNat := by
        have h20 : (20 : UInt32).toNat = 20 := rfl
        rw [UInt32.toNat_sub, h20]
        omega
      omega
    rw [hempty] at hsub
    rw [List.sublist_nil.mp hsub]
    rfl

end StockLevelTx
end Mvdcc.Tpcc
