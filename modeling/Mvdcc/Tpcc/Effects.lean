import Mathlib.Tactic.Linarith
import Mvdcc.Tpcc.Consistency

namespace Mvdcc.Tpcc
open Library

/-- What every completed call keeps. -/
structure Sound (s : Store) : Prop extends Consistent s where
  positive : PositiveIds s

section Effects
variable {s s' : Store} {d d' : District} {o o' : Order} {no : NewOrder}

/-- The conditions on a district read its own orders, new orders and order lines. -/
theorem DistrictConsistent.congr (h : DistrictConsistent s d) (hw : d'.dWId = d.dWId)
    (hd : d'.dId = d.dId) (hn : d'.dNextOId = d.dNextOId)
    (ho : ∀ oId, (s'.tables .order).find ⟨d.dWId, d.dId, oId⟩ =
      (s.tables .order).find ⟨d.dWId, d.dId, oId⟩)
    (hno : ∀ oId, s'.HasNewOrder d.dWId d.dId oId ↔ s.HasNewOrder d.dWId d.dId oId)
    (hol : s'.orderedLines d.dWId d.dId = s.orderedLines d.dWId d.dId)
    (hl : s'.orderLines d.dWId d.dId = s.orderLines d.dWId d.dId) :
    DistrictConsistent s' d' := by
  constructor <;> simp only [hw, hd, hn, ho, hno, hol, hl]
  · exact h.latest
  · exact h.greatest
  · exact h.newOrders
  · exact h.lines
  · exact h.carrier

/-- The district of a new order. Its new orders reach up to the new id, from the same id on
or from the new one. -/
theorem DistrictConsistent.order (h : DistrictConsistent s d) (hw : d'.dWId = d.dWId)
    (hd : d'.dId = d.dId) (hnext : d'.dNextOId.toNat = d.dNextOId.toNat + 1)
    (hid : o.oId = d.dNextOId) (hcarrier : o.oCarrierId = 0)
    (ho : ∀ oId, (s'.tables .order).find ⟨d.dWId, d.dId, oId⟩ =
      if oId = d.dNextOId then some o else (s.tables .order).find ⟨d.dWId, d.dId, oId⟩)
    (hno : ∀ oId, s'.HasNewOrder d.dWId d.dId oId ↔
      oId = d.dNextOId ∨ s.HasNewOrder d.dWId d.dId oId)
    (hl : s'.orderedLines d.dWId d.dId = s'.orderLines d.dWId d.dId) :
    DistrictConsistent s' d' := by
  constructor <;> simp only [hw, hd, hnext, ho, hno]
  · exact ⟨o, by rw [if_pos hid], by rw [hid]⟩
  · intro oId hf
    split at hf
    · rename_i he
      rw [he]
    · exact Nat.le_succ_of_le (h.greatest oId hf)
  · obtain ⟨m, hm⟩ := h.newOrders
    refine ⟨min m d.dNextOId.toNat, fun oId => ?_⟩
    rw [hm, ← UInt32.toNat_inj]
    omega
  · exact hl
  · intro oId o' hf
    split at hf
    · rename_i he
      obtain rfl := Option.some.inj hf
      exact iff_of_true hcarrier (Or.inl he)
    · rename_i he
      rw [h.carrier oId o' hf]
      exact ⟨Or.inr, fun hor => hor.resolve_left he⟩

/-- The district of a delivered order, which was the least of its new orders. -/
theorem DistrictConsistent.deliver {oId : UInt32} (h : DistrictConsistent s d)
    (hkey : o'.oId = o.oId) (hcarrier : o'.oCarrierId ≠ 0) (hid : o.oId = oId)
    (hfound : (s.tables .order).find ⟨d.dWId, d.dId, oId⟩ = some o)
    (hhas : s.HasNewOrder d.dWId d.dId oId)
    (hleast : ∀ i, s.HasNewOrder d.dWId d.dId i → oId ≤ i)
    (ho : ∀ i, (s'.tables .order).find ⟨d.dWId, d.dId, i⟩ =
      if i = oId then some o' else (s.tables .order).find ⟨d.dWId, d.dId, i⟩)
    (hno : ∀ i, s'.HasNewOrder d.dWId d.dId i ↔ i ≠ oId ∧ s.HasNewOrder d.dWId d.dId i)
    (hol : s'.orderedLines d.dWId d.dId = s.orderedLines d.dWId d.dId)
    (hl : s'.orderLines d.dWId d.dId = s.orderLines d.dWId d.dId) :
    DistrictConsistent s' d := by
  constructor <;> simp only [ho, hno, hol, hl]
  · obtain ⟨last, hlast, hnext⟩ := h.latest
    by_cases he : last.oId = oId
    · refine ⟨o', ?_, ?_⟩
      · rw [if_pos (hkey.trans hid)]
      · rw [hkey, hid, ← he, hnext]
    · exact ⟨last, by rw [if_neg he, hlast], hnext⟩
  · intro i hf
    split at hf
    · rename_i he
      exact h.greatest i (by rw [he, hfound]; exact Option.some_ne_none o)
    · exact h.greatest i hf
  · obtain ⟨m, hm⟩ := h.newOrders
    refine ⟨oId.toNat + 1, fun i => ?_⟩
    have hfirst := (hm oId).mp hhas
    constructor
    · rintro ⟨hne, hi⟩
      have hle := UInt32.le_iff_toNat_le.mp (hleast i hi)
      have hne' := mt UInt32.toNat_inj.mp hne
      have hin := (hm i).mp hi
      omega
    · rintro ⟨hlo, hhi⟩
      refine ⟨?_, (hm i).mpr (by omega)⟩
      rintro rfl
      omega
  · exact h.lines
  · intro i o₁ hf
    split at hf
    · rename_i he
      obtain rfl := Option.some.inj hf
      exact iff_of_false hcarrier (fun hn => hn.1 he)
    · rename_i he
      rw [h.carrier i o₁ hf]
      exact ⟨fun hi => ⟨he, hi⟩, And.right⟩

/-- A district row, found under its key. -/
theorem Sound.district (h : Sound s)
    (hd : (s.tables .district).find (TableId.createKey .district d) = some d) :
    DistrictConsistent s d :=
  h.districts _ d hd

theorem Grown.sound {wId : UInt16} {dId : UInt8} (h : Grown wId dId 0 s s') (hs : Sound s) :
    Sound s' := by
  have hnew : ∀ w d i, s'.HasNewOrder w d i ↔ s.HasNewOrder w d i := by
    intro w d i
    rw [Store.HasNewOrder, h.newOrder, ← Store.HasNewOrder]
  refine ⟨⟨?_, ?_⟩, ?_⟩
  · intro k w hw
    rw [h.warehouse] at hw
    rw [Store.districtYtd, h.district]
    exact hs.ytd k w hw
  · intro k d hd
    rw [h.district] at hd
    refine (hs.districts k d hd).congr rfl rfl rfl (fun _ => by rw [h.order]) (fun _ => hnew _ _ _)
      ?_ ?_
    · rw [Store.orderedLines, h.order, ← Store.orderedLines]
    · rw [h.lines]
      simp
  · intro wId dId hz
    exact hs.positive wId dId ((hnew _ _ _).mp hz)

/-- A payment adds one amount to a warehouse and to one of its districts. -/
theorem Sound.pay {w : Warehouse} (amount : ℚ) (hs : Sound s)
    (hw : (s.tables .warehouse).find (TableId.createKey .warehouse w) = some w)
    (hd : (s.tables .district).find (TableId.createKey .district d) = some d)
    (hin : d.dWId = w.wId) :
    Sound ((s.put .warehouse { w with wYtd := w.wYtd + amount }).put .district
      { d with dYtd := d.dYtd + amount }) := by
  set w' : Warehouse := { w with wYtd := w.wYtd + amount }
  set d' : District := { d with dYtd := d.dYtd + amount }
  set s' := (s.put .warehouse w').put .district d'
  have hsame : ∀ tb, tb ≠ .warehouse → tb ≠ .district → s'.tables tb = s.tables tb := by
    intro tb hne hne'
    rw [Store.put_other _ _ hne', Store.put_other _ _ hne]
  have hdist : s'.tables .district = (s.tables .district).put d' := by
    rw [Store.put_self, Store.put_other _ _ (by decide)]
  have hware : s'.tables .warehouse = (s.tables .warehouse).put w' := by
    rw [Store.put_other _ _ (by decide), Store.put_self]
  have hytd : ∀ wId, s'.districtYtd wId =
      s.districtYtd wId + if w.wId = wId then amount else 0 := by
    intro wId
    have htotal := Table.total_put (t := s.tables .district) (r := d')
      (f := fun d => if d.dWId = wId then d.dYtd else 0) hd
    change _ + (if d.dWId = wId then d.dYtd else 0) =
      _ + (if d.dWId = wId then d.dYtd + amount else 0) at htotal
    rw [Store.districtYtd, hdist, Store.districtYtd]
    rw [hin] at htotal
    by_cases hw : w.wId = wId
    · rw [if_pos hw, if_pos hw] at htotal
      rw [if_pos hw]
      linarith
    · rw [if_neg hw, if_neg hw] at htotal
      rw [if_neg hw]
      linarith
  refine ⟨⟨?_, ?_⟩, ?_⟩
  · intro k v hv
    rw [hware, Table.find_put] at hv
    rw [hytd]
    split at hv
    · obtain rfl := Option.some.inj hv
      change w.wYtd + amount = s.districtYtd w.wId + if w.wId = w.wId then amount else 0
      rw [if_pos rfl, hs.ytd _ w hw]
    · rename_i hne
      have hkey := (s.tables .warehouse).keyed _ _ hv
      have hother : w.wId ≠ v.wId := by
        rintro he
        exact hne (hkey ▸ by simp [TableId.createKey, w', he])
      rw [if_neg hother, add_zero]
      exact hs.ytd k v hv
  · intro k e he
    have hold : ∀ e', DistrictConsistent s e' → DistrictConsistent s' e' := by
      intro e' h
      refine h.congr rfl rfl rfl (fun _ => by rw [hsame _ (by decide) (by decide)]) ?_ ?_ ?_
      · intro oId
        simp only [Store.HasNewOrder, hsame .newOrder (by decide) (by decide)]
      · simp only [Store.orderedLines, hsame .order (by decide) (by decide)]
      · simp only [Store.orderLines, hsame .orderLine (by decide) (by decide)]
    rw [hdist, Table.find_put] at he
    split at he
    · obtain rfl := Option.some.inj he
      exact hold d' ((hs.district hd).congr rfl rfl rfl (fun _ => rfl) (fun _ => Iff.rfl) rfl rfl)
    · exact hold e (hs.districts k e he)
  · intro wId dId hz
    rw [Store.HasNewOrder, hsame _ (by decide) (by decide)] at hz
    exact hs.positive wId dId hz

/-- A new order takes the next id of its district, and brings its lines. -/
theorem Sound.order {n : Nat} (hs : Sound s)
    (hd : (s.tables .district).find (TableId.createKey .district d) = some d)
    (hbound : d.dNextOId.toNat < 2 ^ 32 - 1)
    (hno : no = ⟨d.dWId, d.dId, d.dNextOId⟩)
    (hkey : o.oWId = d.dWId ∧ o.oDId = d.dId ∧ o.oId = d.dNextOId) (hcarrier : o.oCarrierId = 0)
    (hnew : (s.tables .order).find ⟨d.dWId, d.dId, d.dNextOId⟩ = none)
    (hn : n = o.oOlCnt.toNat)
    (hg : Grown d.dWId d.dId n (((s.put .district { d with dNextOId := d.dNextOId + 1 }).put
      .newOrder no).put .order o) s') : Sound s' := by
  set d' : District := { d with dNextOId := d.dNextOId + 1 }
  have hnext : d'.dNextOId.toNat = d.dNextOId.toNat + 1 := by
    change (d.dNextOId + 1).toNat = _
    rw [UInt32.toNat_add, UInt32.toNat_one, Nat.mod_eq_of_lt (by omega)]
  have hdist : s'.tables .district = (s.tables .district).put d' := by
    rw [hg.district, Store.put_other _ _ (by decide), Store.put_other _ _ (by decide),
      Store.put_self]
  have hneword : s'.tables .newOrder = (s.tables .newOrder).put no := by
    rw [hg.newOrder, Store.put_other _ _ (by decide), Store.put_self,
      Store.put_other _ _ (by decide)]
  have hord : s'.tables .order = (s.tables .order).put o := by
    rw [hg.order, Store.put_self, Store.put_other _ _ (by decide),
      Store.put_other _ _ (by decide)]
  have hware : s'.tables .warehouse = s.tables .warehouse := by
    rw [hg.warehouse, Store.put_other _ _ (by decide), Store.put_other _ _ (by decide),
      Store.put_other _ _ (by decide)]
  have hordered : ∀ wId dId, s'.orderedLines wId dId =
      s.orderedLines wId dId + if wId = d.dWId ∧ dId = d.dId then n else 0 := by
    intro wId dId
    have hfresh : (s.tables .order).find (TableId.createKey .order o) = none := by
      simpa [TableId.createKey, hkey] using hnew
    rw [Store.orderedLines, hord, Table.total_put_new hfresh, hkey.1, hkey.2.1, hn, Nat.add_comm,
      ← Store.orderedLines]
    simp only [eq_comm]
  have hlines : ∀ wId dId, s'.orderLines wId dId =
      s.orderLines wId dId + if wId = d.dWId ∧ dId = d.dId then n else 0 := by
    intro wId dId
    rw [hg.lines, Store.orderLines, Store.put_other _ _ (by decide),
      Store.put_other _ _ (by decide), Store.put_other _ _ (by decide), ← Store.orderLines]
  have hhas : ∀ wId dId oId, s'.HasNewOrder wId dId oId ↔
      (wId = d.dWId ∧ dId = d.dId ∧ oId = d.dNextOId) ∨ s.HasNewOrder wId dId oId := by
    intro wId dId oId
    rw [Store.HasNewOrder, hneword, Table.find_put, hno, Store.HasNewOrder]
    simp only [TableId.createKey, NewOrderKey.mk.injEq]
    split <;> simp [*]
  have hfind : ∀ wId dId oId, (s'.tables .order).find ⟨wId, dId, oId⟩ =
      if wId = d.dWId ∧ dId = d.dId ∧ oId = d.dNextOId then some o
      else (s.tables .order).find ⟨wId, dId, oId⟩ := by
    intro wId dId oId
    rw [hord, Table.find_put]
    simp only [TableId.createKey, OrderKey.mk.injEq, hkey]
  have hytd : ∀ wId, s'.districtYtd wId = s.districtYtd wId := by
    intro wId
    have htotal := Table.total_put (t := s.tables .district) (r := d')
      (f := fun d => if d.dWId = wId then d.dYtd else 0) hd
    rw [Store.districtYtd, hdist]
    exact add_right_cancel htotal
  refine ⟨⟨?_, ?_⟩, ?_⟩
  · intro k w hw
    rw [hware] at hw
    rw [hytd]
    exact hs.ytd k w hw
  · intro k e he
    rw [hdist, Table.find_put] at he
    split at he
    · obtain rfl := Option.some.inj he
      refine (hs.district hd).order rfl rfl hnext hkey.2.2 hcarrier ?_ ?_ ?_
      · intro oId
        simp only [hfind, true_and]
      · intro oId
        simp only [hhas, true_and]
      · rw [hordered, hlines, (hs.district hd).lines]
    · rename_i hne
      have hother : ¬ (e.dWId = d.dWId ∧ e.dId = d.dId) := by
        rintro ⟨hw, hd⟩
        refine hne ?_
        rw [← (s.tables .district).keyed k e he]
        simp [TableId.createKey, d', hw, hd]
      have hother' : ∀ oId, ¬ (e.dWId = d.dWId ∧ e.dId = d.dId ∧ oId = d.dNextOId) :=
        fun oId h => hother ⟨h.1, h.2.1⟩
      refine (hs.districts k e he).congr rfl rfl rfl ?_ ?_ ?_ ?_
      · intro oId
        rw [hfind, if_neg (hother' oId)]
      · intro oId
        rw [hhas]
        exact or_iff_right (hother' oId)
      · rw [hordered, if_neg hother, Nat.add_zero]
      · rw [hlines, if_neg hother, Nat.add_zero]
  · intro wId dId hz
    rcases (hhas wId dId 0).mp hz with ⟨rfl, rfl, he⟩ | hz
    · obtain ⟨last, _, hlast⟩ := (hs.district hd).latest
      rw [← he] at hlast
      exact Nat.succ_ne_zero _ hlast
    · exact hs.positive wId dId hz

/-- A delivered order is the least one of its district, and leaves with a carrier. -/
theorem Sound.deliver {wId : UInt16} {dId : UInt8} {oId : UInt32} (hs : Sound s)
    (hkey : TableId.createKey .order o' = TableId.createKey .order o)
    (hcnt : o'.oOlCnt = o.oOlCnt) (hcarrier : o'.oCarrierId ≠ 0)
    (hfound : (s.tables .order).find ⟨wId, dId, oId⟩ = some o)
    (hhas : s.HasNewOrder wId dId oId) (hleast : ∀ i, 1 ≤ i → s.HasNewOrder wId dId i → oId ≤ i) :
    Sound ((s.erase .newOrder ⟨wId, dId, oId⟩).put .order o') := by
  set s' := (s.erase .newOrder ⟨wId, dId, oId⟩).put .order o'
  have hsame : ∀ tb, tb ≠ .newOrder → tb ≠ .order → s'.tables tb = s.tables tb := by
    intro tb hne hne'
    rw [Store.put_other _ _ hne', Store.erase_other _ _ hne]
  have hold := (s.tables .order).keyed _ _ hfound
  have hord : s'.tables .order = (s.tables .order).put o' := by
    rw [Store.put_self, Store.erase_other _ _ (by decide)]
  have hhas' : ∀ w d i, s'.HasNewOrder w d i ↔
      ¬ (w = wId ∧ d = dId ∧ i = oId) ∧ s.HasNewOrder w d i := by
    intro w d i
    rw [Store.HasNewOrder, Store.put_other _ _ (by decide), Store.erase_self, Table.find_erase,
      Store.HasNewOrder]
    simp only [NewOrderKey.mk.injEq]
    split <;> simp [*]
  have hfind : ∀ w d i, (s'.tables .order).find ⟨w, d, i⟩ =
      if w = wId ∧ d = dId ∧ i = oId then some o' else (s.tables .order).find ⟨w, d, i⟩ := by
    intro w d i
    rw [hord, Table.find_put, hkey, hold]
    simp only [OrderKey.mk.injEq]
  have hordered : ∀ w d, s'.orderedLines w d = s.orderedLines w d := by
    intro w d
    have hat : (s.tables .order).find (TableId.createKey .order o') = some o := by
      rw [hkey, hold, hfound]
    have htotal := Table.total_put (f := fun o : Order =>
      if o.oWId = w ∧ o.oDId = d then o.oOlCnt.toNat else 0) hat
    simp only [TableId.createKey, OrderKey.mk.injEq] at hkey
    rw [hkey.1, hkey.2.1, hcnt] at htotal
    rw [Store.orderedLines, hord]
    exact Nat.add_right_cancel htotal
  refine ⟨⟨?_, ?_⟩, ?_⟩
  · intro k w hw
    rw [hsame _ (by decide) (by decide)] at hw
    rw [Store.districtYtd, hsame _ (by decide) (by decide)]
    exact hs.ytd k w hw
  · intro k e he
    rw [hsame _ (by decide) (by decide)] at he
    have hd := hs.districts k e he
    have hlines : s'.orderLines e.dWId e.dId = s.orderLines e.dWId e.dId := by
      rw [Store.orderLines, hsame _ (by decide) (by decide), ← Store.orderLines]
    by_cases hin : e.dWId = wId ∧ e.dId = dId
    · obtain ⟨rfl, rfl⟩ := hin
      simp only [TableId.createKey, OrderKey.mk.injEq] at hkey hold
      refine hd.deliver hkey.2.2 hcarrier hold.2.2 hfound hhas ?_ ?_ ?_ (hordered _ _) hlines
      · intro i hi
        refine hleast i ?_ hi
        rw [UInt32.le_iff_toNat_le, UInt32.toNat_one, Nat.one_le_iff_ne_zero]
        intro hz
        obtain rfl := UInt32.toNat_inj.mp (hz.trans UInt32.toNat_zero.symm)
        exact hs.positive _ _ hi
      · intro i
        simp only [hfind, true_and]
      · intro i
        simp only [hhas', true_and]
    · have hother : ∀ i, ¬ (e.dWId = wId ∧ e.dId = dId ∧ i = oId) :=
        fun i h => hin ⟨h.1, h.2.1⟩
      refine hd.congr rfl rfl rfl ?_ ?_ (hordered _ _) hlines
      · intro i
        rw [hfind, if_neg (hother i)]
      · intro i
        rw [hhas']
        exact and_iff_right (hother i)
  · intro w d hz
    exact hs.positive w d ((hhas' w d 0).mp hz).2

end Effects
end Mvdcc.Tpcc
