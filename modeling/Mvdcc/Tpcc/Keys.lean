import Mvdcc.Library.PackedKey
import Mvdcc.Tpcc.Records

namespace Mvdcc.Tpcc
open Library

/-! The raw keys, and how they sort. -/

namespace StockKey

/-- The bit-fields, from the lowest one up. -/
def fields (k : StockKey) : List BitField := [⟨32, k.iId.toNat⟩, ⟨16, k.wId.toNat⟩]

/-- `get_raw_key()` after `create_key`. -/
def rawKey (k : StockKey) : Nat := BitField.pack k.fields

def args (k : StockKey) : List Nat := [k.wId.toNat, k.iId.toNat]

end StockKey

namespace DistrictKey

def fields (k : DistrictKey) : List BitField := [⟨8, k.dId.toNat⟩, ⟨16, k.wId.toNat⟩]
def rawKey (k : DistrictKey) : Nat := BitField.pack k.fields
def args (k : DistrictKey) : List Nat := [k.wId.toNat, k.dId.toNat]

end DistrictKey

namespace CustomerKey

def fields (k : CustomerKey) : List BitField :=
  [⟨32, k.cId.toNat⟩, ⟨8, k.dId.toNat⟩, ⟨16, k.wId.toNat⟩]

def rawKey (k : CustomerKey) : Nat := BitField.pack k.fields
def args (k : CustomerKey) : List Nat := [k.wId.toNat, k.dId.toNat, k.cId.toNat]

end CustomerKey

namespace OrderKey

def fields (k : OrderKey) : List BitField :=
  [⟨32, k.oId.toNat⟩, ⟨8, k.dId.toNat⟩, ⟨16, k.wId.toNat⟩]

def rawKey (k : OrderKey) : Nat := BitField.pack k.fields
def args (k : OrderKey) : List Nat := [k.wId.toNat, k.dId.toNat, k.oId.toNat]

end OrderKey

namespace NewOrderKey

def fields (k : NewOrderKey) : List BitField :=
  [⟨32, k.oId.toNat⟩, ⟨8, k.dId.toNat⟩, ⟨16, k.wId.toNat⟩]

def rawKey (k : NewOrderKey) : Nat := BitField.pack k.fields
def args (k : NewOrderKey) : List Nat := [k.wId.toNat, k.dId.toNat, k.oId.toNat]

end NewOrderKey

namespace OrderLineKey

def fields (k : OrderLineKey) : List BitField :=
  [⟨8, k.olNumber.toNat⟩, ⟨32, k.oId.toNat⟩, ⟨8, k.dId.toNat⟩, ⟨16, k.wId.toNat⟩]

def args (k : OrderLineKey) : List Nat :=
  [k.wId.toNat, k.dId.toNat, k.oId.toNat, k.olNumber.toNat]

end OrderLineKey

/-- What Masstree compares: the bytes in memory of `byte_swap(key)`. -/
def comparedBytes (rawKey : Nat) : List Nat := bytes 8 (byteSwap 8 rawKey)

/-- Raw keys are distinct, and sort as tuples of arguments do: as numbers, and byte by byte. -/
structure SortsAs (rawKey : K → Nat) (args : K → List Nat) : Prop where
  injective : Function.Injective rawKey
  lt_iff : ∀ a b, rawKey a < rawKey b ↔ List.Lex (· < ·) (args a) (args b)
  bytes_lt_iff : ∀ a b, List.Lex (· < ·) (comparedBytes (rawKey a)) (comparedBytes (rawKey b)) ↔
    List.Lex (· < ·) (args a) (args b)

/-- Fields that keep their values whole, the last of them on top, sort as their values. -/
theorem sortsAs_of_fields {rawKey : K → Nat} {args : K → List Nat} (fields : K → List BitField)
    (widths : List Nat) (hraw : ∀ k, rawKey k = BitField.pack (fields k))
    (hargs : ∀ k, ((fields k).map BitField.value).reverse = args k)
    (hwidths : ∀ k, (fields k).map BitField.width = widths) (hsum : widths.sum ≤ 64)
    (hfit : ∀ k, BitField.Fit (fields k)) (hinj : Function.Injective args) :
    SortsAs rawKey args where
  injective a b h := by
    rw [hraw, hraw, BitField.pack_inj ((hwidths a).trans (hwidths b).symm) (hfit a) (hfit b)] at h
    exact hinj (by rw [← hargs, ← hargs, h])
  lt_iff a b := by
    rw [hraw, hraw, BitField.pack_lt_pack ((hwidths a).trans (hwidths b).symm) (hfit a) (hfit b),
      hargs, hargs]
  bytes_lt_iff a b := by
    have hlt : ∀ k, rawKey k < 256 ^ 8 := by
      intro k
      have hword := BitField.pack_lt (fields k)
      rw [hwidths k] at hword
      rw [hraw]
      exact hword.trans_le ((Nat.pow_le_pow_right (by decide) hsum).trans_eq (by decide))
    rw [comparedBytes, comparedBytes, bytes_byteSwap_lt (hlt a) (hlt b), hraw, hraw,
      BitField.pack_lt_pack ((hwidths a).trans (hwidths b).symm) (hfit a) (hfit b), hargs, hargs]

theorem StockKey.sortsAs : SortsAs StockKey.rawKey StockKey.args := by
  refine sortsAs_of_fields fields [32, 16] (fun _ => rfl) (fun _ => rfl) (fun _ => rfl) (by decide)
    (fun k => ?_) ?_
  · exact BitField.fit_cons k.iId.toNat_lt (BitField.fit_cons k.wId.toNat_lt BitField.fit_nil)
  · rintro ⟨w, i⟩ ⟨w', i'⟩ h
    simp only [args, List.cons.injEq, UInt16.toNat_inj, UInt32.toNat_inj, and_true] at h
    obtain ⟨rfl, rfl⟩ := h
    rfl

theorem DistrictKey.sortsAs : SortsAs DistrictKey.rawKey DistrictKey.args := by
  refine sortsAs_of_fields fields [8, 16] (fun _ => rfl) (fun _ => rfl) (fun _ => rfl) (by decide)
    (fun k => ?_) ?_
  · exact BitField.fit_cons k.dId.toNat_lt (BitField.fit_cons k.wId.toNat_lt BitField.fit_nil)
  · rintro ⟨w, d⟩ ⟨w', d'⟩ h
    simp only [args, List.cons.injEq, UInt16.toNat_inj, UInt8.toNat_inj, and_true] at h
    obtain ⟨rfl, rfl⟩ := h
    rfl

/-- The layout of the three keys that end in an id of 32 bits. -/
theorem fit_id (w : UInt16) (d : UInt8) (i : UInt32) :
    BitField.Fit [⟨32, i.toNat⟩, ⟨8, d.toNat⟩, ⟨16, w.toNat⟩] :=
  BitField.fit_cons i.toNat_lt (BitField.fit_cons d.toNat_lt
    (BitField.fit_cons w.toNat_lt BitField.fit_nil))

theorem args_id_inj {w w' : UInt16} {d d' : UInt8} {i i' : UInt32}
    (h : [w.toNat, d.toNat, i.toNat] = [w'.toNat, d'.toNat, i'.toNat]) :
    w = w' ∧ d = d' ∧ i = i' := by
  simpa only [List.cons.injEq, UInt16.toNat_inj, UInt8.toNat_inj, UInt32.toNat_inj, and_true] using h

theorem CustomerKey.sortsAs : SortsAs CustomerKey.rawKey CustomerKey.args := by
  refine sortsAs_of_fields fields [32, 8, 16] (fun _ => rfl) (fun _ => rfl) (fun _ => rfl)
    (by decide) (fun k => fit_id k.wId k.dId k.cId) ?_
  rintro ⟨w, d, c⟩ ⟨w', d', c'⟩ h
  obtain ⟨rfl, rfl, rfl⟩ := args_id_inj h
  rfl

theorem OrderKey.sortsAs : SortsAs OrderKey.rawKey OrderKey.args := by
  refine sortsAs_of_fields fields [32, 8, 16] (fun _ => rfl) (fun _ => rfl) (fun _ => rfl)
    (by decide) (fun k => fit_id k.wId k.dId k.oId) ?_
  rintro ⟨w, d, o⟩ ⟨w', d', o'⟩ h
  obtain ⟨rfl, rfl, rfl⟩ := args_id_inj h
  rfl

theorem NewOrderKey.sortsAs : SortsAs NewOrderKey.rawKey NewOrderKey.args := by
  refine sortsAs_of_fields fields [32, 8, 16] (fun _ => rfl) (fun _ => rfl) (fun _ => rfl)
    (by decide) (fun k => fit_id k.wId k.dId k.oId) ?_
  rintro ⟨w, d, o⟩ ⟨w', d', o'⟩ h
  obtain ⟨rfl, rfl, rfl⟩ := args_id_inj h
  rfl

namespace OrderLineKey

theorem rawKey_eq_pack (k : OrderLineKey) : k.rawKey = BitField.pack k.fields := by
  have hn := k.olNumber.toNat_lt
  have ho := k.oId.toNat_lt
  have hd := k.dId.toNat_lt
  have hw := k.wId.toNat_lt
  simp only [rawKey, fields, BitField.pack, Nat.mod_eq_of_lt hn, Nat.mod_eq_of_lt ho,
    Nat.mod_eq_of_lt hd, Nat.mod_eq_of_lt hw]
  omega

theorem sortsAs : SortsAs rawKey args := by
  refine sortsAs_of_fields fields [8, 32, 8, 16] rawKey_eq_pack (fun _ => rfl) (fun _ => rfl)
    (by decide) (fun k => ?_) ?_
  · exact BitField.fit_cons k.olNumber.toNat_lt (fit_id k.wId k.dId k.oId)
  · rintro ⟨w, d, o, n⟩ ⟨w', d', o', n'⟩ h
    simp only [args, List.cons.injEq, UInt16.toNat_inj, UInt8.toNat_inj, UInt32.toNat_inj,
      and_true] at h
    obtain ⟨rfl, rfl, rfl, rfl⟩ := h
    rfl

/-- What `range_query` and `range_update` visit: the keys from `low`, below `up`. -/
def InRange (k : OrderLineKey) (range : OrderLineKey × OrderLineKey) : Prop :=
  range.1.rawKey ≤ k.rawKey ∧ k.rawKey < range.2.rawKey

/-- A range between the first lines of two orders of one district holds the
lines of the orders in between. -/
theorem inRange_iff {w : UInt16} {d : UInt8} {o o' : UInt32} {k : OrderLineKey}
    (hk : 1 ≤ k.olNumber) :
    k.InRange (⟨w, d, o, 1⟩, ⟨w, d, o', 1⟩) ↔
      k.wId = w ∧ k.dId = d ∧ o.toNat ≤ k.oId.toNat ∧ k.oId.toNat < o'.toNat := by
  have hn := k.olNumber.toNat_lt
  have ho := k.oId.toNat_lt
  have hd := k.dId.toNat_lt
  have hk : 1 ≤ k.olNumber.toNat := hk
  have h1 : (1 : UInt8).toNat = 1 := rfl
  rw [← UInt16.toNat_inj, ← UInt8.toNat_inj, InRange, rawKey, rawKey, rawKey]
  dsimp only
  rw [h1]
  have := o.toNat_lt
  have := o'.toNat_lt
  have := d.toNat_lt
  omega

/-- The range of `OrderStatusTx::run` and of `DeliveryTx::run`, for the order they have read. -/
def linesOf (o : Order) : OrderLineKey × OrderLineKey :=
  (⟨o.oWId, o.oDId, o.oId, 1⟩, ⟨o.oWId, o.oDId, o.oId + 1, 1⟩)

/-- The range of `StockLevelTx::run`. -/
def lastOrders (wId : UInt16) (dId : UInt8) (d : District) : OrderLineKey × OrderLineKey :=
  (⟨wId, dId, d.dNextOId - 20, 1⟩, ⟨wId, dId, d.dNextOId, 1⟩)

theorem inRange_linesOf {o : Order} (ho : o.oId.toNat < 2 ^ 32 - 1) {k : OrderLineKey}
    (hk : 1 ≤ k.olNumber) :
    k.InRange (linesOf o) ↔ k.wId = o.oWId ∧ k.dId = o.oDId ∧ k.oId = o.oId := by
  have hnext : (o.oId + 1).toNat = o.oId.toNat + 1 := by
    rw [UInt32.toNat_add, UInt32.toNat_one]
    omega
  rw [linesOf, inRange_iff hk, hnext, ← UInt32.toNat_inj]
  refine and_congr_right (fun _ => and_congr_right (fun _ => ?_))
  omega

theorem inRange_lastOrders (wId : UInt16) (dId : UInt8) {d : District} (hd : 21 ≤ d.dNextOId)
    {k : OrderLineKey} (hk : 1 ≤ k.olNumber) :
    k.InRange (lastOrders wId dId d) ↔ k.wId = wId ∧ k.dId = dId ∧
      d.dNextOId.toNat - 20 ≤ k.oId.toNat ∧ k.oId.toNat < d.dNextOId.toNat := by
  have hle : (20 : UInt32) ≤ d.dNextOId := UInt32.le_trans (by decide) hd
  rw [lastOrders, inRange_iff hk, UInt32.toNat_sub_of_le _ _ hle]
  rfl

end OrderLineKey

/-- The primary keys sort as their arguments, and the ranges over them hold the
lines they are meant for. -/
theorem primary_keys_sort :
    SortsAs StockKey.rawKey StockKey.args ∧ SortsAs DistrictKey.rawKey DistrictKey.args ∧
    SortsAs CustomerKey.rawKey CustomerKey.args ∧ SortsAs OrderKey.rawKey OrderKey.args ∧
    SortsAs NewOrderKey.rawKey NewOrderKey.args ∧
    SortsAs OrderLineKey.rawKey OrderLineKey.args ∧
    (∀ o : Order, o.oId.toNat < 2 ^ 32 - 1 → ∀ k : OrderLineKey, 1 ≤ k.olNumber →
      (k.InRange (OrderLineKey.linesOf o) ↔
        k.wId = o.oWId ∧ k.dId = o.oDId ∧ k.oId = o.oId)) ∧
    (∀ wId dId (d : District), 21 ≤ d.dNextOId → ∀ k : OrderLineKey, 1 ≤ k.olNumber →
      (k.InRange (OrderLineKey.lastOrders wId dId d) ↔ k.wId = wId ∧ k.dId = dId ∧
        d.dNextOId.toNat - 20 ≤ k.oId.toNat ∧ k.oId.toNat < d.dNextOId.toNat)) :=
  ⟨StockKey.sortsAs, DistrictKey.sortsAs, CustomerKey.sortsAs, OrderKey.sortsAs,
    NewOrderKey.sortsAs, OrderLineKey.sortsAs, fun _ ho _ hk => OrderLineKey.inRange_linesOf ho hk,
    fun wId dId _ hd _ hk => OrderLineKey.inRange_lastOrders wId dId hd hk⟩

/-- The range of StockLevel in a district that has had one order too few: it wraps around. -/
example : OrderLineKey.lastOrders 1 1 ⟨1, 1, 19, 0⟩ =
    (⟨1, 1, 4294967295, 1⟩, ⟨1, 1, 19, 1⟩) := rfl

end Mvdcc.Tpcc
