import Mvdcc.Tpcc.Keys

namespace Mvdcc.Tpcc
open Library

/-- The arguments of `OrderSecondaryKey::create_key`. -/
structure OrderSecondaryKey where
  wId : UInt16
  dId : UInt8
  cId : UInt32
  oId : UInt32
  deriving DecidableEq

namespace OrderSecondaryKey

/-- The bit-fields. Those of the customer, the district and the warehouse are
narrower than the arguments. -/
def fields (k : OrderSecondaryKey) : List BitField :=
  [⟨32, k.oId.toNat⟩, ⟨16, k.cId.toNat⟩, ⟨4, k.dId.toNat⟩, ⟨12, k.wId.toNat⟩]

def rawKey (k : OrderSecondaryKey) : Nat := BitField.pack k.fields

def args (k : OrderSecondaryKey) : List Nat :=
  [k.wId.toNat, k.dId.toNat, k.cId.toNat, k.oId.toNat]

def customer (k : OrderSecondaryKey) : UInt16 × UInt8 × UInt32 := (k.wId, k.dId, k.cId)

/-- The orders of a database with this many warehouses. -/
structure Admitted (numWarehouses : UInt16) (k : OrderSecondaryKey) : Prop where
  wId : 1 ≤ k.wId ∧ k.wId ≤ numWarehouses
  dId : 1 ≤ k.dId ∧ k.dId ≤ 10
  cId : 1 ≤ k.cId ∧ k.cId ≤ 3000

/-- The key finds a customer's orders: they are contiguous, with the newest one last. -/
structure Identifies (numWarehouses : UInt16) : Prop where
  injective : ∀ a b, Admitted numWarehouses a → Admitted numWarehouses b →
    a.rawKey = b.rawKey → a = b
  lt_iff : ∀ a b, Admitted numWarehouses a → Admitted numWarehouses b →
    (a.rawKey < b.rawKey ↔ List.Lex (· < ·) a.args b.args)
  contiguous : ∀ a b x, Admitted numWarehouses a → Admitted numWarehouses b →
    Admitted numWarehouses x → a.customer = b.customer → a.rawKey ≤ x.rawKey →
    x.rawKey ≤ b.rawKey → x.customer = a.customer
  newest : ∀ a b, Admitted numWarehouses a → Admitted numWarehouses b →
    a.customer = b.customer → (a.rawKey < b.rawKey ↔ a.oId < b.oId)

theorem args_inj {a b : OrderSecondaryKey} (h : a.args = b.args) : a = b := by
  obtain ⟨w, d, c, o⟩ := a
  obtain ⟨w', d', c', o'⟩ := b
  simp only [args, List.cons.injEq, UInt16.toNat_inj, UInt8.toNat_inj, UInt32.toNat_inj,
    and_true] at h
  obtain ⟨rfl, rfl, rfl, rfl⟩ := h
  rfl

variable {n : UInt16} {a b : OrderSecondaryKey}

theorem Admitted.fit (hn : n.toNat ≤ 4095) (h : Admitted n a) : BitField.Fit a.fields := by
  have hw : a.wId.toNat ≤ n.toNat := h.wId.2
  have hd : a.dId.toNat ≤ 10 := h.dId.2
  have hc : a.cId.toNat ≤ 3000 := h.cId.2
  refine BitField.fit_cons a.oId.toNat_lt (BitField.fit_cons ?_ (BitField.fit_cons ?_
    (BitField.fit_cons ?_ BitField.fit_nil)))
  · change a.cId.toNat < 65536
    omega
  · change a.dId.toNat < 16
    omega
  · change a.wId.toNat < 4096
    omega

theorem rawKey_lt_iff (hn : n.toNat ≤ 4095) (ha : Admitted n a) (hb : Admitted n b) :
    a.rawKey < b.rawKey ↔ List.Lex (· < ·) a.args b.args :=
  BitField.pack_lt_pack rfl (ha.fit hn) (hb.fit hn)

/-- One customer's orders differ in the lowest field. -/
theorem rawKey_lt_iff_of_customer (hn : n.toNat ≤ 4095) (ha : Admitted n a) (hb : Admitted n b)
    (hc : a.customer = b.customer) : a.rawKey < b.rawKey ↔ a.oId < b.oId := by
  obtain ⟨w, d, c, o⟩ := a
  obtain ⟨w', d', c', o'⟩ := b
  obtain ⟨rfl, rfl, rfl⟩ : w = w' ∧ d = d' ∧ c = c' := by simpa [customer] using hc
  rw [rawKey_lt_iff hn ha hb]
  simp [args, List.cons_lex_cons_iff, UInt32.lt_iff_toNat_lt]

/-- Of two customers, all orders of the one come before all of the other. -/
theorem customer_of_between (hn : n.toNat ≤ 4095) {x : OrderSecondaryKey} (ha : Admitted n a)
    (hb : Admitted n b) (hx : Admitted n x) (hc : a.customer = b.customer)
    (hax : a.rawKey ≤ x.rawKey) (hxb : x.rawKey ≤ b.rawKey) : x.customer = a.customer := by
  have hxa := mt (rawKey_lt_iff hn hx ha).mpr (Nat.not_lt.mpr hax)
  have hbx := mt (rawKey_lt_iff hn hb hx).mpr (Nat.not_lt.mpr hxb)
  obtain ⟨w, d, c, o⟩ := a
  obtain ⟨w', d', c', o'⟩ := b
  obtain ⟨w'', d'', c'', o''⟩ := x
  obtain ⟨rfl, rfl, rfl⟩ : w = w' ∧ d = d' ∧ c = c' := by simpa [customer] using hc
  simp only [args, List.cons_lex_cons_iff, not_or, not_and] at hxa hbx
  have hw : w.toNat = w''.toNat := Nat.le_antisymm (Nat.not_lt.mp hxa.1) (Nat.not_lt.mp hbx.1)
  have hd : d.toNat = d''.toNat :=
    Nat.le_antisymm (Nat.not_lt.mp (hxa.2 hw.symm).1) (Nat.not_lt.mp (hbx.2 hw).1)
  have hcId : c.toNat = c''.toNat :=
    Nat.le_antisymm (Nat.not_lt.mp ((hxa.2 hw.symm).2 hd.symm).1)
      (Nat.not_lt.mp ((hbx.2 hw).2 hd).1)
  rw [customer, customer, UInt16.toNat_inj.mp hw, UInt8.toNat_inj.mp hd, UInt32.toNat_inj.mp hcId]

theorem admitted_first {w : UInt16} (h1 : 1 ≤ w) (hn : w ≤ n) : Admitted n ⟨w, 1, 1, 1⟩ := by
  have hd : (1 : UInt8) ≤ 1 ∧ (1 : UInt8) ≤ 10 := by decide
  have hc : (1 : UInt32) ≤ 1 ∧ (1 : UInt32) ≤ 3000 := by decide
  exact ⟨⟨h1, hn⟩, hd, hc⟩

/-- The key identifies orders as long as every warehouse fits into twelve bits. -/
theorem identifies_iff (numWarehouses : UInt16) :
    Identifies numWarehouses ↔ numWarehouses.toNat ≤ 4095 := by
  constructor
  · intro h
    by_contra hn
    have h1 : (1 : UInt16) ≤ numWarehouses := UInt16.le_iff_toNat_le.mpr
      (show 1 ≤ numWarehouses.toNat by omega)
    have h4096 : (4096 : UInt16) ≤ numWarehouses := UInt16.le_iff_toNat_le.mpr
      (show 4096 ≤ numWarehouses.toNat by omega)
    -- warehouse 4096 gets the field 0, and so sorts before warehouse 1
    have hlt := (h.lt_iff _ _ (admitted_first (by decide) h1) (admitted_first (by decide) h4096)).mpr
      (List.Lex.rel (by decide))
    exact absurd hlt (by decide)
  · intro hn
    refine ⟨fun a b ha hb h => ?_, fun a b ha hb => rawKey_lt_iff hn ha hb,
      fun a b x ha hb hx => customer_of_between hn ha hb hx,
      fun a b ha hb => rawKey_lt_iff_of_customer hn ha hb⟩
    have hwidths : a.fields.map BitField.width = b.fields.map BitField.width := rfl
    have hvalues := (BitField.pack_inj hwidths (ha.fit hn) (hb.fit hn)).mp h
    exact args_inj (congrArg List.reverse hvalues)

/-- With 4097 warehouses the first orders of two of them have one key. -/
theorem warehouse_4097_shares_keys :
    rawKey ⟨4097, 1, 1, 1⟩ = rawKey ⟨1, 1, 1, 1⟩ ∧ ¬ Identifies 4097 := by
  refine ⟨by decide, fun h => ?_⟩
  have heq := h.injective ⟨4097, 1, 1, 1⟩ ⟨1, 1, 1, 1⟩ (admitted_first (by decide) (by decide))
    (admitted_first (by decide) (by decide)) (by decide)
  exact absurd heq (by decide)

end OrderSecondaryKey
end Mvdcc.Tpcc
