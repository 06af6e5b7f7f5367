import Mathlib.Data.Nat.Bitwise
import Mvdcc.Tpcc.Profiles

namespace Mvdcc.Tpcc

/-! Inputs and rows, from the values that the random generator returns. -/

/-- `urand_int(min, max)`, with the value that the generator returns. -/
def urandInt (min max : Nat) (r : UInt64) : Nat := r.toNat % (max - min + 1) + min

/-- `get_constant_for_nurand`, outside of the load. -/
def getConstantForNurand : Nat → Nat
  | 255 => 150
  | 1023 => 987
  | 8191 => 5987
  | _ => 2 ^ 64 - 1

/-- `nurand_int<A>(x, y)`, with the values of its two calls of `urand_int`. -/
def nurandInt (A x y : Nat) (r : UInt64 × UInt64) : Nat :=
  ((urandInt 0 A r.1 ||| urandInt x y r.2) + getConstantForNurand A) % (y - x + 1) + x

theorem le_urandInt (min max : Nat) (r : UInt64) : min ≤ urandInt min max r :=
  Nat.le_add_left _ _

theorem urandInt_le {min max : Nat} (h : min ≤ max) (r : UInt64) : urandInt min max r ≤ max := by
  have hlt : r.toNat % (max - min + 1) < max - min + 1 := Nat.mod_lt _ (Nat.succ_pos _)
  unfold urandInt
  omega

theorem nurandInt_mem {A x y : Nat} (h : x ≤ y) (r : UInt64 × UInt64) :
    x ≤ nurandInt A x y r ∧ nurandInt A x y r ≤ y := by
  have hlt : ((urandInt 0 A r.1 ||| urandInt x y r.2) + getConstantForNurand A) % (y - x + 1) <
      y - x + 1 := Nat.mod_lt _ (Nat.succ_pos _)
  unfold nurandInt
  omega

/-- A small range survives the conversion to eight bits. -/
theorem toNat_urandInt {min max : Nat} (h : min ≤ max) (hm : max < 2 ^ 8) (r : UInt64) :
    (UInt8.ofNat (urandInt min max r)).toNat = urandInt min max r :=
  UInt8.toNat_ofNat_of_lt' ((urandInt_le h r).trans_lt hm)

theorem toNat_nurandInt {A x y : Nat} (h : x ≤ y) (hm : y < 2 ^ 32) (r : UInt64 × UInt64) :
    (UInt32.ofNat (nurandInt A x y r)).toNat = nurandInt A x y r :=
  UInt32.toNat_ofNat_of_lt' ((nurandInt_mem h r).2.trans_lt hm)

/-- `Stock::generate`, as far as the profiles see it: `s_quantity` is drawn. -/
def Stock.generate (sWId : UInt16) (sIId : UInt32) (sDist : List String) (r : UInt64) : Stock where
  sWId := sWId
  sIId := sIId
  sQuantity := Int16.ofInt (urandInt 10 100 r)
  sYtd := 0
  sOrderCnt := 0
  sRemoteCnt := 0
  sDist := sDist

namespace NewOrderTx

/-- What is drawn for the order lines, call by call: the items, the warehouses
with those that are drawn again, and the quantities. -/
structure LineDraws where
  items : List (UInt64 × UInt64)
  warehouses : List UInt64
  quantities : List UInt64
  deriving DecidableEq

structure Draws where
  dId : UInt64
  cId : UInt64 × UInt64
  olCnt : UInt64
  rbk : UInt64
  isRemote : UInt64
  lines : LineDraws

section Generate
variable (numWarehouses wId : UInt16)

/-- The loop for a warehouse other than the home warehouse. -/
def drawRemote : List UInt64 → Option (UInt16 × List UInt64)
  | [] => none
  | r :: rs =>
    let remoteWId := UInt16.ofNat (urandInt 1 numWarehouses.toNat r)
    if remoteWId = wId then drawRemote rs else some (remoteWId, rs)

def generateItemId (unused : Bool) (items : List (UInt64 × UInt64)) :
    Option (UInt32 × List (UInt64 × UInt64)) :=
  match unused, items with
  | true, items => some (unusedItemId, items)
  | false, [] => none
  | false, r :: items => some (UInt32.ofNat (nurandInt 8191 1 100000 r), items)

def generateSupply (isRemote : Bool) (warehouses : List UInt64) :
    Option (UInt16 × List UInt64) :=
  if isRemote = true ∧ 1 < numWarehouses then drawRemote numWarehouses wId warehouses
  else some (wId, warehouses)

def generateQuantity : List UInt64 → Option (UInt8 × List UInt64)
  | [] => none
  | r :: rs => some (UInt8.ofNat (urandInt 1 10 r), rs)

/-- The body of the loop over the order lines. -/
def generateItem (isRemote unused : Bool) (d : LineDraws) : Option (OrderedItem × LineDraws) := do
  let (olIId, items) ← generateItemId unused d.items
  let (olSupplyWId, warehouses) ← generateSupply numWarehouses wId isRemote d.warehouses
  let (olQuantity, quantities) ← generateQuantity d.quantities
  return (⟨olSupplyWId, olIId, olQuantity⟩, ⟨items, warehouses, quantities⟩)

/-- The loop over the order lines, with so many to go. The last one is spoilt for a rollback. -/
def generateItems (isRemote rbk : Bool) : Nat → LineDraws → Option (List OrderedItem × LineDraws)
  | 0, d => some ([], d)
  | m + 1, d => do
    let (item, d) ← generateItem numWarehouses wId isRemote (m = 0 && rbk) d
    let (items, d) ← generateItems isRemote rbk m d
    return (item :: items, d)

/-- `Input::generate`, if it returns after exactly these draws. -/
def generate (d : Draws) : Option Input := do
  let olCnt := urandInt 5 15 d.olCnt
  let rbk := decide (urandInt 1 100 d.rbk = 1)
  let isRemote := decide (urandInt 1 100 d.isRemote = 1)
  let (items, rest) ← generateItems numWarehouses wId isRemote rbk olCnt d.lines
  if rest = ⟨[], [], []⟩ then
    return {
      wId := wId
      dId := UInt8.ofNat (urandInt 1 10 d.dId)
      cId := UInt32.ofNat (nurandInt 1023 1 3000 d.cId)
      olCnt := UInt8.ofNat olCnt
      rbk := rbk
      isRemote := isRemote
      items := fun i => items.getD i ⟨0, 0, 0⟩ }
  else none

end Generate

/-- The draws for an item that give `Item::UNUSED_ID`. -/
def HitsUnused (p : UInt64 × UInt64) : Prop :=
  urandInt 0 8191 p.1 ||| urandInt 1 100000 p.2 = 94013

instance (p : UInt64 × UInt64) : Decidable (HitsUnused p) :=
  inferInstanceAs (Decidable (_ = _))

theorem nurandInt_eq_one (p : UInt64 × UInt64) : nurandInt 8191 1 100000 p = 1 ↔ HitsUnused p := by
  have ha : urandInt 0 8191 p.1 ≤ 8191 := urandInt_le (by decide) p.1
  have hb : urandInt 1 100000 p.2 ≤ 100000 := urandInt_le (by decide) p.2
  have hor : urandInt 0 8191 p.1 ||| urandInt 1 100000 p.2 < 2 ^ 17 :=
    Nat.or_lt_two_pow (by omega) (by omega)
  have hc : getConstantForNurand 8191 = 5987 := rfl
  unfold HitsUnused nurandInt
  rw [hc]
  omega

structure OrderedItem.Generated (numWarehouses wId : UInt16) (isRemote : Bool)
    (item : OrderedItem) : Prop where
  olIId : 1 ≤ item.olIId ∧ item.olIId ≤ 100000
  home : 1 ≤ wId → wId ≤ numWarehouses → 1 ≤ item.olSupplyWId ∧ item.olSupplyWId ≤ numWarehouses
  remote : item.olSupplyWId = wId ↔ ¬ (isRemote = true ∧ 1 < numWarehouses)
  olQuantity : 1 ≤ item.olQuantity ∧ item.olQuantity ≤ 10

variable {numWarehouses wId : UInt16} {isRemote unused rbk : Bool}

theorem drawRemote_spec (hn : 1 ≤ numWarehouses) {rs rest : List UInt64} {w : UInt16}
    (h : drawRemote numWarehouses wId rs = some (w, rest)) :
    w ≠ wId ∧ 1 ≤ w ∧ w ≤ numWarehouses := by
  induction rs with
  | nil => cases h
  | cons r rs ih =>
    dsimp only [drawRemote] at h
    split at h
    · exact ih h
    · rename_i hne
      obtain ⟨rfl, -⟩ : UInt16.ofNat (urandInt 1 numWarehouses.toNat r) = w ∧ rs = rest := by
        simpa using h
      have hlow := le_urandInt 1 numWarehouses.toNat r
      have hpos : 1 ≤ numWarehouses.toNat := hn
      have hhigh := urandInt_le hpos r
      have hlt := numWarehouses.toNat_lt
      have heq : (UInt16.ofNat (urandInt 1 numWarehouses.toNat r)).toNat =
          urandInt 1 numWarehouses.toNat r := UInt16.toNat_ofNat_of_lt' (by rw [UInt16.size]; omega)
      refine ⟨hne, UInt16.le_iff_toNat_le.mpr ?_, UInt16.le_iff_toNat_le.mpr ?_⟩
      · rw [heq]
        exact hlow
      · rw [heq]
        exact hhigh

theorem generateSupply_spec (hn : 1 ≤ numWarehouses) {rs rest : List UInt64} {w : UInt16}
    (h : generateSupply numWarehouses wId isRemote rs = some (w, rest)) :
    (1 ≤ wId → wId ≤ numWarehouses → 1 ≤ w ∧ w ≤ numWarehouses) ∧
    (w = wId ↔ ¬ (isRemote = true ∧ 1 < numWarehouses)) := by
  unfold generateSupply at h
  split at h
  · rename_i hremote
    obtain ⟨hne, hlow, hhigh⟩ := drawRemote_spec hn h
    exact ⟨fun _ _ => ⟨hlow, hhigh⟩, iff_of_false hne (not_not_intro hremote)⟩
  · rename_i hlocal
    obtain ⟨rfl, -⟩ : wId = w ∧ rs = rest := by simpa using h
    exact ⟨fun hlow hhigh => ⟨hlow, hhigh⟩, iff_of_true rfl hlocal⟩

theorem generateItemId_spec {items rest : List (UInt64 × UInt64)} {iId : UInt32}
    (h : generateItemId unused items = some (iId, rest)) :
    (1 ≤ iId ∧ iId ≤ 100000) ∧ ∃ taken, items = taken ++ rest ∧
      (iId = unusedItemId ↔ unused = true ∨ ∃ p ∈ taken, HitsUnused p) := by
  match unused, items with
  | true, items =>
    obtain ⟨rfl, rfl⟩ : unusedItemId = iId ∧ items = rest := by simpa [generateItemId] using h
    exact ⟨by decide, [], rfl, by simp⟩
  | false, [] => cases h
  | false, r :: items =>
    obtain ⟨rfl, rfl⟩ : UInt32.ofNat (nurandInt 8191 1 100000 r) = iId ∧ items = rest := by
      simpa [generateItemId] using h
    have heq : (UInt32.ofNat (nurandInt 8191 1 100000 r)).toNat = nurandInt 8191 1 100000 r :=
      toNat_nurandInt (by decide) (by decide) r
    have hmem : 1 ≤ nurandInt 8191 1 100000 r ∧ nurandInt 8191 1 100000 r ≤ 100000 :=
      nurandInt_mem (by decide) r
    rw [← heq] at hmem
    refine ⟨hmem, [r], rfl, ?_⟩
    · rw [← UInt32.toNat_inj, heq]
      change nurandInt 8191 1 100000 r = 1 ↔ _
      simp [nurandInt_eq_one]

theorem generateQuantity_spec {rs rest : List UInt64} {q : UInt8}
    (h : generateQuantity rs = some (q, rest)) : 1 ≤ q ∧ q ≤ 10 := by
  cases rs with
  | nil => cases h
  | cons r rs =>
    obtain ⟨rfl, -⟩ : UInt8.ofNat (urandInt 1 10 r) = q ∧ rs = rest := by
      simpa [generateQuantity] using h
    have hmem : 1 ≤ urandInt 1 10 r ∧ urandInt 1 10 r ≤ 10 :=
      ⟨le_urandInt 1 10 r, urandInt_le (by decide) r⟩
    rw [← toNat_urandInt (by decide) (by decide)] at hmem
    exact hmem

theorem generateItem_spec (hn : 1 ≤ numWarehouses) {d rest : LineDraws} {item : OrderedItem}
    (h : generateItem numWarehouses wId isRemote unused d = some (item, rest)) :
    item.Generated numWarehouses wId isRemote ∧ ∃ taken, d.items = taken ++ rest.items ∧
      (item.olIId = unusedItemId ↔ unused = true ∨ ∃ p ∈ taken, HitsUnused p) := by
  obtain ⟨⟨iId, items⟩, hitem, h⟩ := Option.bind_eq_some_iff.mp h
  obtain ⟨⟨w, warehouses⟩, hsupply, h⟩ := Option.bind_eq_some_iff.mp h
  obtain ⟨⟨q, quantities⟩, hquantity, h⟩ := Option.bind_eq_some_iff.mp h
  obtain ⟨rfl, rfl⟩ : (⟨w, iId, q⟩ : OrderedItem) = item ∧
      (⟨items, warehouses, quantities⟩ : LineDraws) = rest := by simpa using h
  obtain ⟨hrange, hunused⟩ := generateItemId_spec hitem
  obtain ⟨hhome, hremote⟩ := generateSupply_spec hn hsupply
  exact ⟨⟨hrange, hhome, hremote, generateQuantity_spec hquantity⟩, hunused⟩

/-- Of the lines only the last one can be spoilt, and a drawn item can hit the
reserved id anyway. -/
theorem generateItems_spec (hn : 1 ≤ numWarehouses) {m : Nat} {d rest : LineDraws}
    {items : List OrderedItem}
    (h : generateItems numWarehouses wId isRemote rbk m d = some (items, rest)) :
    items.length = m ∧ (∀ item ∈ items, item.Generated numWarehouses wId isRemote) ∧
    ∃ taken, d.items = taken ++ rest.items ∧
      ((∃ item ∈ items, item.olIId = unusedItemId) ↔
        (0 < m ∧ rbk = true) ∨ ∃ p ∈ taken, HitsUnused p) := by
  induction m generalizing d items with
  | zero =>
    obtain ⟨rfl, rfl⟩ : [] = items ∧ d = rest := by simpa [generateItems] using h
    exact ⟨rfl, nofun, [], rfl, by simp⟩
  | succ m ih =>
    obtain ⟨⟨item, left⟩, hitem, h⟩ := Option.bind_eq_some_iff.mp h
    obtain ⟨⟨others, left'⟩, hothers, h⟩ := Option.bind_eq_some_iff.mp h
    obtain ⟨rfl, rfl⟩ : item :: others = items ∧ left' = rest := by simpa using h
    obtain ⟨hgenerated, first, hfirst, hunused⟩ := generateItem_spec hn hitem
    obtain ⟨hlength, hall, taken, htaken, hany⟩ := ih hothers
    refine ⟨by rw [List.length_cons, hlength], ?_, first ++ taken,
      by rw [hfirst, htaken, List.append_assoc], ?_⟩
    · intro item' hitem'
      rcases List.mem_cons.mp hitem' with rfl | hitem'
      · exact hgenerated
      · exact hall item' hitem'
    · have hsplit : (∃ p ∈ first ++ taken, HitsUnused p) ↔
          (∃ p ∈ first, HitsUnused p) ∨ ∃ p ∈ taken, HitsUnused p := by
        simp only [List.mem_append, or_and_right, exists_or]
      rw [List.exists_mem_cons_iff, hunused, hany, hsplit]
      generalize (∃ p ∈ first, HitsUnused p) = hitFirst
      generalize (∃ p ∈ taken, HitsUnused p) = hitTaken
      rcases Nat.eq_zero_or_pos m with rfl | hm
      · simp [or_assoc]
      · have hne : m ≠ 0 := Nat.ne_of_gt hm
        simp only [hne, hm, decide_false, Bool.false_and, Bool.false_eq_true, false_or, true_and,
          Nat.zero_lt_succ]
        exact or_left_comm

/-- What `generate` ensures of its result, and when one of the lines is spoilt. -/
structure Input.Generated (numWarehouses home : UInt16) (d : Draws) (input : Input) : Prop where
  wId : input.wId = home
  dId : 1 ≤ input.dId ∧ input.dId ≤ 10
  cId : 1 ≤ input.cId ∧ input.cId ≤ 3000
  olCnt : 5 ≤ input.olCnt.toNat ∧ input.olCnt.toNat ≤ 15
  rbk : input.rbk = true ↔ urandInt 1 100 d.rbk = 1
  isRemote : input.isRemote = true ↔ urandInt 1 100 d.isRemote = 1
  items : ∀ i < input.olCnt.toNat, (input.items i).Generated numWarehouses home input.isRemote
  unused : (∃ i < input.olCnt.toNat, (input.items i).olIId = unusedItemId) ↔
    input.rbk = true ∨ ∃ p ∈ d.lines.items, HitsUnused p

theorem generate_spec (hn : 1 ≤ numWarehouses) {d : Draws} {input : Input}
    (h : generate numWarehouses wId d = some input) : input.Generated numWarehouses wId d := by
  obtain ⟨⟨items, rest⟩, hitems, h⟩ := Option.bind_eq_some_iff.mp h
  dsimp only at h
  split at h
  · rename_i hrest
    subst hrest
    obtain rfl := Option.some.inj h
    obtain ⟨hlength, hall, taken, htaken, hany⟩ := generateItems_spec hn hitems
    rw [List.append_nil] at htaken
    subst htaken
    have hcnt : 5 ≤ urandInt 5 15 d.olCnt ∧ urandInt 5 15 d.olCnt ≤ 15 :=
      ⟨le_urandInt _ _ _, urandInt_le (by decide) _⟩
    have holCnt : (UInt8.ofNat (urandInt 5 15 d.olCnt)).toNat = urandInt 5 15 d.olCnt :=
      toNat_urandInt (by decide) (by decide) _
    have hget : ∀ i < urandInt 5 15 d.olCnt, items.getD i ⟨0, 0, 0⟩ ∈ items := by
      intro i hi
      rw [← hlength] at hi
      rw [List.getD_eq_getElem _ _ hi]
      exact List.getElem_mem hi
    have hindex : (∃ i < urandInt 5 15 d.olCnt, (items.getD i ⟨0, 0, 0⟩).olIId = unusedItemId) ↔
        ∃ item ∈ items, item.olIId = unusedItemId := by
      constructor
      · rintro ⟨i, hi, hunused⟩
        exact ⟨_, hget i hi, hunused⟩
      · rintro ⟨item, hitem, hunused⟩
        obtain ⟨i, hi, rfl⟩ := List.getElem_of_mem hitem
        exact ⟨i, hlength ▸ hi, by rwa [List.getD_eq_getElem _ _ hi]⟩
    have hdId : 1 ≤ urandInt 1 10 d.dId ∧ urandInt 1 10 d.dId ≤ 10 :=
      ⟨le_urandInt 1 10 d.dId, urandInt_le (by decide) d.dId⟩
    have hcId : 1 ≤ nurandInt 1023 1 3000 d.cId ∧ nurandInt 1023 1 3000 d.cId ≤ 3000 :=
      nurandInt_mem (by decide) d.cId
    rw [← toNat_urandInt (by decide) (by decide)] at hdId
    rw [← toNat_nurandInt (by decide) (by decide)] at hcId
    refine ⟨rfl, hdId, hcId, ?_, decide_eq_true_iff, decide_eq_true_iff, ?_, ?_⟩
    · rw [holCnt]
      exact hcnt
    · intro i hi
      rw [holCnt] at hi
      exact hall _ (hget i hi)
    · rw [holCnt, hindex, hany, and_iff_right (by omega)]
  · cases h

end NewOrderTx
end Mvdcc.Tpcc
