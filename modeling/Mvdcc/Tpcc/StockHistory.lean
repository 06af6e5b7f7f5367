import Mathlib.Data.List.Infix
import Mathlib.Algebra.BigOperators.Group.List.Basic
import Mvdcc.Tpcc.Generate

namespace Mvdcc.Tpcc.NewOrderTx

/-- What an order line does to the stock row it is supplied from. -/
structure StockLine where
  olQuantity : UInt8
  isRemote : Bool

def StockLine.Generated (l : StockLine) : Prop := 1 ≤ l.olQuantity ∧ l.olQuantity ≤ 10

def process (s : Stock) (lines : List StockLine) : Stock :=
  lines.foldl (fun s l => modifyStock s l.olQuantity l.isRemote) s

theorem process_concat (s : Stock) (lines : List StockLine) (l : StockLine) :
    process s (lines ++ [l]) = modifyStock (process s lines) l.olQuantity l.isRemote := by
  rw [process, List.foldl_append]
  rfl

def InRange (s : Stock) : Prop := 10 ≤ s.sQuantity.toInt ∧ s.sQuantity.toInt ≤ 100

def Near (s : Stock) : Prop := 10 ≤ s.sQuantity.toInt ∧ s.sQuantity.toInt ≤ 101

theorem InRange.near {s : Stock} (h : InRange s) : Near s := ⟨h.1, h.2.trans (by decide)⟩

def ordered (lines : List StockLine) : Nat := (lines.map (fun l => l.olQuantity.toNat)).sum

theorem ordered_concat (lines : List StockLine) (l : StockLine) :
    ordered (lines ++ [l]) = ordered lines + l.olQuantity.toNat := by
  simp [ordered]

structure Accounted (s : Stock) (lines : List StockLine) (s' : Stock) : Prop where
  ytd : s'.sYtd.toNat = ordered lines % 2 ^ 32
  orderCnt : s'.sOrderCnt.toNat = lines.length % 2 ^ 16
  quantity : (91 : Int) ∣ s.sQuantity.toInt - ordered lines - s'.sQuantity.toInt

theorem toInt_ofInt {n : Int} (h : -1000 ≤ n ∧ n ≤ 1000) : (Int16.ofInt n).toInt = n := by
  have hsize : Int16.size = 65536 := rfl
  rw [Int16.toInt_ofInt]
  exact Int.bmod_eq_of_le (by omega) (by omega)

/-- No wrap-around near the range. -/
theorem toInt_modifyStock {s : Stock} (hs : Near s) {l : StockLine} (hl : l.Generated) :
    (modifyStock s l.olQuantity l.isRemote).sQuantity.toInt =
      if s.sQuantity.toInt > l.olQuantity.toNat + 10 then s.sQuantity.toInt - l.olQuantity.toNat
      else s.sQuantity.toInt - l.olQuantity.toNat + 91 := by
  have hlow : 1 ≤ l.olQuantity.toNat := hl.1
  have hhigh : l.olQuantity.toNat ≤ 10 := hl.2
  obtain ⟨hs10, hs101⟩ := hs
  refine toInt_ofInt ?_
  split <;> omega

theorem Near.modifyStock {s : Stock} (hs : Near s) {l : StockLine} (hl : l.Generated) :
    Near (modifyStock s l.olQuantity l.isRemote) := by
  have hlow : 1 ≤ l.olQuantity.toNat := hl.1
  have hhigh : l.olQuantity.toNat ≤ 10 := hl.2
  unfold Near
  rw [toInt_modifyStock hs hl]
  obtain ⟨hs10, hs101⟩ := hs
  split <;> omega

/-- One level escapes: that at which the comparison should not be strict. -/
theorem inRange_modifyStock_iff {s : Stock} (hs : Near s) {l : StockLine} (hl : l.Generated) :
    InRange (modifyStock s l.olQuantity l.isRemote) ↔
      s.sQuantity.toInt ≠ l.olQuantity.toNat + 10 := by
  have hlow : 1 ≤ l.olQuantity.toNat := hl.1
  have hhigh : l.olQuantity.toNat ≤ 10 := hl.2
  unfold InRange
  rw [toInt_modifyStock hs hl]
  obtain ⟨hs10, hs101⟩ := hs
  split <;> omega

theorem process_near {s : Stock} (hs : Near s) {lines : List StockLine}
    (h : ∀ l ∈ lines, l.Generated) : Near (process s lines) := by
  induction lines using List.reverseRecOn with
  | nil => exact hs
  | append_singleton lines l ih =>
    rw [process_concat]
    exact (ih (fun l' hl' => h l' (List.mem_append_left _ hl'))).modifyStock
      (h l (List.mem_append_right _ (List.mem_singleton_self l)))

theorem process_accounted {s : Stock} (hs : Near s) (hytd : s.sYtd = 0) (hcnt : s.sOrderCnt = 0)
    {lines : List StockLine} (h : ∀ l ∈ lines, l.Generated) :
    Accounted s lines (process s lines) := by
  induction lines using List.reverseRecOn with
  | nil =>
    refine ⟨?_, ?_, ?_⟩
    · rw [process, List.foldl_nil, hytd]
      rfl
    · rw [process, List.foldl_nil, hcnt]
      rfl
    · simp [process, ordered]
  | append_singleton lines l ih =>
    have hbefore : ∀ l' ∈ lines, l'.Generated := fun l' hl' => h l' (List.mem_append_left _ hl')
    have hl := h l (List.mem_append_right _ (List.mem_singleton_self l))
    obtain ⟨hy, hc, hq⟩ := ih hbefore
    rw [process_concat]
    refine ⟨?_, ?_, ?_⟩
    · change ((process s lines).sYtd + l.olQuantity.toUInt32).toNat = _
      rw [UInt32.toNat_add, UInt8.toNat_toUInt32, hy, ordered_concat, Nat.mod_add_mod]
    · change ((process s lines).sOrderCnt + 1).toNat = _
      rw [UInt16.toNat_add, UInt16.toNat_one, hc, List.length_append, Nat.mod_add_mod]
      rfl
    · rw [toInt_modifyStock (process_near hs hbefore) hl, ordered_concat]
      split <;> omega

theorem generate_inRange (sWId : UInt16) (sIId : UInt32) (sDist : List String) (r : UInt64) :
    InRange (.generate sWId sIId sDist r) := by
  have hlow := le_urandInt 10 100 r
  have hhigh : urandInt 10 100 r ≤ 100 := urandInt_le (by decide) r
  have heq : (Stock.generate sWId sIId sDist r).sQuantity.toInt = urandInt 10 100 r :=
    toInt_ofInt (by omega)
  unfold InRange
  omega

/-- Along any history of a generated stock row the books are right, and the
quantity stays in its range until a line meets it at ten above its own quantity. -/
theorem stock_history (sWId : UInt16) (sIId : UInt32) (sDist : List String) (r : UInt64)
    (lines : List StockLine) (h : ∀ l ∈ lines, l.Generated) :
    (∀ pre, pre <+: lines →
      Accounted (.generate sWId sIId sDist r) pre (process (.generate sWId sIId sDist r) pre)) ∧
    ((∀ pre, pre <+: lines → InRange (process (.generate sWId sIId sDist r) pre)) ↔
      ∀ pre l, pre ++ [l] <+: lines →
        (process (.generate sWId sIId sDist r) pre).sQuantity.toInt ≠ l.olQuantity.toNat + 10) := by
  have hstart := generate_inRange sWId sIId sDist r
  have hpre : ∀ pre, pre <+: lines → ∀ l ∈ pre, l.Generated := fun pre hp l hl =>
    h l (hp.subset hl)
  have hstep : ∀ pre l, pre ++ [l] <+: lines →
      (InRange (process (.generate sWId sIId sDist r) (pre ++ [l])) ↔
        (process (.generate sWId sIId sDist r) pre).sQuantity.toInt ≠ l.olQuantity.toNat + 10) := by
    intro pre l hp
    rw [process_concat]
    refine inRange_modifyStock_iff (process_near hstart.near ?_) ?_
    · exact fun l' hl' => hpre _ hp l' (List.mem_append_left _ hl')
    · exact hpre _ hp l (List.mem_append_right _ (List.mem_singleton_self l))
  refine ⟨fun pre hp => process_accounted hstart.near rfl rfl (hpre pre hp), ?_, ?_⟩
  · intro hrange pre l hp
    exact (hstep pre l hp).mp (hrange _ hp)
  · intro hlevel pre hp
    rcases List.eq_nil_or_concat' pre with rfl | ⟨before, l, rfl⟩
    · exact hstart
    · exact (hstep before l hp).mpr (hlevel before l hp)

/-- A stock of 10 is restocked by the first line and not by the second. -/
theorem stock_history_two_lines :
    (∀ pre, pre <+: [⟨5, false⟩, ⟨5, true⟩] →
      Accounted (.generate 1 1 [] 0) pre (process (.generate 1 1 [] 0) pre)) ∧
    ∀ pre, pre <+: [⟨5, false⟩, ⟨5, true⟩] → InRange (process (.generate 1 1 [] 0) pre) := by
  have hlines : ∀ l ∈ [(⟨5, false⟩ : StockLine), ⟨5, true⟩], l.Generated := by
    intro l hl
    simp only [List.mem_cons, List.not_mem_nil, or_false] at hl
    rcases hl with rfl | rfl
    · exact ⟨by decide, by decide⟩
    · exact ⟨by decide, by decide⟩
  obtain ⟨hbooks, hrange⟩ := stock_history 1 1 [] 0 [⟨5, false⟩, ⟨5, true⟩] hlines
  refine ⟨hbooks, hrange.mpr ?_⟩
  rintro pre l ⟨rest, hlist⟩
  cases pre with
  | nil =>
    obtain ⟨rfl, _⟩ := List.cons.inj hlist
    decide
  | cons first pre =>
    obtain ⟨rfl, htail⟩ := List.cons.inj hlist
    cases pre with
    | nil =>
      obtain ⟨rfl, _⟩ := List.cons.inj htail
      decide
    | cons second pre => simp at htail

/-- A stock of 11 that supplies one item is restocked to 101. -/
theorem stock_exceeds_range :
    StockLine.Generated ⟨1, false⟩ ∧ InRange (.generate 1 1 [] 1) ∧
      (process (.generate 1 1 [] 1) [⟨1, false⟩]).sQuantity = 101 ∧
      ¬ InRange (process (.generate 1 1 [] 1) [⟨1, false⟩]) := by
  refine ⟨⟨by decide, by decide⟩, ⟨by decide, by decide⟩, by decide, fun h => ?_⟩
  exact absurd h.2 (by decide)

end Mvdcc.Tpcc.NewOrderTx
