import Mvdcc.Tpcc.Execution
import Mvdcc.Tpcc.StockHistory

namespace Mvdcc.Tpcc
open Library Transaction

section Rules
variable {τ α β : Type} (committed view : τ → Store)

/-- Operations that can succeed do, and so does the commit. -/
structure Obliging (T : Transaction τ) : Prop where
  get : ∀ tb k x, ((view x).tables tb).find k ≠ none → ∃ r, (T.getRecord tb k x).1 = .success r
  prepareUpdate : ∀ tb k x, ((view x).tables tb).find k ≠ none →
    ∃ r, (T.prepareRecordForUpdate tb k x).1 = .success r
  finishUpdate : ∀ tb r x, ∃ u, (T.finishUpdate tb r x).1 = .success u
  prepareInsert : ∀ tb k x, ((view x).tables tb).find k = none →
    ∃ u, (T.prepareRecordForInsert tb k x).1 = .success u
  finishInsert : ∀ tb r x, ∃ u, (T.finishInsert tb r x).1 = .success u
  commit : ∀ x, (T.commit x).1 = true

/-- The transaction sees `s`. No random abort is to come, unless operations may fail. -/
def Open (mayFail : Prop) (c s : Store) (w : World τ) : Prop :=
  At committed view c s w ∧ (mayFail ∨ true ∉ w.coins)

/-- How a profile ends early: where operations may fail, or with `USER_ABORT` in case of `E`. -/
def Stopped (mayFail E : Prop) (st : Status) : Prop :=
  st ≠ .success ∧ (mayFail ∨ st = .userAbort ∧ E)

/-- Part of a profile goes from `s` to a store with `Q`, or ends early. -/
def Reaches (mayFail E : Prop) (c s : Store) (x : Script (World τ) Status α)
    (Q : α → Store → Prop) : Prop :=
  Script.Meets (Open committed view mayFail c s) x
    (fun a w => ∃ s', Open committed view mayFail c s' w ∧ Q a s')
    (fun st _ => Stopped mayFail E st)

variable {committed view} {T : Transaction τ} {mayFail E : Prop} {c s : Store}
variable {x : Script (World τ) Status α} {f : α → Script (World τ) Status β}
variable {Q : α → Store → Prop} {R : β → Store → Prop}

theorem Reaches.userAbort (h : E) :
    Reaches committed view mayFail E c s (Script.throw .userAbort) Q :=
  Script.Meets.throw (fun _ _ => ⟨nofun, Or.inr ⟨rfl, h⟩⟩)

/-- What follows a part of a profile. -/
theorem Reaches.meets {G : β → World τ → Prop}
    (hx : Reaches committed view mayFail E c s x Q)
    (hf : ∀ a s', Q a s' → Script.Meets (Open committed view mayFail c s') (f a) G
      (fun st _ => Stopped mayFail E st)) :
    Script.Meets (Open committed view mayFail c s) (x >>= f) G
      (fun st _ => Stopped mayFail E st) := by
  refine Script.Meets.bind hx ?_
  rintro a w ⟨s', hopen, hq⟩
  exact hf a s' hq w hopen

theorem Reaches.bind (hx : Reaches committed view mayFail E c s x Q)
    (hf : ∀ a s', Q a s' → Reaches committed view mayFail E c s' (f a) R) :
    Reaches committed view mayFail E c s (x >>= f) R :=
  hx.meets hf

theorem Reaches.weaken {Q' : α → Store → Prop} (hx : Reaches committed view mayFail E c s x Q)
    (hq : ∀ a s', Q a s' → Q' a s') : Reaches committed view mayFail E c s x Q' :=
  Script.Meets.weaken hx (fun _ hopen => hopen) (fun a _ ⟨s', hopen, h⟩ => ⟨s', hopen, hq a s' h⟩)

theorem Reaches.getTimestamp : Reaches committed view mayFail E c s
    (getTimestamp : Script (World τ) Status _) (fun _ s' => s' = s) :=
  fun _ hopen => ⟨s, hopen, rfl⟩

/-- What an operation has left, where only `mayFail` lets it be other than a success. -/
theorem ask_reaches {op : Request τ α} {Q : Store → α → Store → Prop}
    (hop : Serves committed view op Q (fun _ => False))
    (hok : mayFail ∨ ∀ x, view x = s → ∃ a, (op x).1 = .success a) :
    Script.Meets (Open committed view mayFail c s) (ask op)
      (fun res w => (mayFail ∨ true ∉ w.coins) ∧ (mayFail ∨ ∃ a, res = .success a) ∧
        Replied committed view c s (Q s) False res w)
      (fun st _ => Stopped mayFail E st) := by
  rintro w ⟨⟨hc, rfl⟩, hcoins⟩
  obtain ⟨hsame, hres⟩ := hop w.tx
  exact ⟨hcoins, hok.imp_right (fun hall => hall w.tx rfl), hsame.trans hc, hres⟩

theorem checked_reaches {Q : α → Store → Prop} {res : Reply α} :
    Script.Meets (fun w => (mayFail ∨ true ∉ w.coins) ∧ (mayFail ∨ ∃ a, res = .success a) ∧
        Replied committed view c s Q False res w)
      (T.checked res) (fun a w => ∃ s', Open committed view mayFail c s' w ∧ Q a s')
      (fun st _ => Stopped mayFail E st) := by
  rintro ⟨tx, coins, clock⟩ ⟨hcoins, hok, hc, hres⟩
  match res, coins with
  | .success a, [] => exact ⟨_, ⟨⟨hc, rfl⟩, hcoins⟩, hres⟩
  | .success a, false :: coins =>
    refine ⟨_, ⟨⟨hc, rfl⟩, hcoins.imp_right (fun hn ht => ?_)⟩, hres⟩
    exact hn (List.mem_cons_of_mem _ ht)
  | .success a, true :: coins =>
    exact ⟨nofun, Or.inl (hcoins.resolve_right (fun hn => hn List.mem_cons_self))⟩
  | .fail, _ => exact absurd hres.1 id
  | .abort, _ => exact ⟨nofun, Or.inl (hok.resolve_right nofun)⟩

theorem Reaches.require {op : Request τ α} {Q : Store → α → Store → Prop}
    (hop : Serves committed view op Q (fun _ => False))
    (hok : mayFail ∨ ∀ x, view x = s → ∃ a, (op x).1 = .success a) :
    Reaches committed view mayFail E c s (T.require op) (Q s) :=
  (ask_reaches hop hok).bind (fun _ => checked_reaches)

/-! An operation of an obliging transaction has to succeed where its row is, or where its key
is free. -/

theorem Reaches.getRecord (h : KeyedStore committed view T) {tb : TableId} {k : tb.Key}
    (hok : mayFail ∨ Obliging view T ∧ (s.tables tb).find k ≠ none) :
    Reaches committed view mayFail E c s (T.require (T.getRecord tb k))
      (fun r s' => (s.tables tb).find k = some r ∧ s' = s) := by
  refine Reaches.require (h.get tb k) (hok.imp_right (fun ⟨hob, hrow⟩ x hx => ?_))
  subst hx
  exact hob.get tb k x hrow

theorem Reaches.prepareForUpdate (h : KeyedStore committed view T) {tb : TableId} {k : tb.Key}
    (hok : mayFail ∨ Obliging view T ∧ (s.tables tb).find k ≠ none) :
    Reaches committed view mayFail E c s (T.require (T.prepareRecordForUpdate tb k))
      (fun r s' => (s.tables tb).find k = some r ∧ s' = s) := by
  refine Reaches.require (h.prepareUpdate tb k) (hok.imp_right (fun ⟨hob, hrow⟩ x hx => ?_))
  subst hx
  exact hob.prepareUpdate tb k x hrow

theorem Reaches.finishUpdate (h : KeyedStore committed view T) {tb : TableId} {r : tb.Record}
    (hok : mayFail ∨ Obliging view T) :
    Reaches committed view mayFail E c s (T.require (T.finishUpdate tb r))
      (fun _ s' => s' = s.put tb r) :=
  Reaches.require (h.finishUpdate tb r) (hok.imp_right (fun hob x _ => hob.finishUpdate tb r x))

theorem Reaches.prepareForInsert (h : KeyedStore committed view T) {tb : TableId} {k : tb.Key}
    (hok : mayFail ∨ Obliging view T ∧ (s.tables tb).find k = none) :
    Reaches committed view mayFail E c s (T.require (T.prepareRecordForInsert tb k))
      (fun _ s' => (s.tables tb).find k = none ∧ s' = s) := by
  refine Reaches.require (h.prepareInsert tb k) (hok.imp_right (fun ⟨hob, hfree⟩ x hx => ?_))
  subst hx
  exact hob.prepareInsert tb k x hfree

theorem Reaches.finishInsert (h : KeyedStore committed view T) {tb : TableId} {r : tb.Record}
    (hok : mayFail ∨ Obliging view T) :
    Reaches committed view mayFail E c s (T.require (T.finishInsert tb r))
      (fun _ s' => s' = s.put tb r) :=
  Reaches.require (h.finishInsert tb r) (hok.imp_right (fun hob x _ => hob.finishInsert tb r x))

/-- A commit publishes what the transaction sees. -/
theorem finish_reaches (h : KeyedStore committed view T)
    (hok : mayFail ∨ ∀ x, (T.commit x).1 = true) :
    Script.Meets (Open committed view mayFail c s) T.finish
      (fun _ w => committed w.tx = s ∧ view w.tx = s)
      (fun st _ => Stopped mayFail E st) := by
  rintro w ⟨⟨hc, rfl⟩, hcoins⟩
  have hcommit := h.commit w.tx
  unfold Transaction.finish
  cases hdone : (T.commit w.tx).1 with
  | true =>
    simp only [hdone, if_true] at hcommit
    simp only [if_true, hdone]
    exact hcommit
  | false =>
    simp only [Bool.false_eq_true, if_false, hdone]
    exact ⟨nofun, Or.inl (hok.resolve_right (fun hall => by simp [hall] at hdone))⟩

theorem Reaches.forRange {body : Nat → Script (World τ) Status Unit} {a m : Nat}
    {I : Nat → Store → Prop} (hs : I 0 s)
    (h : ∀ i < m, ∀ s, I i s →
      Reaches committed view mayFail E c s (body (a + i)) (fun _ => I (i + 1))) :
    Reaches committed view mayFail E c s (Script.forEach body (List.range' a m))
      (fun _ => I m) := by
  refine Script.Meets.weaken (Script.Meets.forRange
    (I := fun n w => ∃ s', Open committed view mayFail c s' w ∧ I n s') ?_)
    (fun w hopen => ⟨s, hopen, hs⟩) (fun _ _ hq => hq)
  rintro i hi w ⟨s', hopen, hI⟩
  exact h i hi s' hI w hopen

end Rules

namespace NewOrderTx

def OrderedItem.stockKey (item : OrderedItem) : StockKey := ⟨item.olSupplyWId, item.olIId⟩

def Input.stockLines (input : Input) (n : Nat) (k : StockKey) : List StockLine :=
  ((List.range n).filter (fun i => (input.items i).stockKey = k)).map
    (fun i => ⟨(input.items i).olQuantity, input.isRemote⟩)

/-- The key of the line at an index: lines are numbered from one. -/
def Input.lineKey (input : Input) (oId : UInt32) (i : Nat) : OrderLineKey :=
  ⟨input.wId, input.dId, oId, UInt8.ofNat (1 + i)⟩

def Input.HasLine (input : Input) (oId : UInt32) (s : Store) (i : Nat) : Prop :=
  ∃ olAmount st, (s.tables .orderLine).find (input.lineKey oId i) =
    some (createOrderline input oId (UInt8.ofNat (1 + i)) (input.items i) olAmount st)

/-- After `n` rounds of the loop over the order lines. -/
structure Lined (input : Input) (oId : UInt32) (s : Store) (n : Nat) (s' : Store) : Prop where
  stock : ∀ k, (s'.tables .stock).find k =
    ((s.tables .stock).find k).map (fun st => process st (input.stockLines n k))
  line : ∀ i < n, (input.items i).olIId ≠ unusedItemId ∧ input.HasLine oId s' i
  fresh : ∀ k, (∀ i < n, k ≠ input.lineKey oId i) →
    (s'.tables .orderLine).find k = (s.tables .orderLine).find k
  other : ∀ tb, tb ≠ .stock → tb ≠ .orderLine → s'.tables tb = s.tables tb

structure Placed (input : Input) (s s' : Store) : Prop where
  stock : ∀ k, (s'.tables .stock).find k =
    ((s.tables .stock).find k).map (fun st => process st (input.stockLines input.olCnt.toNat k))
  order : ∃ d entryD, (s.tables .district).find ⟨input.wId, input.dId⟩ = some d ∧
    (s'.tables .order).find ⟨input.wId, input.dId, d.dNextOId⟩ =
      some (createOrder input d.dNextOId entryD) ∧
    ∀ i < input.olCnt.toNat,
      (input.items i).olIId ≠ unusedItemId ∧ input.HasLine d.dNextOId s' i

/-- The rows that the run looks up are there, and the keys of its inserts are free. -/
structure Ready (input : Input) (s : Store) : Prop where
  warehouse : (s.tables .warehouse).find ⟨input.wId⟩ ≠ none
  district : (s.tables .district).find ⟨input.wId, input.dId⟩ ≠ none
  customer : (s.tables .customer).find ⟨input.wId, input.dId, input.cId⟩ ≠ none
  item : ∀ i < input.olCnt.toNat, (s.tables .item).find ⟨(input.items i).olIId⟩ ≠ none
  stock : ∀ i < input.olCnt.toNat, (s.tables .stock).find (input.items i).stockKey ≠ none
  free : ∀ d, (s.tables .district).find ⟨input.wId, input.dId⟩ = some d →
    (s.tables .newOrder).find ⟨input.wId, input.dId, d.dNextOId⟩ = none ∧
    (s.tables .order).find ⟨input.wId, input.dId, d.dNextOId⟩ = none ∧
    ∀ n, (s.tables .orderLine).find ⟨input.wId, input.dId, d.dNextOId, n⟩ = none

variable {τ : Type} {committed view : τ → Store} {T : Transaction τ} {mayFail E : Prop}
variable {c s : Store} {input : Input} {oId : UInt32}

theorem stockLines_succ (input : Input) (n : Nat) (k : StockKey) :
    input.stockLines (n + 1) k = input.stockLines n k ++
      if (input.items n).stockKey = k then [⟨(input.items n).olQuantity, input.isRemote⟩] else [] := by
  unfold Input.stockLines
  rw [List.range_succ, List.filter_append, List.map_append, List.filter_singleton]
  split <;> simp_all

/-- Lines of one order have keys of their own. -/
theorem lineKey_inj {i j : Nat} (hi : i < input.olCnt.toNat) (hj : j < input.olCnt.toNat)
    (h : input.lineKey oId i = input.lineKey oId j) : i = j := by
  have hlt := input.olCnt.toNat_lt
  have hn : (UInt8.ofNat (1 + i)).toNat = (UInt8.ofNat (1 + j)).toNat :=
    congrArg (fun k : OrderLineKey => k.olNumber.toNat) h
  rw [UInt8.toNat_ofNat_of_lt' (by rw [UInt8.size]; omega),
    UInt8.toNat_ofNat_of_lt' (by rw [UInt8.size]; omega)] at hn
  omega

theorem Lined.zero (input : Input) (oId : UInt32) (s : Store) : Lined input oId s 0 s where
  stock k := by
    cases (s.tables .stock).find k <;> rfl
  line := nofun
  fresh _ _ := rfl
  other _ _ _ := rfl

/-- One more round: the stock row is updated, and the line inserted. -/
theorem Lined.succ {s' : Store} {n : Nat} {st : Stock} (h : Lined input oId s n s')
    (hn : n < input.olCnt.toNat) (hused : (input.items n).olIId ≠ unusedItemId)
    (hst : (s'.tables .stock).find (input.items n).stockKey = some st) (olAmount : ℚ) :
    Lined input oId s (n + 1)
      ((s'.put .stock (modifyStock st (input.items n).olQuantity input.isRemote)).put .orderLine
        (createOrderline input oId (UInt8.ofNat (1 + n)) (input.items n) olAmount
          (modifyStock st (input.items n).olQuantity input.isRemote))) := by
  have hkey : TableId.createKey .stock
      (modifyStock st (input.items n).olQuantity input.isRemote) = (input.items n).stockKey :=
    ((s'.tables .stock).keyed _ _ hst : TableId.createKey .stock st = _)
  generalize hst' : modifyStock st (input.items n).olQuantity input.isRemote = st' at hkey
  generalize hol : createOrderline input oId (UInt8.ofNat (1 + n)) (input.items n) olAmount st' = ol
  have hline : TableId.createKey .orderLine ol = input.lineKey oId n := by
    subst hol
    rfl
  refine ⟨fun k => ?_, fun i hi => ?_, fun k hk => ?_, fun tb h1 h2 => ?_⟩
  · rw [Store.put_other _ _ (by decide), Store.put_self, Table.find_put, hkey, stockLines_succ]
    by_cases hk : k = (input.items n).stockKey
    · subst hk
      have hfold := h.stock (input.items n).stockKey
      rw [hst] at hfold
      obtain ⟨st₀, hst₀, hprocess⟩ := Option.map_eq_some_iff.mp hfold.symm
      rw [if_pos rfl, if_pos rfl, hst₀, Option.map_some, process_concat, hprocess, hst']
    · rw [if_neg hk, if_neg (Ne.symm hk), List.append_nil]
      exact h.stock k
  · rw [Input.HasLine, Store.put_self, Table.find_put, hline]
    rcases Nat.lt_succ_iff_lt_or_eq.mp hi with hi | rfl
    · obtain ⟨hne, hold⟩ := h.line i hi
      refine ⟨hne, ?_⟩
      rw [if_neg (fun heq => Nat.ne_of_lt hi (lineKey_inj (hi.trans hn) hn heq)),
        Store.put_other _ _ (by decide)]
      exact hold
    · exact ⟨hused, olAmount, st', by rw [if_pos rfl, hol]⟩
  · have hnew : k ≠ TableId.createKey .orderLine ol := hline ▸ hk n (Nat.lt_succ_self n)
    rw [Store.put_self, Table.find_put_other _ _ hnew, Store.put_other _ _ (by decide)]
    exact h.fresh k (fun i hi => hk i (hi.trans (Nat.lt_succ_self n)))
  · rw [Store.put_other _ _ h2, Store.put_other _ _ h1]
    exact h.other tb h1 h2

/-- A round of the loop, from the store `s` in front of it. -/
theorem orderLine_reaches (h : KeyedStore committed view T) {s' : Store} {n : Nat}
    (hn : n < input.olCnt.toNat) (hlined : Lined input oId s n s')
    (hok : mayFail ∨ Obliging view T ∧
      (s.tables .item).find ⟨(input.items n).olIId⟩ ≠ none ∧
      (s.tables .stock).find (input.items n).stockKey ≠ none ∧
      (s.tables .orderLine).find (input.lineKey oId n) = none)
    (hspoilt : (input.items n).olIId = unusedItemId → E) :
    Reaches committed view mayFail E c s' (orderLine T input oId (1 + n))
      (fun _ => Lined input oId s (n + 1)) := by
  have hob : mayFail ∨ Obliging view T := hok.imp_right And.left
  have hitem : mayFail ∨ Obliging view T ∧
      (s'.tables .item).find ⟨(input.items n).olIId⟩ ≠ none := by
    rw [hlined.other _ (by decide) (by decide)]
    exact hok.imp_right (And.imp_right And.left)
  have hstock : mayFail ∨ Obliging view T ∧
      (s'.tables .stock).find (input.items n).stockKey ≠ none := by
    rw [hlined.stock, ne_eq, Option.map_eq_none_iff]
    exact hok.imp_right (And.imp_right (fun hrows => hrows.2.1))
  have hfree : mayFail ∨ Obliging view T ∧
      (s'.tables .orderLine).find (input.lineKey oId n) = none := by
    rw [hlined.fresh _ (fun i hi heq => Nat.ne_of_lt hi (lineKey_inj (hi.trans hn) hn heq.symm))]
    exact hok.imp_right (And.imp_right (fun hrows => hrows.2.2))
  unfold orderLine
  rw [Nat.add_sub_cancel_left]
  dsimp only
  split
  · exact .userAbort (hspoilt ‹_›)
  rename_i hused
  refine (Reaches.getRecord h hitem).bind ?_
  rintro i _ ⟨_, rfl⟩
  refine (Reaches.prepareForUpdate h hstock).bind ?_
  rintro st s' ⟨hst, rfl⟩
  refine (Reaches.finishUpdate h hob).bind ?_
  rintro _ _ rfl
  refine (Reaches.prepareForInsert h (by rwa [Store.put_other _ _ (by decide)])).bind ?_
  rintro _ _ ⟨_, rfl⟩
  refine (Reaches.finishInsert h hob).weaken ?_
  rintro _ _ rfl
  exact hlined.succ hn hused hst _

/-- A run ends with its order placed. Where operations may not fail, only a spoilt line can
end it early. -/
theorem newOrder_reaches (c : Store) (h : KeyedStore committed view T)
    (hok : mayFail ∨ Obliging view T ∧ Ready input s) :
    Script.Meets (Open committed view mayFail c s) (run T input)
      (fun _ w => committed w.tx = view w.tx ∧ Placed input s (view w.tx))
      (fun st _ => Stopped mayFail
        (∃ i < input.olCnt.toNat, (input.items i).olIId = unusedItemId) st) := by
  unfold run
  have hob : mayFail ∨ Obliging view T := hok.imp_right And.left
  refine (Reaches.getRecord h (hok.imp_right (And.imp_right (·.warehouse)))).meets ?_
  rintro _ _ ⟨_, rfl⟩
  refine (Reaches.prepareForUpdate h (hok.imp_right (And.imp_right (·.district)))).meets ?_
  rintro d s ⟨hd, rfl⟩
  refine (Reaches.finishUpdate h hob).meets ?_
  rintro _ _ rfl
  refine (Reaches.getRecord h (hok.imp_right (And.imp_right (fun hready => ?_)))).meets ?_
  · rw [Store.put_other _ _ (by decide)]
    exact hready.customer
  rintro _ _ ⟨_, rfl⟩
  refine (Reaches.prepareForInsert h (hok.imp_right (And.imp_right (fun hready => ?_)))).meets ?_
  · rw [Store.put_other _ _ (by decide)]
    exact (hready.free d hd).1
  rintro _ _ ⟨_, rfl⟩
  refine (Reaches.finishInsert h hob).meets ?_
  rintro _ _ rfl
  refine (Reaches.prepareForInsert h (hok.imp_right (And.imp_right (fun hready => ?_)))).meets ?_
  · rw [Store.put_other _ _ (by decide), Store.put_other _ _ (by decide)]
    exact (hready.free d hd).2.1
  rintro _ _ ⟨_, rfl⟩
  refine Reaches.getTimestamp.meets ?_
  rintro entryD _ rfl
  refine (Reaches.finishInsert h hob).meets ?_
  rintro _ s₁ hs₁
  have hsame : ∀ tb, tb ≠ .district → tb ≠ .newOrder → tb ≠ .order →
      s₁.tables tb = s.tables tb := by
    intro tb hdistrict hnew horder
    rw [hs₁, Store.put_other _ _ horder, Store.put_other _ _ hnew, Store.put_other _ _ hdistrict]
  have hloop : Reaches committed view mayFail
      (∃ i < input.olCnt.toNat, (input.items i).olIId = unusedItemId) c s₁
      (Script.forEach (orderLine T input d.dNextOId) (List.range' 1 input.olCnt.toNat))
      (fun _ => Lined input d.dNextOId s₁ input.olCnt.toNat) := by
    refine Reaches.forRange (I := Lined input d.dNextOId s₁) (.zero input _ s₁) ?_
    intro n hn s' hlined
    refine orderLine_reaches h hn hlined ?_ (fun hunused => ⟨n, hn, hunused⟩)
    refine hok.imp_right (fun ⟨hob, hready⟩ => ⟨hob, ?_, ?_, ?_⟩)
    · rw [hsame _ (by decide) (by decide) (by decide)]
      exact hready.item n hn
    · rw [hsame _ (by decide) (by decide) (by decide)]
      exact hready.stock n hn
    · rw [hsame _ (by decide) (by decide) (by decide)]
      exact (hready.free d hd).2.2 _
  refine hloop.meets (fun _ s' hlined => ?_)
  refine (finish_reaches h (hob.imp_right Obliging.commit)).weaken (fun _ hw => hw) ?_
  rintro _ w ⟨hc, rfl⟩
  refine ⟨hc, ?_, d, entryD, hd, ?_, hlined.line⟩
  · rw [← hsame .stock (by decide) (by decide) (by decide)]
    exact hlined.stock
  · rw [hlined.other _ (by decide) (by decide), hs₁, Store.put_self]
    exact Table.find_put_self _ (createOrder input d.dNextOId entryD)

end NewOrderTx
end Mvdcc.Tpcc
