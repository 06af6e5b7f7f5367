import Mvdcc.Tpcc.NewOrderRun
import Mvdcc.Tpcc.SerialRuns

namespace Mvdcc.Tpcc.NewOrderTx
open Library Transaction Database

def line (s : Store) (o : Order) (i : Nat) : Option OrderLine :=
  (s.tables .orderLine).find ⟨o.oWId, o.oDId, o.oId, UInt8.ofNat (1 + i)⟩

def remoteLines (s : Store) (o : Order) (k : StockKey) : Nat :=
  (List.range o.oOlCnt.toNat).countP (fun i => (line s o i).any (fun ol =>
    (⟨ol.olSupplyWId, ol.olIId⟩ : StockKey) = k ∧ ol.olSupplyWId ≠ o.oWId))

/-- The flags say where the lines were supplied from. -/
structure TellsTruth (s s' : Store) (o : Order) : Prop where
  allLocal : o.oAllLocal = 1 ↔
    ∀ i < o.oOlCnt.toNat, (line s' o i).map OrderLine.olSupplyWId = some o.oWId
  remoteCnt : ∀ k st, (s.tables .stock).find k = some st →
    ((s'.tables .stock).find k).map Stock.sRemoteCnt =
      some (st.sRemoteCnt + UInt16.ofNat (remoteLines s' o k))

section Flags
variable {τ : Type} {committed view : τ → Store} {T : Transaction τ}
variable {numWarehouses wId : UInt16} {draws : Draws} {input : Input} {s s' : Store}

theorem process_remoteCnt (st : Stock) (lines : List StockLine) :
    (process st lines).sRemoteCnt =
      st.sRemoteCnt + UInt16.ofNat (lines.countP StockLine.isRemote) := by
  induction lines using List.reverseRecOn with
  | nil => simp [process]
  | append_singleton lines l ih =>
    rw [process_concat, List.countP_append, List.countP_singleton, UInt16.ofNat_add,
      ← UInt16.add_assoc, ← ih]
    unfold modifyStock
    cases l.isRemote
    · simp
    · rfl

/-- With the flag, every line of a stock row counts. -/
theorem countP_stockLines (input : Input) (n : Nat) (k : StockKey) :
    (input.stockLines n k).countP StockLine.isRemote =
      (List.range n).countP (fun i => (input.items i).stockKey = k ∧ input.isRemote = true) := by
  unfold Input.stockLines
  rw [List.countP_map, List.countP_filter]
  refine List.countP_congr (fun i _ => ?_)
  simp [and_comm]

theorem remoteLines_eq {o : Order} (k : StockKey) (hcnt : o.oOlCnt = input.olCnt)
    (h : ∀ i < input.olCnt.toNat, ∃ ol, line s' o i = some ol ∧
      ol.olSupplyWId = (input.items i).olSupplyWId ∧ ol.olIId = (input.items i).olIId) :
    remoteLines s' o k = (List.range input.olCnt.toNat).countP
      (fun i => (input.items i).stockKey = k ∧ (input.items i).olSupplyWId ≠ o.oWId) := by
  unfold remoteLines
  rw [hcnt]
  refine List.countP_congr (fun i hi => ?_)
  obtain ⟨ol, hol, hsupply, hitem⟩ := h i (List.mem_range.mp hi)
  rw [hol, Option.any_some, hsupply, hitem]
  rfl

/-- The flag agrees with the lines unless it is drawn where no other warehouse exists. -/
theorem Placed.tellsTruth_iff (h : Placed input s s')
    (hgen : input.Generated numWarehouses wId draws) :
    ∃ d o, (s.tables .district).find ⟨input.wId, input.dId⟩ = some d ∧
      (s'.tables .order).find ⟨input.wId, input.dId, d.dNextOId⟩ = some o ∧
      (TellsTruth s s' o ↔ 1 < numWarehouses ∨ urandInt 1 100 draws.isRemote ≠ 1) := by
  obtain ⟨d, entryD, hd, ho, hlines⟩ := h.order
  refine ⟨d, _, hd, ho, ?_⟩
  generalize hcreated : createOrder input d.dNextOId entryD = o
  have hcnt : o.oOlCnt = input.olCnt := by rw [← hcreated]; rfl
  have hhome : o.oWId = input.wId := by rw [← hcreated]; rfl
  have hflag : o.oAllLocal = 1 ↔ input.isRemote = false := by
    subst hcreated
    change (if input.isRemote then (0 : UInt8) else 1) = 1 ↔ _
    cases input.isRemote <;> decide
  have hline : ∀ i < input.olCnt.toNat, ∃ ol, line s' o i = some ol ∧
      ol.olSupplyWId = (input.items i).olSupplyWId ∧ ol.olIId = (input.items i).olIId := by
    intro i hi
    obtain ⟨-, olAmount, st, hol⟩ := hlines i hi
    subst hcreated
    exact ⟨_, hol, rfl, rfl⟩
  have hremote : ∀ i < input.olCnt.toNat, (input.items i).olSupplyWId = o.oWId ↔
      ¬ (input.isRemote = true ∧ 1 < numWarehouses) := by
    intro i hi
    rw [hhome, hgen.wId]
    exact (hgen.items i hi).remote
  rw [ne_eq, ← hgen.isRemote]
  constructor
  · intro htrue
    by_contra hlie
    rw [not_or, not_not] at hlie
    obtain ⟨halone, hdrawn⟩ := hlie
    have hlocal : o.oAllLocal = 1 := by
      refine htrue.allLocal.mpr (fun i hi => ?_)
      rw [hcnt] at hi
      obtain ⟨ol, hol, hsupply, -⟩ := hline i hi
      rw [hol, Option.map_some, hsupply, (hremote i hi).mpr (fun hr => halone hr.2)]
    rw [hflag, hdrawn] at hlocal
    cases hlocal
  · intro hagree
    have hsame : ∀ i < input.olCnt.toNat,
        ((input.items i).olSupplyWId = o.oWId ↔ input.isRemote = false) := by
      intro i hi
      rw [hremote i hi, ← Bool.not_eq_true]
      exact not_congr ⟨And.left, fun hr => ⟨hr, hagree.resolve_right (not_not_intro hr)⟩⟩
    refine ⟨?_, fun k st hst => ?_⟩
    · rw [hflag, hcnt]
      constructor
      · intro hlocal i hi
        obtain ⟨ol, hol, hsupply, -⟩ := hline i hi
        rw [hol, Option.map_some, hsupply, (hsame i hi).mpr hlocal]
      · intro hall
        have hfirst : 0 < input.olCnt.toNat := Nat.lt_of_lt_of_le (by decide) hgen.olCnt.1
        obtain ⟨ol, hol, hsupply, -⟩ := hline 0 hfirst
        have heq := hall 0 hfirst
        rw [hol, Option.map_some, hsupply] at heq
        exact (hsame 0 hfirst).mp (Option.some.inj heq)
    · rw [h.stock, hst, Option.map_some, Option.map_some, process_remoteCnt, countP_stockLines,
        remoteLines_eq k hcnt hline]
      congr 3
      refine List.countP_congr (fun i hi => ?_)
      have hi' := hsame i (List.mem_range.mp hi)
      simp only [decide_eq_true_iff, ne_eq, hi', Bool.not_eq_false]

/-- After `generate` and a successful run the flags are true, unless the only warehouse draws
`is_remote`. -/
theorem locality_iff (h : KeyedStore committed view T) (hn : 1 ≤ numWarehouses)
    (hgen : generate numWarehouses wId draws = some input) {w w' : World τ}
    (hrun : statusOf (run T input) w = (.success, w')) :
    ∃ d o, ((view w.tx).tables .district).find ⟨input.wId, input.dId⟩ = some d ∧
      ((committed w'.tx).tables .order).find ⟨input.wId, input.dId, d.dNextOId⟩ = some o ∧
      (TellsTruth (view w.tx) (committed w'.tx) o ↔
        1 < numWarehouses ∨ urandInt 1 100 draws.isRemote ≠ 1) := by
  have hok : True ∨ Obliging view T ∧ Ready input (view w.tx) := Or.inl trivial
  have hend := newOrder_reaches (committed w.tx) h hok w ⟨⟨rfl, rfl⟩, Or.inl trivial⟩
  unfold statusOf at hrun
  generalize run T input w = res at hend hrun
  obtain ⟨st | _, w₁⟩ := res
  · exact absurd (Prod.mk.inj hrun).1 hend.1
  · obtain ⟨-, rfl⟩ := Prod.mk.inj hrun
    obtain ⟨hcommit, hplaced⟩ := hend
    rw [hcommit]
    exact hplaced.tellsTruth_iff (generate_spec hn hgen)

end Flags

section Population

def remoteDraws (warehouses : List UInt64) : Draws where
  dId := 0
  cId := (0, 2012)
  olCnt := 0
  rbk := 1
  isRemote := 0
  lines := ⟨List.replicate 5 (0, 94013), warehouses, List.replicate 5 0⟩

/-- `generate` and `run`, if the run succeeds. -/
def place (numWarehouses : UInt16) (d : Draws) (w : World Tx) : Option (World Tx) :=
  (generate numWarehouses 1 d).bind (fun input =>
    match statusOf (run transaction input) w with
    | (.success, w') => some w'
    | _ => none)

theorem place_some {numWarehouses : UInt16} {d : Draws} {w w' : World Tx}
    (h : place numWarehouses d w = some w') :
    ∃ input, generate numWarehouses 1 d = some input ∧
      statusOf (run transaction input) w = (.success, w') := by
  obtain ⟨input, hgen, h⟩ := Option.bind_eq_some_iff.mp h
  split at h
  · rename_i w₁ hrun
    obtain rfl := Option.some.inj h
    exact ⟨input, hgen, hrun⟩
  · cases h

def twoWarehouses : World Tx :=
  let x := (population [1]).put .stock ⟨2, 2, 20, 0, 0, 0, []⟩
  ⟨⟨x, x⟩, [], 0⟩

theorem locality_iff_two_warehouses :
    ∃ input w' d o, generate 2 1 (remoteDraws [0, 1, 1, 1, 1, 1]) = some input ∧
      statusOf (run transaction input) twoWarehouses = (.success, w') ∧
      ((Database.view twoWarehouses.tx).tables .district).find ⟨input.wId, input.dId⟩ = some d ∧
      ((committed w'.tx).tables .order).find ⟨input.wId, input.dId, d.dNextOId⟩ = some o ∧
      (TellsTruth (Database.view twoWarehouses.tx) (committed w'.tx) o ↔
        1 < (2 : UInt16) ∨ urandInt 1 100 0 ≠ 1) := by
  have hrun : (place 2 (remoteDraws [0, 1, 1, 1, 1, 1]) twoWarehouses).isSome := by
    decide +kernel
  obtain ⟨w', hw'⟩ := Option.isSome_iff_exists.mp hrun
  obtain ⟨input, hgen, hplaced⟩ := place_some hw'
  obtain ⟨d, o, hd, ho, hiff⟩ := locality_iff keyedStore (by decide) hgen hplaced
  exact ⟨input, w', d, o, hgen, hplaced, hd, ho, hiff⟩

/-- With one warehouse an order of local lines is marked as remote. -/
theorem one_warehouse_marked_remote :
    ∃ input w' o, generate 1 1 (remoteDraws []) = some input ∧
      statusOf (run transaction input) (initial [1]) = (.success, w') ∧
      ((committed w'.tx).tables .order).find ⟨1, 1, 2⟩ = some o ∧ o.oAllLocal = 0 ∧
      ¬ TellsTruth (Database.view (initial [1]).tx) (committed w'.tx) o := by
  have hrun : (place 1 (remoteDraws []) (initial [1])).map (fun w =>
        (w.tx.base.find .order ⟨1, 1, 2⟩).map (fun o =>
          (o.oAllLocal, (List.range o.oOlCnt.toNat).all (fun i =>
            (line (committed w.tx) o i).map OrderLine.olSupplyWId = some o.oWId)))) =
      some (some (0, true)) := by
    decide +kernel
  obtain ⟨w', hw', horder⟩ := Option.map_eq_some_iff.mp hrun
  obtain ⟨o, ho, hflags⟩ := Option.map_eq_some_iff.mp horder
  obtain ⟨hremote, hlines⟩ := Prod.mk.inj hflags
  obtain ⟨input, hgen, hplaced⟩ := place_some hw'
  refine ⟨input, w', o, hgen, hplaced, ho, hremote, fun htrue => ?_⟩
  have hlocal := htrue.allLocal.mpr (fun i hi =>
    of_decide_eq_true (List.all_eq_true.mp hlines i (List.mem_range.mpr hi)))
  rw [hremote] at hlocal
  exact absurd hlocal (by decide)

end Population
end Mvdcc.Tpcc.NewOrderTx
