import Mvdcc.Tpcc.Database
import Mvdcc.Tpcc.NewOrderRun

namespace Mvdcc.Tpcc.NewOrderTx
open Library Transaction Database

/-- The rows of a loaded database, and no rows under the next order id of a district. -/
structure Loaded (numWarehouses : UInt16) (s : Store) : Prop where
  item : ∀ i, 1 ≤ i ∧ i ≤ 100000 → (s.tables .item).find ⟨i⟩ ≠ none
  warehouse : ∀ w, 1 ≤ w ∧ w ≤ numWarehouses → (s.tables .warehouse).find ⟨w⟩ ≠ none
  stock : ∀ w i, 1 ≤ w ∧ w ≤ numWarehouses → 1 ≤ i ∧ i ≤ 100000 →
    (s.tables .stock).find ⟨w, i⟩ ≠ none
  district : ∀ w d, 1 ≤ w ∧ w ≤ numWarehouses → 1 ≤ d ∧ d ≤ 10 →
    (s.tables .district).find ⟨w, d⟩ ≠ none
  customer : ∀ w d c, 1 ≤ w ∧ w ≤ numWarehouses → 1 ≤ d ∧ d ≤ 10 → 1 ≤ c ∧ c ≤ 3000 →
    (s.tables .customer).find ⟨w, d, c⟩ ≠ none
  free : ∀ w d r, (s.tables .district).find ⟨w, d⟩ = some r →
    (s.tables .newOrder).find ⟨w, d, r.dNextOId⟩ = none ∧
    (s.tables .order).find ⟨w, d, r.dNextOId⟩ = none ∧
    ∀ n, (s.tables .orderLine).find ⟨w, d, r.dNextOId, n⟩ = none

/-- The run rolls back if `rbk` is set, and otherwise commits the whole order. -/
def RollsBackAsAsked (input : Input) (s s' : Store) (st : Status) : Prop :=
  (st = .userAbort ↔ input.rbk = true) ∧
    (input.rbk = false → st = .success ∧ Placed input s s')

section Runs
variable {τ : Type} {committed view : τ → Store} {T : Transaction τ}
variable {numWarehouses wId : UInt16} {draws : Draws} {input : Input} {s : Store}

theorem Loaded.ready (h : Loaded numWarehouses s) (hhome : 1 ≤ wId ∧ wId ≤ numWarehouses)
    (hgen : input.Generated numWarehouses wId draws) : Ready input s := by
  have hw := hgen.wId
  subst hw
  refine ⟨h.warehouse _ hhome, h.district _ _ hhome hgen.dId,
    h.customer _ _ _ hhome hgen.dId hgen.cId, fun i hi => ?_, fun i hi => ?_, h.free _ _⟩
  · exact h.item _ (hgen.items i hi).olIId
  · exact h.stock _ _ ((hgen.items i hi).home hhome.1 hhome.2) (hgen.items i hi).olIId

/-- A generated order on a loaded database is placed, unless one of its lines is spoilt. -/
theorem run_ends (h : KeyedStore committed view T) (hob : Obliging view T)
    (hhome : 1 ≤ wId ∧ wId ≤ numWarehouses) (hgen : generate numWarehouses wId draws = some input)
    {w w' : World τ} (hcoins : true ∉ w.coins) (hloaded : Loaded numWarehouses (view w.tx))
    {st : Status} (hrun : statusOf (run T input) w = (st, w')) :
    st = .userAbort ∧ (input.rbk = true ∨ ∃ p ∈ draws.lines.items, HitsUnused p) ∨
    st = .success ∧ ¬ (input.rbk = true ∨ ∃ p ∈ draws.lines.items, HitsUnused p) ∧
      Placed input (view w.tx) (committed w'.tx) := by
  have hn : 1 ≤ numWarehouses := UInt16.le_trans hhome.1 hhome.2
  have hgenerated := generate_spec hn hgen
  have hok : False ∨ Obliging view T ∧ Ready input (view w.tx) :=
    Or.inr ⟨hob, hloaded.ready hhome hgenerated⟩
  have hend := newOrder_reaches (committed w.tx) h hok w ⟨⟨rfl, rfl⟩, Or.inr hcoins⟩
  rw [← hgenerated.unused]
  unfold statusOf at hrun
  generalize run T input w = res at hend hrun
  obtain ⟨st' | _, w₁⟩ := res
  · obtain ⟨rfl, rfl⟩ := Prod.mk.inj hrun
    exact Or.inl (hend.2.resolve_left id)
  · obtain ⟨rfl, rfl⟩ := Prod.mk.inj hrun
    obtain ⟨hcommit, hplaced⟩ := hend
    refine Or.inr ⟨rfl, ?_, by rwa [hcommit]⟩
    rintro ⟨i, hi, hunused⟩
    obtain ⟨d, entryD, -, -, hlines⟩ := hplaced.order
    exact (hlines i hi).1 hunused

/-- Where every operation succeeds, a run rolls back as asked unless the draws for an item hit
the reserved id. -/
theorem rollback_iff (h : KeyedStore committed view T) (hob : Obliging view T)
    (hhome : 1 ≤ wId ∧ wId ≤ numWarehouses) (hgen : generate numWarehouses wId draws = some input)
    {w w' : World τ} (hcoins : true ∉ w.coins) (hloaded : Loaded numWarehouses (view w.tx))
    {st : Status} (hrun : statusOf (run T input) w = (st, w')) :
    RollsBackAsAsked input (view w.tx) (committed w'.tx) st ↔
      urandInt 1 100 draws.rbk = 1 ∨ ∀ p ∈ draws.lines.items, ¬ HitsUnused p := by
  have hn : 1 ≤ numWarehouses := UInt16.le_trans hhome.1 hhome.2
  have hend := run_ends h hob hhome hgen hcoins hloaded hrun
  rw [← (generate_spec hn hgen).rbk]
  unfold RollsBackAsAsked
  have hnone : (∀ p ∈ draws.lines.items, ¬ HitsUnused p) ↔
      ¬ ∃ p ∈ draws.lines.items, HitsUnused p := by
    simp only [not_exists, not_and]
  rw [hnone]
  generalize (∃ p ∈ draws.lines.items, HitsUnused p) = hit at hend
  rcases hend with ⟨rfl, hspoilt⟩ | ⟨rfl, hwhole, hplaced⟩
  · cases hrbk : input.rbk with
    | true => exact iff_of_true ⟨iff_of_true rfl rfl, nofun⟩ (Or.inl rfl)
    | false =>
      have hhit : hit := hspoilt.resolve_left (by simp [hrbk])
      exact iff_of_false (fun hasked => nomatch hasked.1.mp rfl)
        (fun hor => hor.resolve_left nofun hhit)
  · cases hrbk : input.rbk with
    | true => exact absurd (Or.inl hrbk) hwhole
    | false =>
      exact iff_of_true ⟨iff_of_false nofun nofun, fun _ => ⟨rfl, hplaced⟩⟩
        (Or.inr (fun hhit => hwhole (Or.inr hhit)))

end Runs

section Population

theorem succeed_obliges {α : Type} (x : Tx) {res : Option α} (h : res ≠ none) :
    ∃ a, (x.succeed res).1 = .success a := by
  obtain ⟨a, rfl⟩ := Option.ne_none_iff_exists'.mp h
  exact ⟨a, rfl⟩

theorem transaction_obliging : Obliging Database.view transaction where
  get _ _ x h := succeed_obliges x h
  prepareUpdate _ _ x h := succeed_obliges x h
  finishUpdate _ _ _ := ⟨(), rfl⟩
  prepareInsert tb k x h := by
    have hfree : x.copy.find tb k = none := h
    exact succeed_obliges x (by simp [hfree])
  finishInsert _ _ _ := ⟨(), rfl⟩
  commit _ := rfl

def oneWarehouse : Database where
  rows
    | .item => (List.range' 1 100000).map (fun i => ⟨UInt32.ofNat i, 1⟩)
    | .warehouse => [⟨1, 0⟩]
    | .stock => (List.range' 1 100000).map (fun i => ⟨1, UInt32.ofNat i, 20, 0, 0, 0, []⟩)
    | .district => (List.range' 1 10).map (fun d => ⟨1, UInt8.ofNat d, 1, 0⟩)
    | .customer => (List.range' 1 10).flatMap (fun d => (List.range' 1 3000).map (fun c =>
        ⟨1, UInt8.ofNat d, UInt32.ofNat c, 0, 0, 0, 0, ""⟩))
    | .order => []
    | .newOrder => []
    | .orderLine => []
  history := []

theorem find_ne_none {x : Database} {tb : TableId} {r : tb.Record} (h : r ∈ x.rows tb) :
    (x.store.tables tb).find (tb.createKey r) ≠ none := by
  rw [find_store, Database.find, ← Option.isSome_iff_ne_none, List.find?_isSome]
  exact ⟨r, h, decide_eq_true rfl⟩

theorem mem_ids {n i : Nat} (h : 1 ≤ i ∧ i ≤ n) : i ∈ List.range' 1 n :=
  List.mem_range'_1.mpr ⟨h.1, by omega⟩

theorem oneWarehouse_loaded : Loaded 1 oneWarehouse.store := by
  have hone : ∀ w : UInt16, 1 ≤ w ∧ w ≤ 1 → w = 1 := fun w h => UInt16.le_antisymm h.2 h.1
  refine ⟨fun i hi => ?_, fun w hw => ?_, fun w i hw hi => ?_, fun w d hw hd => ?_,
    fun w d c hw hd hc => ?_, fun w d r _ => ⟨rfl, rfl, fun _ => rfl⟩⟩
  · have hmem : (⟨i, 1⟩ : Item) ∈ oneWarehouse.rows .item :=
      List.mem_map.mpr ⟨i.toNat, mem_ids hi, by rw [UInt32.ofNat_toNat]⟩
    exact find_ne_none hmem
  · rw [hone w hw]
    exact Option.some_ne_none _
  · rw [hone w hw]
    have hmem : (⟨1, i, 20, 0, 0, 0, []⟩ : Stock) ∈ oneWarehouse.rows .stock :=
      List.mem_map.mpr ⟨i.toNat, mem_ids hi, by rw [UInt32.ofNat_toNat]⟩
    exact find_ne_none hmem
  · rw [hone w hw]
    have hmem : (⟨1, d, 1, 0⟩ : District) ∈ oneWarehouse.rows .district :=
      List.mem_map.mpr ⟨d.toNat, mem_ids hd, by rw [UInt8.ofNat_toNat]⟩
    exact find_ne_none hmem
  · rw [hone w hw]
    have hmem : (⟨1, d, c, 0, 0, 0, 0, ""⟩ : Customer) ∈ oneWarehouse.rows .customer := by
      refine List.mem_flatMap.mpr ⟨d.toNat, mem_ids hd, ?_⟩
      exact List.mem_map.mpr ⟨c.toNat, mem_ids hc, by rw [UInt8.ofNat_toNat, UInt32.ofNat_toNat]⟩
    exact find_ne_none hmem

def loadedWorld : World Tx := ⟨⟨oneWarehouse, oneWarehouse⟩, [], 0⟩

def orderDraws (first : UInt64 × UInt64) : Draws where
  dId := 0
  cId := (0, 0)
  olCnt := 0
  rbk := 1
  isRemote := 1
  lines := ⟨first :: List.replicate 4 (0, 0), [], List.replicate 5 0⟩

theorem rollback_iff_no_hit :
    ∃ input st w', generate 1 1 (orderDraws (0, 0)) = some input ∧
      statusOf (run transaction input) loadedWorld = (st, w') ∧
      RollsBackAsAsked input (Database.view loadedWorld.tx) (committed w'.tx) st := by
  have hgen : (generate 1 1 (orderDraws (0, 0))).isSome := by decide +kernel
  obtain ⟨input, hinput⟩ := Option.isSome_iff_exists.mp hgen
  obtain ⟨⟨st, w'⟩, hrun⟩ : ∃ res, statusOf (run transaction input) loadedWorld = res := ⟨_, rfl⟩
  refine ⟨input, st, w', hinput, hrun, ?_⟩
  have hmiss : ∀ p ∈ (orderDraws (0, 0)).lines.items, ¬ HitsUnused p := by
    intro p hp
    obtain rfl : p = (0, 0) := List.eq_of_mem_replicate (n := 5) hp
    decide
  exact (rollback_iff (w := loadedWorld) keyedStore transaction_obliging ⟨by decide, by decide⟩
    hinput List.not_mem_nil oneWarehouse_loaded hrun).mpr (Or.inr hmiss)

/-- A drawn item that happens to get the reserved id rolls the order back. -/
theorem drawn_item_rolls_back :
    KeyedStore committed Database.view transaction ∧ Obliging Database.view transaction ∧
      Loaded 1 (Database.view loadedWorld.tx) ∧
      ∃ input w', generate 1 1 (orderDraws (0, 94012)) = some input ∧ input.rbk = false ∧
        statusOf (run transaction input) loadedWorld = (.userAbort, w') := by
  have hgen : (generate 1 1 (orderDraws (0, 94012))).map Input.rbk = some false := by
    decide +kernel
  obtain ⟨input, hinput, hrbk⟩ := Option.map_eq_some_iff.mp hgen
  obtain ⟨⟨st, w'⟩, hrun⟩ : ∃ res, statusOf (run transaction input) loadedWorld = res := ⟨_, rfl⟩
  refine ⟨keyedStore, transaction_obliging, oneWarehouse_loaded, input, w', hinput, hrbk, ?_⟩
  rcases run_ends (w := loadedWorld) keyedStore transaction_obliging ⟨by decide, by decide⟩
    hinput List.not_mem_nil oneWarehouse_loaded hrun with ⟨rfl, _⟩ | ⟨_, hwhole, _⟩
  · exact hrun
  · exact absurd (Or.inr ⟨(0, 94012), List.mem_cons_self, by decide⟩) hwhole

end Population
end Mvdcc.Tpcc.NewOrderTx
