import Mvdcc.Common.Workload

namespace Mvdcc

/-- `OperationSet`: the operations of a transaction, and those that write. -/
structure OperationSet where
  rwSet : List (Operation Nat) := []
  wSet : List (Operation Nat) := []
  deriving DecidableEq

namespace OperationSet

def keys (s : OperationSet) : List Nat := s.rwSet.map Operation.index

def contentedKeys : List Nat := (List.range 77).map (131072 * ·)

theorem length_contentedKeys : contentedKeys.length = 77 := by
  rw [contentedKeys, List.length_map, List.length_range]

/-- The hot key that a value of `zipf_int` picks. -/
def contentedKey (z : Nat) : Nat :=
  contentedKeys.get ⟨z % 77, by rw [length_contentedKeys]; omega⟩

theorem contentedKey_eq (z : Nat) : contentedKey z = 131072 * (z % 77) := by
  simp [contentedKey, contentedKeys]

/-- The redraw loop: the first drawn key that is not in `rw_set_`, and the draws left. -/
def drawKey (pick : Nat → Nat) (s : OperationSet) : List Nat → Option (Nat × List Nat)
  | [] => none
  | z :: zs => if pick z ∈ s.keys then drawKey pick s zs else some (pick z, zs)

def emplaceBack (readPropotion operationType key : Nat) (s : OperationSet) : OperationSet :=
  if operationType ≤ readPropotion then
    { s with rwSet := s.rwSet ++ [⟨.read, key⟩] }
  else
    { rwSet := s.rwSet ++ [⟨.update, key⟩], wSet := s.wSet ++ [⟨.update, key⟩] }

/-- One of the constructor's two loops, with `j` turns to go: what is left of
the values of `urand_int(1, 100)` and of its own calls of `zipf_int`. -/
def fill (pick : Nat → Nat) (readPropotion : Nat) :
    Nat → OperationSet → List Nat → List Nat → Option (OperationSet × List Nat × List Nat)
  | 0, s, types, zipfs => some (s, types, zipfs)
  | _ + 1, _, [], _ => none
  | j + 1, s, operationType :: types, zipfs => do
    let (key, zipfs) ← drawKey pick s zipfs
    fill pick readPropotion j (s.emplaceBack readPropotion operationType key) types zipfs

end OperationSet

/-- The values that the random generators return to the constructor, call by
call: of the operation types, and of `zipf_int` in the first and in the second loop. -/
structure Draws where
  types : List Nat
  three : List Nat
  seven : List Nat

/-- The constructor, if it returns after exactly these draws. -/
def operationSet (readPropotion : Nat) (draws : Draws) : Option OperationSet := do
  let (s, types, three) ← OperationSet.fill id readPropotion 3 {} draws.types draws.three
  let (s, types, seven) ←
    OperationSet.fill OperationSet.contentedKey readPropotion 7 s types draws.seven
  if types = [] ∧ three = [] ∧ seven = [] then return s else none

namespace OperationSet

/-- What holds of the two sets after every turn. -/
structure Sound (s : OperationSet) : Prop where
  distinct : s.keys.Nodup
  updates : s.wSet = s.rwSet.filter (fun o => o.ope = .update)

theorem keys_emplaceBack (readPropotion operationType key : Nat) (s : OperationSet) :
    (s.emplaceBack readPropotion operationType key).keys = s.keys ++ [key] := by
  unfold emplaceBack keys
  split <;> simp

theorem Sound.emplaceBack {s : OperationSet} (h : s.Sound) {key : Nat} (hk : key ∉ s.keys)
    (readPropotion operationType : Nat) :
    (s.emplaceBack readPropotion operationType key).Sound where
  distinct := by
    rw [keys_emplaceBack, List.nodup_append]
    refine ⟨h.distinct, List.nodup_singleton key, ?_⟩
    intro a ha b hb he
    rw [List.mem_singleton] at hb
    exact hk (hb ▸ he ▸ ha)
  updates := by
    unfold OperationSet.emplaceBack
    split <;> simp [h.updates]

/-- A draw that is passed over repeats a key; the last one is new. -/
theorem drawKey_spec {pick : Nat → Nat} {s : OperationSet} {zs rest : List Nat} {key : Nat}
    (h : drawKey pick s zs = some (key, rest)) :
    key ∉ s.keys ∧ ∃ taken, zs = taken ++ rest ∧
      ∀ k, (k ∈ s.keys ∨ k ∈ taken.map pick) ↔ (k ∈ s.keys ∨ k = key) := by
  induction zs with
  | nil => cases h
  | cons z zs ih =>
    unfold drawKey at h
    split at h
    · rename_i hused
      obtain ⟨hnew, taken, htaken, hkeys⟩ := ih h
      refine ⟨hnew, z :: taken, by rw [htaken, List.cons_append], fun k => ?_⟩
      rw [← hkeys k, List.map_cons, List.mem_cons]
      constructor
      · rintro (hk | rfl | hk)
        · exact Or.inl hk
        · exact Or.inl hused
        · exact Or.inr hk
      · rintro (hk | hk)
        · exact Or.inl hk
        · exact Or.inr (Or.inr hk)
    · rename_i hnew
      obtain ⟨rfl, rfl⟩ : pick z = key ∧ zs = rest := by simpa using h
      exact ⟨hnew, [z], rfl, fun k => by simp⟩

/-- The keys of a loop are those its draws pick, accepted or passed over. -/
theorem fill_spec {pick : Nat → Nat} {readPropotion j : Nat} {s s' : OperationSet}
    {types types' zs rest : List Nat}
    (h : fill pick readPropotion j s types zs = some (s', types', rest)) :
    (s.Sound → s'.Sound) ∧ ∃ taken, zs = taken ++ rest ∧
      ∀ k, k ∈ s'.keys ↔ k ∈ s.keys ∨ k ∈ taken.map pick := by
  induction j generalizing s types zs with
  | zero =>
    obtain ⟨rfl, rfl, rfl⟩ : s = s' ∧ types = types' ∧ zs = rest := by simpa [fill] using h
    exact ⟨id, [], rfl, fun k => by simp⟩
  | succ j ih =>
    cases types with
    | nil => cases h
    | cons operationType types =>
      obtain ⟨⟨key, left⟩, hdraw, hfill⟩ := Option.bind_eq_some_iff.mp h
      obtain ⟨hnew, first, hfirst, hpicked⟩ := drawKey_spec hdraw
      obtain ⟨hsound, others, hothers, hkeys⟩ := ih hfill
      refine ⟨fun hs => hsound (hs.emplaceBack hnew readPropotion operationType), first ++ others,
        by rw [hfirst, hothers, List.append_assoc], fun k => ?_⟩
      rw [hkeys k, keys_emplaceBack, List.mem_append, List.mem_singleton, ← hpicked k,
        List.map_append, List.mem_append, or_assoc]

theorem operationSet_spec {readPropotion : Nat} {draws : Draws} {s : OperationSet}
    (h : operationSet readPropotion draws = some s) :
    s.Sound ∧ ∀ k, k ∈ s.keys ↔ k ∈ draws.three ∨ k ∈ draws.seven.map contentedKey := by
  obtain ⟨⟨s₁, types₁, three⟩, hthree, hrest⟩ := Option.bind_eq_some_iff.mp h
  obtain ⟨⟨s₂, types₂, seven⟩, hseven, hend⟩ := Option.bind_eq_some_iff.mp hrest
  clear h hrest
  dsimp only at hseven hend
  split at hend
  · rename_i hdone
    obtain ⟨-, rfl, rfl⟩ := hdone
    obtain rfl : s₂ = s := Option.some.inj hend
    obtain ⟨hsound, taken, htaken, hkeys⟩ := fill_spec hthree
    obtain ⟨hsound', taken', htaken', hkeys'⟩ := fill_spec hseven
    rw [List.append_nil] at htaken htaken'
    subst htaken htaken'
    refine ⟨hsound' (hsound ⟨List.nodup_nil, rfl⟩), fun k => ?_⟩
    rw [hkeys' k, hkeys k, List.map_id]
    simp [keys]
  · cases hend

end OperationSet

/-! The index, and what the phases look up in it. -/

/-- What `Index::find` answers for each key: a value, or `NOT_FOUND`. -/
abbrev Index (Value : Type) := Nat → Option Value

namespace Index
variable {Value : Type}

/-- `insert`: a key that is there keeps its value. -/
def insert (index : Index Value) (key : Nat) (val : Value) : Index Value :=
  if (index key).isSome then index else Function.update index key (some val)

/-- `load_all_tables`, with the row that each key is given. -/
def loadAllTables (row : Nat → Value) (numRecords : Nat) : Index Value :=
  (List.range numRecords).foldl (fun index key => index.insert key (row key)) (fun _ => none)

theorem loadAllTables_apply (row : Nat → Value) (numRecords key : Nat) :
    loadAllTables row numRecords key = if key < numRecords then some (row key) else none := by
  unfold loadAllTables
  induction numRecords generalizing key with
  | zero => rfl
  | succ n ih =>
    rw [List.range_succ, List.foldl_append, List.foldl_cons, List.foldl_nil, insert, ih n,
      if_neg (Nat.lt_irrefl n), if_neg (by simp)]
    by_cases he : key = n
    · rw [he, Function.update_self, if_pos (Nat.lt_succ_self n)]
    · rw [Function.update_of_ne he, ih key]
      exact if_congr (by omega) rfl rfl

/-- The lookup of the operations that place a key in the write set of the
transaction, which they then return. -/
def place (index : Index Value) (wTable : List Nat) (key : Nat) : Except String (List Nat) :=
  if key ∈ wTable then throw "error"
  else match index key with
    | none => throw "masstree NOT_FOUND"
    | some _ => return wTable ++ [key]

/-- The lookup of `read`. -/
def lookup (index : Index Value) (key : Nat) : Except String Value :=
  match index key with
  | none => throw "masstree NOT_FOUND"
  | some val => return val

end Index

namespace OperationSet
variable {Value : Type}

/-- The operations that one of the phases places, with the write set empty at
the start: `terminate_transaction` has cleared it. -/
def placeAll (index : Index Value) (operations : List (Operation Nat)) : Except String (List Nat) :=
  operations.foldlM (fun wTable o => index.place wTable o.index) []

/-- `append_pending_version` of Serval and of Caracal, `update_write_bitmaps` of Cheetah. -/
def doInitialization (index : Index Value) (s : OperationSet) : Except String (List Nat) :=
  placeAll index s.wSet

/-- `append_pending_version` of Cheetah, in its read phase. -/
def doReadPhase (index : Index Value) (s : OperationSet) : Except String (List Nat) :=
  placeAll index (s.rwSet.filter (fun o => o.ope = .read))

/-- `read` of Serval and of Caracal looks its key up; a write has its version already. -/
def executeOperation (index : Index Value) (o : Operation Nat) : Except String Unit :=
  match o.ope with
  | .read => do let _ ← index.lookup o.index
  | .update => return ()

def doExecution (index : Index Value) (s : OperationSet) : Except String Unit :=
  forM s.rwSet (executeOperation index)

/-- What the protocols rely on: a transaction fits the table that was loaded. -/
structure Fits (row : Nat → Value) (numRecords : Nat) (s : OperationSet) : Prop where
  distinct : s.keys.Nodup
  updates : s.wSet = s.rwSet.filter (fun o => o.ope = .update)
  loaded : ∀ k ∈ s.keys, k < numRecords
  initialization :
    doInitialization (Index.loadAllTables row numRecords) s = .ok (s.wSet.map Operation.index)
  readPhase : ∃ placed, doReadPhase (Index.loadAllTables row numRecords) s = .ok placed
  execution : doExecution (Index.loadAllTables row numRecords) s = .ok ()

theorem placeAll_ok {index : Index Value} {operations : List (Operation Nat)}
    (hd : (operations.map Operation.index).Nodup)
    (hfound : ∀ o ∈ operations, (index o.index).isSome) :
    placeAll index operations = .ok (operations.map Operation.index) := by
  suffices h : ∀ (placed : List Nat) (operations : List (Operation Nat)),
      (placed ++ operations.map Operation.index).Nodup →
      (∀ o ∈ operations, (index o.index).isSome) →
      operations.foldlM (fun wTable o => index.place wTable o.index) placed =
        (.ok (placed ++ operations.map Operation.index) : Except String (List Nat)) by
    exact h [] operations hd hfound
  -- the write set holds the keys of the operations before
  intro placed operations
  induction operations generalizing placed with
  | nil =>
    intro _ _
    rw [List.map_nil, List.append_nil]
    rfl
  | cons o operations ih =>
    intro hd hfound
    obtain ⟨val, hval⟩ := Option.isSome_iff_exists.mp (hfound o (List.mem_cons_self ..))
    have hnew : o.index ∉ placed := by
      intro hmem
      exact (List.nodup_append.mp hd).2.2 _ hmem _ (List.mem_cons_self ..) rfl
    have hplace : index.place placed o.index = .ok (placed ++ [o.index]) := by
      rw [Index.place, if_neg hnew, hval]
      rfl
    rw [List.map_cons, ← List.singleton_append, ← List.append_assoc] at hd
    rw [List.foldlM_cons, hplace]
    have hrest := ih (placed ++ [o.index]) hd (fun o' ho' => hfound o' (List.mem_cons_of_mem _ ho'))
    rw [List.append_assoc, List.singleton_append] at hrest
    exact hrest

theorem executeOperation_ok {index : Index Value} {o : Operation Nat}
    (h : (index o.index).isSome) : executeOperation index o = .ok () := by
  obtain ⟨val, hval⟩ := Option.isSome_iff_exists.mp h
  unfold executeOperation
  cases o.ope with
  | read =>
    rw [Index.lookup, hval]
    rfl
  | update => rfl

theorem doExecution_ok {index : Index Value} {s : OperationSet}
    (hfound : ∀ o ∈ s.rwSet, (index o.index).isSome) : doExecution index s = .ok () := by
  unfold doExecution
  generalize s.rwSet = operations at hfound
  induction operations with
  | nil => rfl
  | cons o operations ih =>
    rw [List.forM_cons, executeOperation_ok (hfound o (List.mem_cons_self ..))]
    exact ih (fun o' ho' => hfound o' (List.mem_cons_of_mem _ ho'))

/-- Keys that were loaded are found, and distinct ones are placed. -/
theorem Sound.fits {s : OperationSet} (h : s.Sound) (row : Nat → Value) {numRecords : Nat}
    (hk : ∀ k ∈ s.keys, k < numRecords) : s.Fits row numRecords := by
  have hfound : ∀ o ∈ s.rwSet, (Index.loadAllTables row numRecords o.index).isSome := by
    intro o ho
    rw [Index.loadAllTables_apply, if_pos (hk o.index (List.mem_map_of_mem ho))]
    rfl
  have hplaced : ∀ operations : List (Operation Nat), operations.Sublist s.rwSet →
      placeAll (Index.loadAllTables row numRecords) operations =
        .ok (operations.map Operation.index) := by
    intro operations hsub
    exact placeAll_ok (h.distinct.sublist (hsub.map _)) (fun o ho => hfound o (hsub.subset ho))
  refine ⟨h.distinct, h.updates, hk, ?_, ⟨_, hplaced _ List.filter_sublist⟩, doExecution_ok hfound⟩
  exact hplaced s.wSet (h.updates ▸ List.filter_sublist)

/-- The one thing that can go wrong is a hot key beyond the table. -/
theorem fits_iff (row : Nat → Value) (numRecords readPropotion : Nat) (draws : Draws)
    (hthree : ∀ z ∈ draws.three, z < numRecords) (s : OperationSet)
    (h : operationSet readPropotion draws = some s) :
    s.Fits row numRecords ↔ ∀ z ∈ draws.seven, 131072 * (z % 77) < numRecords := by
  obtain ⟨hsound, hkeys⟩ := operationSet_spec h
  constructor
  · intro hfits z hz
    rw [← contentedKey_eq]
    exact hfits.loaded _ ((hkeys _).mpr (Or.inr (List.mem_map_of_mem hz)))
  · intro hhot
    refine hsound.fits row (fun k hk => ?_)
    rcases (hkeys k).mp hk with hk | hk
    · exact hthree k hk
    · obtain ⟨z, hz, rfl⟩ := List.mem_map.mp hk
      rw [contentedKey_eq]
      exact hhot z hz

/-- Ten updates: the keys 0, 1 and 2, and then the hot keys after key 0, which is redrawn. -/
def tenUpdates : Draws := ⟨List.replicate 10 51, [0, 1, 2], [0, 3, 4, 5, 6, 7, 8, 9]⟩

theorem fits_iff_ten_million :
    ∃ s, operationSet 50 tenUpdates = some s ∧ s.Fits (fun _ => ()) 10000000 :=
  ⟨_, rfl, (fits_iff (fun _ => ()) 10000000 50 tenUpdates (by decide) _ rfl).mpr (by decide)⟩

/-- A table of ten records: the hot keys are spaced over one of ten millions. -/
theorem ten_records_not_found :
    (∀ z ∈ tenUpdates.three ++ tenUpdates.seven, z < 10) ∧
    ∃ s, operationSet 50 tenUpdates = some s ∧ ¬ s.Fits (fun _ => ()) 10 ∧
      doInitialization (Index.loadAllTables (fun _ => ()) 10) s = .error "masstree NOT_FOUND" := by
  refine ⟨by decide, _, rfl, fun h => ?_, rfl⟩
  exact absurd (h.loaded 393216 (by decide)) (by decide)

end OperationSet

end Mvdcc
