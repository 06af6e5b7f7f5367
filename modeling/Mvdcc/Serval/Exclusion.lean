import Mvdcc.Serval.Accesses

namespace Mvdcc.Serval.Accesses
open Library Bitmap

/-- The words that decide who may go where: the lock, epoch and region pointer
of a row, and the lock and counter of the pool. -/
structure Control where
  lock : RWLock
  epoch : Nat
  region : Option Nat
  poolLock : RWLock
  used : Nat

/-- What the place of a worker in its call says about the control words. -/
structure Zone where
  /-- The row is not yet, or already, opened for the epoch. -/
  opened : Option Bool := none
  /-- The region pointer the worker has seen. -/
  region : Option (Option Nat) := none
  holdsRow : Bool := false
  holdsPool : Bool := false
  /-- The region the worker is about to take from the pool. -/
  taking : Option Nat := none
  /-- The region it has taken and not yet published. -/
  taken : Option Nat := none

def Pc.zone : Pc → Zone
  | .start | .guardTryLock | .execute _ | .done => {}
  | .guardReload => { holdsRow := true }
  | .testGlobal | .loadRegion | .popGlobal | .poppingGlobal | .collectGlobal _
  | .collectingGlobal _ | .storeMaster _ | .storeEpoch =>
    { opened := some false, holdsRow := true }
  | .loadDirty r | .popLatest r _ | .poppingLatest r _ | .resetBitmap r _ =>
    { opened := some false, region := some (some r), holdsRow := true }
  | .guardUnlock | .locked | .insertGlobal _ | .insertingGlobal _ | .unlock | .waitLocked =>
    { opened := some true, holdsRow := true }
  | .tryLock | .waitRegion | .waitTryLock => { opened := some true }
  | .lockedAppend r _ _ | .waitUnlock r =>
    { opened := some true, region := some (some r), holdsRow := true }
  | .fetchLock => { opened := some true, region := some none, holdsRow := true }
  | .fetchRead => { opened := some true, region := some none, holdsRow := true, holdsPool := true }
  | .fetchIncrement r =>
    { opened := some true, region := some none, holdsRow := true, holdsPool := true,
      taking := some r }
  | .fetchUnlock r =>
    { opened := some true, region := some none, holdsRow := true, holdsPool := true,
      taken := some r }
  | .migrate r _ | .migrateAppend r _ _ _ | .clearGlobal r | .clearingGlobal r | .publish r =>
    { opened := some true, region := some none, holdsRow := true, taken := some r }
  | .append r _ _ => { opened := some true, region := some (some r) }

def Memory.control (m : Memory) : Control :=
  ⟨m.value.rwl, m.value.epoch, m.value.rowRegion, m.controller.lock, m.controller.used⟩

/-- What a worker in a zone may rely on. -/
structure Knows (e : Nat) (z : Zone) (c : Control) : Prop where
  before : z.opened = some false → c.epoch < e
  after : z.opened = some true → c.epoch = e
  region : ∀ r, z.region = some r → c.region = r
  taking : ∀ r, z.taking = some r → r = c.used

/-- What a zone needs a lock for. -/
structure Zone.Guarded (z : Zone) : Prop where
  before : z.opened = some false → z.holdsRow = true
  absent : z.region = some none → z.holdsRow = true
  taking : ∀ r, z.taking = some r → z.holdsPool = true

theorem Pc.zone_guarded (pc : Pc) : pc.zone.Guarded := by
  cases pc <;> exact ⟨by simp [zone], by simp [zone], by simp [zone]⟩

/-- All that one access can do to the control words. -/
inductive ControlStep (e : Nat) (z z' : Zone) (c : Control) : Control → Prop
  | silent (hrow : z'.holdsRow = z.holdsRow) (hpool : z'.holdsPool = z.holdsPool)
      (htaken : z'.taken = z.taken) : ControlStep e z z' c c
  | lockRow (hl : c.lock.tryLock = some lock) (hrow : z'.holdsRow = true)
      (hpool : z'.holdsPool = z.holdsPool) (htaken : z'.taken = z.taken) :
      ControlStep e z z' c { c with lock }
  | unlockRow (hrow : z.holdsRow = true) (hrow' : z'.holdsRow = false)
      (hpool : z'.holdsPool = z.holdsPool) (htaken : z'.taken = z.taken) :
      ControlStep e z z' c { c with lock := c.lock.unlock }
  | storeEpoch (hopen : z.opened = some false) (hrow : z'.holdsRow = z.holdsRow)
      (hpool : z'.holdsPool = z.holdsPool) (htaken : z'.taken = z.taken) :
      ControlStep e z z' c { c with epoch := e }
  | lockPool (hl : c.poolLock.tryLock = some poolLock) (hpool : z'.holdsPool = true)
      (hrow : z'.holdsRow = z.holdsRow) (htaken : z'.taken = z.taken) :
      ControlStep e z z' c { c with poolLock }
  | unlockPool (hpool : z.holdsPool = true) (hpool' : z'.holdsPool = false)
      (hrow : z'.holdsRow = z.holdsRow) (htaken : z'.taken = z.taken) :
      ControlStep e z z' c { c with poolLock := c.poolLock.unlock }
  | take (htaking : z.taking = some r) (htaken : z.taken = none) (htaken' : z'.taken = some r)
      (hrow : z'.holdsRow = z.holdsRow) (hpool : z'.holdsPool = z.holdsPool) :
      ControlStep e z z' c { c with used := c.used + 1 }
  | publish (htaken : z.taken = some r) (htaken' : z'.taken = none)
      (habsent : z.region = some none) (hrow : z'.holdsRow = z.holdsRow)
      (hpool : z'.holdsPool = z.holdsPool) :
      ControlStep e z z' c { c with region := some r }

/-- A mutation of a per-core array touches no control word. -/
theorem arrayStep_control {region core tx : Nat} {version : Ptr} {pc : ArrayPc}
    {pc' : Option ArrayPc} {m m' : Memory}
    (h : arrayStep region core version tx pc m = (pc', m')) : Memory.control m' = Memory.control m := by
  obtain rfl : (arrayStep region core version tx pc m).2 = m' := congrArg Prod.snd h
  cases pc <;> rfl

/-- Every access is a control step, and leads to a zone that knows as much as it says. -/
theorem accessStep_control {n e core serial : Nat} {pc pc' : Pc} {m m' : Memory}
    (hk : Knows e pc.zone (Memory.control m)) (hle : m.value.epoch ≤ e)
    (h : accessStep n e core serial pc m = some (pc', m')) :
    ControlStep e pc.zone pc'.zone (Memory.control m) (Memory.control m') ∧
      Knows e pc'.zone (Memory.control m') := by
  obtain ⟨hb, ha, hr, ht⟩ := hk
  cases pc <;> simp only [accessStep] at h
  case start =>
    cases h
    split
    · exact ⟨.silent rfl rfl rfl, by constructor <;> simp [Pc.zone]⟩
    · refine ⟨.silent rfl rfl rfl, ?_⟩
      constructor <;> simp [Pc.zone, Memory.control]
      omega
  case guardTryLock =>
    split at h
    · rename_i l hl
      cases h
      exact ⟨.lockRow hl rfl rfl rfl, by constructor <;> simp [Pc.zone]⟩
    · cases h
      exact ⟨.silent rfl rfl rfl, by constructor <;> simp [Pc.zone]⟩
  case guardReload =>
    cases h
    split
    · rename_i hlt
      exact ⟨.silent rfl rfl rfl, by constructor <;> simp [Pc.zone, Memory.control, hlt]⟩
    · refine ⟨.silent rfl rfl rfl, ?_⟩
      constructor <;> simp [Pc.zone, Memory.control]
      omega
  case testGlobal =>
    cases h
    have he : m.value.epoch < e := hb rfl
    split <;> exact ⟨.silent rfl rfl rfl, by constructor <;> simp [Pc.zone, Memory.control, he]⟩
  case loadRegion =>
    have he : m.value.epoch < e := hb rfl
    split at h
    · rename_i region hregion
      cases h
      exact ⟨.silent rfl rfl rfl, by
        constructor <;> simp [Pc.zone, Memory.control, he, hregion]⟩
    · cases h
      exact ⟨.silent rfl rfl rfl, by constructor <;> simp [Pc.zone, Memory.control, he]⟩
  case loadDirty region =>
    cases h
    have he : m.value.epoch < e := hb rfl
    have hregion : m.value.rowRegion = some region := hr _ rfl
    split <;> exact ⟨.silent rfl rfl rfl, by
      constructor <;> simp [Pc.zone, Memory.control, he, hregion]⟩
  case popGlobal | poppingGlobal | collectGlobal | collectingGlobal | storeMaster =>
    cases h
    exact ⟨.silent rfl rfl rfl, ⟨hb, ha, hr, ht⟩⟩
  case popLatest | poppingLatest =>
    cases h
    exact ⟨.silent rfl rfl rfl, ⟨hb, ha, hr, ht⟩⟩
  case resetBitmap =>
    cases h
    exact ⟨.silent rfl rfl rfl, ⟨hb, ha, by simp [Pc.zone], ht⟩⟩
  case storeEpoch =>
    cases h
    exact ⟨.storeEpoch rfl rfl rfl rfl, by constructor <;> simp [Pc.zone, Memory.control]⟩
  case guardUnlock =>
    cases h
    exact ⟨.unlockRow rfl rfl rfl rfl, ⟨by simp [Pc.zone], ha, by simp [Pc.zone], ht⟩⟩
  case tryLock | waitTryLock =>
    split at h
    · rename_i l hl
      cases h
      exact ⟨.lockRow hl rfl rfl rfl, ⟨hb, ha, hr, ht⟩⟩
    · cases h
      exact ⟨.silent rfl rfl rfl, ⟨hb, ha, hr, ht⟩⟩
  case locked =>
    have he : m.value.epoch = e := ha rfl
    split at h
    · rename_i region hregion
      cases h
      exact ⟨.silent rfl rfl rfl, by
        constructor <;> simp [Pc.zone, Memory.control, he, hregion]⟩
    · cases h
      exact ⟨.silent rfl rfl rfl, ⟨hb, ha, hr, ht⟩⟩
  case insertGlobal | insertingGlobal =>
    cases h
    exact ⟨.silent rfl rfl rfl, ⟨hb, ha, hr, ht⟩⟩
  case lockedAppend region version apc =>
    split at h
    · rename_i apc' m₁ hstep
      cases h
      rw [arrayStep_control hstep]
      exact ⟨.silent rfl rfl rfl, ⟨hb, ha, hr, ht⟩⟩
    · rename_i m₁ hstep
      cases h
      have hctrl : Memory.control m₁ = Memory.control m := arrayStep_control hstep
      have hset : Memory.control (m₁.setPending e serial version) = Memory.control m := hctrl
      rw [hset]
      exact ⟨.silent rfl rfl rfl, ⟨hb, ha, by simp [Pc.zone], ht⟩⟩
  case unlock =>
    cases h
    exact ⟨.unlockRow rfl rfl rfl rfl, by constructor <;> simp [Pc.zone]⟩
  case waitRegion =>
    have he : m.value.epoch = e := ha rfl
    split at h
    · rename_i region hregion
      cases h
      exact ⟨.silent rfl rfl rfl, by
        constructor <;> simp [Pc.zone, Memory.control, he, hregion]⟩
    · cases h
      exact ⟨.silent rfl rfl rfl, ⟨hb, ha, hr, ht⟩⟩
  case waitLocked =>
    have he : m.value.epoch = e := ha rfl
    split at h
    · rename_i region hregion
      cases h
      exact ⟨.silent rfl rfl rfl, by
        constructor <;> simp [Pc.zone, Memory.control, he, hregion]⟩
    · rename_i hregion
      cases h
      exact ⟨.silent rfl rfl rfl, by
        constructor <;> simp [Pc.zone, Memory.control, he, hregion]⟩
  case fetchLock =>
    split at h
    · rename_i l hl
      cases h
      exact ⟨.lockPool hl rfl rfl rfl, ⟨hb, ha, hr, ht⟩⟩
    · cases h
  case fetchRead =>
    split at h
    · cases h
    · cases h
      refine ⟨.silent rfl rfl rfl, ⟨hb, ha, hr, ?_⟩⟩
      rintro r hr
      exact (Option.some.inj hr).symm
  case fetchIncrement region =>
    cases h
    exact ⟨.take rfl rfl rfl rfl rfl, ⟨hb, ha, hr, by simp [Pc.zone]⟩⟩
  case fetchUnlock region =>
    cases h
    exact ⟨.unlockPool rfl rfl rfl rfl, ⟨hb, ha, hr, ht⟩⟩
  case migrate region rest =>
    cases rest with
    | nil =>
      cases h
      exact ⟨.silent rfl rfl rfl, ⟨hb, ha, hr, ht⟩⟩
    | cons moved rest =>
      cases h
      exact ⟨.silent rfl rfl rfl, ⟨hb, ha, hr, ht⟩⟩
  case migrateAppend region moved rest apc =>
    split at h
    · rename_i apc' m₁ hstep
      cases h
      rw [arrayStep_control hstep]
      exact ⟨.silent rfl rfl rfl, ⟨hb, ha, hr, ht⟩⟩
    · rename_i hstep
      cases h
      rw [arrayStep_control hstep]
      exact ⟨.silent rfl rfl rfl, ⟨hb, ha, hr, ht⟩⟩
  case clearGlobal | clearingGlobal =>
    cases h
    exact ⟨.silent rfl rfl rfl, ⟨hb, ha, hr, ht⟩⟩
  case publish region =>
    cases h
    have he : m.value.epoch = e := ha rfl
    exact ⟨.publish rfl rfl rfl rfl rfl, by constructor <;> simp [Pc.zone, Memory.control, he]⟩
  case waitUnlock region =>
    cases h
    exact ⟨.unlockRow rfl rfl rfl rfl, ⟨hb, ha, hr, ht⟩⟩
  case append region version apc =>
    split at h
    · rename_i apc' m₁ hstep
      cases h
      rw [arrayStep_control hstep]
      exact ⟨.silent rfl rfl rfl, ⟨hb, ha, hr, ht⟩⟩
    · rename_i m₁ hstep
      cases h
      have hctrl : Memory.control m₁ = Memory.control m := arrayStep_control hstep
      have hset : Memory.control (m₁.setPending e serial version) = Memory.control m := hctrl
      rw [hset]
      exact ⟨.silent rfl rfl rfl, by constructor <;> simp [Pc.zone]⟩
  case execute => cases h
  case done => cases h

section ControlStep
variable {e : Nat} {z z' : Zone} {c c' : Control}

theorem ControlStep.row (h : ControlStep e z z' c c') :
    RWLock.Moves c.lock c'.lock (z.holdsRow = true) (z'.holdsRow = true) := by
  have hkeep : z'.holdsRow = z.holdsRow → (z'.holdsRow = true ↔ z.holdsRow = true) :=
    fun heq => by rw [heq]
  cases h with
  | lockRow hl hrow => exact Or.inr (Or.inl ⟨hl, hrow⟩)
  | unlockRow hrow hrow' => exact Or.inr (Or.inr ⟨hrow, by simp [hrow'], rfl⟩)
  | _ => exact Or.inl ⟨rfl, hkeep (by assumption)⟩

theorem ControlStep.pool (h : ControlStep e z z' c c') :
    RWLock.Moves c.poolLock c'.poolLock (z.holdsPool = true) (z'.holdsPool = true) := by
  have hkeep : z'.holdsPool = z.holdsPool → (z'.holdsPool = true ↔ z.holdsPool = true) :=
    fun heq => by rw [heq]
  cases h with
  | lockPool hl hpool => exact Or.inr (Or.inl ⟨hl, hpool⟩)
  | unlockPool hpool hpool' => exact Or.inr (Or.inr ⟨hpool, by simp [hpool'], rfl⟩)
  | _ => exact Or.inl ⟨rfl, hkeep (by assumption)⟩

theorem ControlStep.epoch (h : ControlStep e z z' c c') :
    c'.epoch = c.epoch ∨ (z.opened = some false ∧ c'.epoch = e) := by
  cases h with
  | storeEpoch hopen => exact Or.inr ⟨hopen, rfl⟩
  | _ => exact Or.inl rfl

theorem ControlStep.taken (h : ControlStep e z z' c c') :
    (z'.taken = z.taken ∧ c'.region = c.region ∧ c'.used = c.used) ∨
    (∃ r, z.taking = some r ∧ z'.taken = some r ∧ c'.region = c.region ∧ c'.used = c.used + 1) ∨
    (∃ r, z.taken = some r ∧ z'.taken = none ∧ z.region = some none ∧ c'.region = some r ∧
      c'.used = c.used) := by
  cases h with
  | take htaking htaken htaken' => exact Or.inr (Or.inl ⟨_, htaking, htaken', rfl, rfl⟩)
  | publish htaken htaken' habsent => exact Or.inr (Or.inr ⟨_, htaken, htaken', habsent, rfl, rfl⟩)
  | _ => exact Or.inl ⟨by assumption, rfl, rfl⟩

end ControlStep

section System
variable {Key : Type u}

def State.control (s : State Key) (k : Key) : Control := Memory.control (s.memory k)

/-- The row a worker is working on, and its zone there. -/
def State.zone (s : State Key) (w : Nat) : Option (Key × Zone) :=
  match (s.workers w).todo with
  | [] => none
  | c :: _ => some (c.index, (s.workers w).pc.zone)

def HoldsRow (s : State Key) (k : Key) (w : Nat) : Prop :=
  ∃ z, s.zone w = some (k, z) ∧ z.holdsRow = true

def HoldsPool (s : State Key) (w : Nat) : Prop :=
  ∃ k z, s.zone w = some (k, z) ∧ z.holdsPool = true

/-- Locks are held by those who think so, knowledge is true, and a region belongs
to one row or is on its way there in one worker's hands. -/
structure Inv (s : State Key) : Prop where
  epochs : ∀ k, (s.control k).epoch ≤ s.epoch
  rowLock : ∀ k, (s.control k).lock.Exclusive (HoldsRow s k)
  poolLock : s.controller.lock.Exclusive (HoldsPool s)
  knows : ∀ w k z, s.zone w = some (k, z) → Knows s.epoch z (s.control k)
  installed : ∀ k r, (s.control k).region = some r → r < s.controller.used
  distinct : ∀ k k' r, (s.control k).region = some r → (s.control k').region = some r → k = k'
  taken : ∀ w k z r, s.zone w = some (k, z) → z.taken = some r →
    r < s.controller.used ∧ ∀ k', (s.control k').region ≠ some r
  unique : ∀ w w' k k' z z' r, s.zone w = some (k, z) → s.zone w' = some (k', z') →
    z.taken = some r → z'.taken = some r → w = w'
  idle : s.phase = .execution → ∀ w k z, s.zone w = some (k, z) → z = {}
  absent : ∀ w, 64 ≤ w → s.zone w = none

theorem zone_guarded {s : State Key} {w : Nat} {k : Key} {z : Zone}
    (h : s.zone w = some (k, z)) : z.Guarded := by
  unfold State.zone at h
  split at h
  · cases h
  · cases h
    exact Pc.zone_guarded _

/-- One worker's control step, seen from the whole system. -/
structure Moves (s s' : State Key) (w : Nat) (k : Key) (z z' : Zone) : Prop where
  phase : s'.phase = .initialization
  epoch : s'.epoch = s.epoch
  zone : s.zone w = some (k, z)
  zone' : s'.zone w = some (k, z')
  others : ∀ w', w' ≠ w → s'.zone w' = s.zone w'
  rows : ∀ k', k' ≠ k → s'.control k' =
    { s.control k' with poolLock := s'.controller.lock, used := s'.controller.used }
  control : ControlStep s.epoch z z' (s.control k) (s'.control k)
  knows : Knows s.epoch z' (s'.control k)

section Moves
variable {s s' : State Key} {w : Nat} {k : Key} {z z' : Zone}

theorem Moves.holdsRow_other (m : Moves s s' w k z z') {w' : Nat} (k' : Key) (hw : w' ≠ w) :
    HoldsRow s' k' w' ↔ HoldsRow s k' w' := by
  unfold HoldsRow
  rw [m.others w' hw]

theorem Moves.rowLock (m : Moves s s' w k z z') (h : Inv s) (k' : Key) :
    (s'.control k').lock.Exclusive (HoldsRow s' k') := by
  have hself : HoldsRow s k w ↔ z.holdsRow = true := by
    simp [HoldsRow, m.zone]
  have hself' : HoldsRow s' k w ↔ z'.holdsRow = true := by
    simp [HoldsRow, m.zone']
  by_cases hk : k' = k
  · subst hk
    have hrow := m.control.row
    rw [← hself, ← hself'] at hrow
    exact (h.rowLock k').move hrow (fun j hj => m.holdsRow_other k' hj)
  · rw [m.rows k' hk]
    refine (h.rowLock k').keep (fun j => ?_)
    by_cases hj : j = w
    · subst hj
      simp [HoldsRow, m.zone, m.zone', Ne.symm hk]
    · exact m.holdsRow_other k' hj

theorem Moves.poolLock (m : Moves s s' w k z z') (h : Inv s) :
    s'.controller.lock.Exclusive (HoldsPool s') := by
  have hself : HoldsPool s w ↔ z.holdsPool = true := by
    simp [HoldsPool, m.zone]
  have hself' : HoldsPool s' w ↔ z'.holdsPool = true := by
    simp [HoldsPool, m.zone']
  have hother : ∀ j, j ≠ w → (HoldsPool s' j ↔ HoldsPool s j) := by
    intro j hj
    unfold HoldsPool
    rw [m.others j hj]
  have hpool := m.control.pool
  rw [← hself, ← hself'] at hpool
  exact h.poolLock.move hpool hother

/-- Nobody else holds a lock that the moving worker's knowledge needs. -/
theorem Moves.alone (m : Moves s s' w k z z') (h : Inv s) {w' : Nat} {z₁ : Zone}
    (hz : s.zone w' = some (k, z₁)) (hh : z.holdsRow = true) (hh₁ : z₁.holdsRow = true) :
    w' = w :=
  (h.rowLock k).unique ⟨z₁, hz, hh₁⟩ ⟨z, m.zone, hh⟩

theorem Moves.used (m : Moves s s' w k z z') :
    s'.controller.used = s.controller.used ∨
      (z.holdsPool = true ∧ s'.controller.used = s.controller.used + 1) := by
  rcases m.control.taken with ⟨_, _, hu⟩ | ⟨r, ht, _, _, hu⟩ | ⟨r, _, _, _, _, hu⟩
  · exact Or.inl hu
  · exact Or.inr ⟨(zone_guarded m.zone).taking r ht, hu⟩
  · exact Or.inl hu

/-- What the other workers know stays true. -/
theorem Moves.knows_other (m : Moves s s' w k z z') (h : Inv s) {w' : Nat} {k₁ : Key} {z₁ : Zone}
    (hw : w' ≠ w) (hz : s.zone w' = some (k₁, z₁)) : Knows s.epoch z₁ (s'.control k₁) := by
  have hk := h.knows w' k₁ z₁ hz
  have hg := zone_guarded hz
  have htaking : ∀ r, z₁.taking = some r → r = s'.controller.used := by
    intro r hr
    rcases m.used with hu | ⟨hp, _⟩
    · rw [hu]
      exact hk.taking r hr
    · exact absurd (h.poolLock.unique ⟨k₁, z₁, hz, hg.taking r hr⟩ ⟨k, z, m.zone, hp⟩) hw
  by_cases he : k₁ = k
  · subst he
    have hgw := zone_guarded m.zone
    refine ⟨?_, ?_, ?_, htaking⟩
    · intro ho
      rcases m.control.epoch with he | ⟨ho', _⟩
      · rw [he]
        exact hk.before ho
      · exact absurd (m.alone h hz (hgw.before ho') (hg.before ho)) hw
    · intro ho
      rcases m.control.epoch with he | ⟨_, he⟩
      · rw [he]
        exact hk.after ho
      · exact he
    · intro r hr
      rcases m.control.taken with ⟨_, hreg, _⟩ | ⟨_, _, _, hreg, _⟩ | ⟨r', _, _, habs, _, _⟩
      · rw [hreg]
        exact hk.region r hr
      · rw [hreg]
        exact hk.region r hr
      · have hnone := (h.knows w k₁ z m.zone).region none habs
        rw [hk.region r hr] at hnone
        subst hnone
        exact absurd (m.alone h hz (hgw.absent habs) (hg.absent hr)) hw
  · rw [m.rows k₁ he]
    exact ⟨hk.before, hk.after, hk.region, htaking⟩

theorem Moves.region_cases (m : Moves s s' w k z z') {k₁ : Key} {r : Nat}
    (hr : (s'.control k₁).region = some r) : (s.control k₁).region = some r ∨
      (k₁ = k ∧ z.taken = some r ∧ z'.taken = none) := by
  by_cases he : k₁ = k
  · subst he
    rcases m.control.taken with ⟨_, hreg, _⟩ | ⟨_, _, _, hreg, _⟩ | ⟨r', ht, ht', _, hreg, _⟩
    · exact Or.inl (hreg ▸ hr)
    · exact Or.inl (hreg ▸ hr)
    · rw [hreg, Option.some.injEq] at hr
      exact Or.inr ⟨rfl, hr ▸ ht, ht'⟩
  · rw [m.rows k₁ he] at hr
    exact Or.inl hr

theorem Moves.used_le (m : Moves s s' w k z z') : s.controller.used ≤ s'.controller.used := by
  rcases m.used with hu | ⟨_, hu⟩ <;> omega

/-- A region in a worker's hands after the step: held before, or just taken. -/
theorem Moves.taken_cases (m : Moves s s' w k z z') (h : Inv s) {w' : Nat} {k₁ : Key} {z₁ : Zone}
    {r : Nat} (hz : s'.zone w' = some (k₁, z₁)) (hr : z₁.taken = some r) :
    (∃ z₂, s.zone w' = some (k₁, z₂) ∧ z₂.taken = some r) ∨
      (w' = w ∧ r = s.controller.used ∧ s'.controller.used = s.controller.used + 1) := by
  by_cases hw : w' = w
  · subst hw
    rw [m.zone', Option.some.injEq, Prod.mk.injEq] at hz
    obtain ⟨rfl, rfl⟩ := hz
    rcases m.control.taken with ⟨ht, _, _⟩ | ⟨r', htaking, ht', _, hu⟩ | ⟨_, _, ht', _, _, _⟩
    · exact Or.inl ⟨z, m.zone, ht ▸ hr⟩
    · rw [ht', Option.some.injEq] at hr
      subst hr
      exact Or.inr ⟨rfl, (h.knows w' k z m.zone).taking r' htaking, hu⟩
    · rw [ht'] at hr
      cases hr
  · rw [m.others w' hw] at hz
    exact Or.inl ⟨z₁, hz, hr⟩

theorem Moves.inv (m : Moves s s' w k z z') (h : Inv s) : Inv s' := by
  refine ⟨?_, m.rowLock h, m.poolLock h, ?_, ?_, ?_, ?_, ?_, ?_, ?_⟩
  · intro k₁
    rw [m.epoch]
    by_cases he : k₁ = k
    · subst he
      rcases m.control.epoch with he | ⟨_, he⟩
      · rw [he]
        exact h.epochs k₁
      · exact Nat.le_of_eq he
    · rw [m.rows k₁ he]
      exact h.epochs k₁
  · intro w' k₁ z₁ hz
    rw [m.epoch]
    by_cases hw : w' = w
    · subst hw
      rw [m.zone', Option.some.injEq, Prod.mk.injEq] at hz
      obtain ⟨rfl, rfl⟩ := hz
      exact m.knows
    · rw [m.others w' hw] at hz
      exact m.knows_other h hw hz
  · intro k₁ r hr
    rcases m.region_cases hr with hr | ⟨_, ht, _⟩
    · exact Nat.lt_of_lt_of_le (h.installed k₁ r hr) m.used_le
    · exact Nat.lt_of_lt_of_le (h.taken w k z r m.zone ht).1 m.used_le
  · intro k₁ k₂ r h₁ h₂
    rcases m.region_cases h₁ with h₁ | ⟨rfl, ht, _⟩ <;>
      rcases m.region_cases h₂ with h₂ | ⟨rfl, ht', _⟩
    · exact h.distinct k₁ k₂ r h₁ h₂
    · exact absurd h₁ ((h.taken w _ z r m.zone ht').2 k₁)
    · exact absurd h₂ ((h.taken w _ z r m.zone ht).2 k₂)
    · rfl
  · intro w' k₁ z₁ r hz hr
    rcases m.taken_cases h hz hr with ⟨z₂, hz₂, hr₂⟩ | ⟨hw, hru, hu⟩
    · obtain ⟨hlt, hno⟩ := h.taken w' k₁ z₂ r hz₂ hr₂
      refine ⟨Nat.lt_of_lt_of_le hlt m.used_le, ?_⟩
      intro k' hk'
      rcases m.region_cases hk' with hold | ⟨_, ht, ht'⟩
      · exact hno k' hold
      · have hww := h.unique w' w k₁ k z₂ z r hz₂ m.zone hr₂ ht
        subst hww
        rw [m.zone', Option.some.injEq, Prod.mk.injEq] at hz
        rw [← hz.2, ht'] at hr
        cases hr
    · refine ⟨by omega, ?_⟩
      intro k' hk'
      rcases m.region_cases hk' with hold | ⟨_, ht, _⟩
      · have := h.installed k' r hold
        omega
      · have := (h.taken w k z r m.zone ht).1
        omega
  · intro w₁ w₂ k₁ k₂ z₁ z₂ r hz₁ hz₂ hr₁ hr₂
    rcases m.taken_cases h hz₁ hr₁ with ⟨y₁, hy₁, ht₁⟩ | ⟨hw₁, hu₁, _⟩ <;>
      rcases m.taken_cases h hz₂ hr₂ with ⟨y₂, hy₂, ht₂⟩ | ⟨hw₂, hu₂, _⟩
    · exact h.unique w₁ w₂ k₁ k₂ y₁ y₂ r hy₁ hy₂ ht₁ ht₂
    · have := (h.taken w₁ k₁ y₁ r hy₁ ht₁).1
      omega
    · have := (h.taken w₂ k₂ y₂ r hy₂ ht₂).1
      omega
    · rw [hw₁, hw₂]
  · intro hp
    rw [m.phase] at hp
    cases hp
  · intro w' hw'
    have hw : w' ≠ w := by
      rintro rfl
      have := m.zone
      rw [h.absent w' hw'] at this
      cases this
    rw [m.others w' hw]
    exact h.absent w' hw'

end Moves

/-- A worker at rest before and after a change of state. -/
def Rests (s s' : State Key) (w : Nat) : Prop :=
  (∀ k z, s.zone w = some (k, z) → z = {}) ∧ ∀ k z, s'.zone w = some (k, z) → z = {}

/-- Workers at rest may come, go and change the epoch. -/
theorem Inv.rest {s s' : State Key} (h : Inv s) (hc : ∀ k, s'.control k = s.control k)
    (hctl : s'.controller = s.controller) (he : s.epoch ≤ s'.epoch)
    (hz : ∀ w, (s'.zone w = s.zone w ∧ s'.epoch = s.epoch) ∨ Rests s s' w)
    (hidle : s'.phase = .execution → ∀ w k z, s'.zone w = some (k, z) → z = {})
    (habs : ∀ w, 64 ≤ w → s'.zone w = none) : Inv s' := by
  have hold : ∀ w k z, s'.zone w = some (k, z) →
      (s.zone w = some (k, z) ∧ s'.epoch = s.epoch) ∨ z = {} := by
    intro w k z hw
    rcases hz w with ⟨hsame, he⟩ | ⟨_, hr⟩
    · exact Or.inl ⟨hsame ▸ hw, he⟩
    · exact Or.inr (hr k z hw)
  have hback : ∀ w k z, s.zone w = some (k, z) → s'.zone w = some (k, z) ∨ z = {} := by
    intro w k z hw
    rcases hz w with ⟨hsame, _⟩ | ⟨hr, _⟩
    · exact Or.inl (hsame.trans hw)
    · exact Or.inr (hr k z hw)
  refine ⟨?_, ?_, ?_, ?_, ?_, ?_, ?_, ?_, hidle, habs⟩
  · intro k
    rw [hc]
    exact Nat.le_trans (h.epochs k) he
  · intro k
    rw [hc]
    refine (h.rowLock k).keep (fun w => ⟨?_, ?_⟩)
    · rintro ⟨z, hw, hh⟩
      rcases hold w k z hw with ⟨hw, _⟩ | rfl
      · exact ⟨z, hw, hh⟩
      · cases hh
    · rintro ⟨z, hw, hh⟩
      rcases hback w k z hw with hw | rfl
      · exact ⟨z, hw, hh⟩
      · cases hh
  · rw [hctl]
    refine h.poolLock.keep (fun w => ⟨?_, ?_⟩)
    · rintro ⟨k, z, hw, hh⟩
      rcases hold w k z hw with ⟨hw, _⟩ | rfl
      · exact ⟨k, z, hw, hh⟩
      · cases hh
    · rintro ⟨k, z, hw, hh⟩
      rcases hback w k z hw with hw | rfl
      · exact ⟨k, z, hw, hh⟩
      · cases hh
  · intro w k z hw
    rw [hc]
    rcases hold w k z hw with ⟨hw, he⟩ | rfl
    · rw [he]
      exact h.knows w k z hw
    · constructor <;> simp
  · intro k r hr
    rw [hc] at hr
    rw [hctl]
    exact h.installed k r hr
  · intro k k' r hr hr'
    rw [hc] at hr hr'
    exact h.distinct k k' r hr hr'
  · intro w k z r hw hr
    rcases hold w k z hw with ⟨hw, _⟩ | rfl
    · rw [hctl]
      refine ⟨(h.taken w k z r hw hr).1, fun k' => ?_⟩
      rw [hc]
      exact (h.taken w k z r hw hr).2 k'
    · cases hr
  · intro w w' k k' z z' r hw hw' hr hr'
    rcases hold w k z hw with ⟨hw, _⟩ | rfl
    · rcases hold w' k' z' hw' with ⟨hw', _⟩ | rfl
      · exact h.unique w w' k k' z z' r hw hw' hr hr'
      · cases hr'
    · cases hr

theorem zone_of_todo {s : State Key} {w : Nat} {c : Call Key} {rest : List (Call Key)}
    (h : (s.workers w).todo = c :: rest) : s.zone w = some (c.index, (s.workers w).pc.zone) := by
  simp [State.zone, h]

theorem zone_start {s : State Key} {w : Nat} (hpc : (s.workers w).pc = .start) (k : Key) (z : Zone)
    (h : s.zone w = some (k, z)) : z = {} := by
  unfold State.zone at h
  split at h
  · cases h
  · rw [hpc] at h
    cases h
    rfl

variable {wl : Workload Key} {numRegions : Nat}

theorem Inv.return_step {s : State Key} (h : Inv s) {w : Nat} {c : Call Key}
    {rest : List (Call Key)} (htodo : (s.workers w).todo = c :: rest)
    (hpc : (s.workers w).pc = .done) :
    Inv { s with workers := Function.update s.workers w ⟨rest, .start⟩ } := by
  have hsame : ∀ w', w' ≠ w → State.zone { s with
      workers := Function.update s.workers w ⟨rest, .start⟩ } w' = s.zone w' := by
    intro w' hw
    simp [State.zone, Function.update_of_ne hw]
  have hnew : ∀ k z, State.zone { s with
      workers := Function.update s.workers w ⟨rest, .start⟩ } w = some (k, z) → z = {} :=
    zone_start (by simp)
  refine h.rest (fun _ => rfl) rfl (Nat.le_refl _) ?_ ?_ ?_
  · intro w'
    by_cases hw : w' = w
    · subst hw
      refine Or.inr ⟨?_, hnew⟩
      intro k z hz
      rw [zone_of_todo htodo, hpc] at hz
      cases hz
      rfl
    · exact Or.inl ⟨hsame w' hw, rfl⟩
  · intro hp w' k z hz
    by_cases hw : w' = w
    · subst hw
      exact hnew k z hz
    · rw [hsame w' hw] at hz
      exact h.idle hp w' k z hz
  · intro w' hw'
    have hw : w' ≠ w := by
      rintro rfl
      have hz := zone_of_todo htodo
      rw [h.absent w' hw'] at hz
      cases hz
    rw [hsame w' hw]
    exact h.absent w' hw'

theorem zone_absent {s : State Key} {phase : Phase}
    {e w : Nat} (hs : s.workers = fun w => ⟨program wl phase e w, .start⟩) (hw : 64 ≤ w) :
    s.zone w = none := by
  have hn : ¬ w < 64 := by omega
  simp [State.zone, hs, program, hn]

/-- Passing the barrier: everyone has finished, and everyone starts again. -/
theorem Inv.enter {s : State Key} (h : Inv s) (hall : ∀ w < 64, (s.workers w).todo = [])
    (phase : Phase) {e : Nat} (he : s.epoch ≤ e) : Inv (s.enter wl phase e) := by
  have hnew : ∀ w k z, (s.enter wl phase e).zone w = some (k, z) → z = {} :=
    fun w => zone_start rfl
  refine h.rest (fun _ => rfl) rfl he ?_ (fun _ => hnew) (fun w hw => zone_absent rfl hw)
  intro w
  refine Or.inr ⟨?_, hnew w⟩
  intro k z hz
  by_cases hw : w < 64
  · simp [State.zone, hall w hw] at hz
  · rw [h.absent w (by omega)] at hz
    cases hz

/-- Workers at their starts, with every lock free and every region in one place. -/
theorem inv_start {s : State Key} (hpc : ∀ w, (s.workers w).pc = .start)
    (habs : ∀ w, 64 ≤ w → s.zone w = none) (hepochs : ∀ k, (s.control k).epoch ≤ s.epoch)
    (hlocks : ∀ k, (s.control k).lock.cnt = 0) (hpool : s.controller.lock.cnt = 0)
    (hinstalled : ∀ k r, (s.control k).region = some r → r < s.controller.used)
    (hdistinct : ∀ k k' r, (s.control k).region = some r → (s.control k').region = some r → k = k') :
    Inv s := by
  have hidle : ∀ w k z, s.zone w = some (k, z) → z = {} := fun w => zone_start (hpc w)
  refine ⟨hepochs, fun k => Or.inl ⟨hlocks k, ?_⟩, Or.inl ⟨hpool, ?_⟩, ?_, hinstalled, hdistinct,
    ?_, ?_, fun _ => hidle, habs⟩
  · rintro w ⟨z, hz, hh⟩
    rw [hidle w k z hz] at hh
    cases hh
  · rintro w ⟨k, z, hz, hh⟩
    rw [hidle w k z hz] at hh
    cases hh
  · intro w k z hz
    rw [hidle w k z hz]
    constructor <;> simp
  · intro w k z r hz hr
    rw [hidle w k z hz] at hr
    cases hr
  · intro w w' k k' z z' r hz _ hr
    rw [hidle w k z hz] at hr
    cases hr

theorem inv_initial : Inv (initial wl) := by
  have hregion : ∀ k r, ((initial wl).control k).region ≠ some r := by
    intro k r hr
    cases hr
  exact inv_start (fun _ => rfl) (fun w hw => zone_absent rfl hw) (fun _ => Nat.zero_le _)
    (fun _ => rfl) rfl (fun k r hr => absurd hr (hregion k r))
    (fun k _ r hr => absurd hr (hregion k r))

variable [DecidableEq Key]

theorem zone_advance {s : State Key} {w : Nat} {c : Call Key} {rest : List (Call Key)} {pc : Pc}
    {m : Memory} (h : (s.workers w).todo = c :: rest) :
    (s.advance w c.index pc m).zone w = some (c.index, pc.zone) := by
  simp [State.zone, State.advance, h]

theorem zone_advance_other {s : State Key} {w w' : Nat} {k : Key} {pc : Pc} {m : Memory}
    (h : w' ≠ w) : (s.advance w k pc m).zone w' = s.zone w' := by
  simp [State.zone, State.advance, Function.update_of_ne h]

theorem control_advance (s : State Key) (w : Nat) (k : Key) (pc : Pc) (m : Memory) :
    (s.advance w k pc m).control k = Memory.control m := by
  simp [State.control, State.memory, State.advance, Memory.control]

theorem control_advance_other (s : State Key) (w : Nat) {k k' : Key} (pc : Pc) (m : Memory)
    (h : k' ≠ k) : (s.advance w k pc m).control k' =
      { s.control k' with poolLock := m.controller.lock, used := m.controller.used } := by
  simp [State.control, State.memory, State.advance, Memory.control, Function.update_of_ne h]

/-- A step of the initialization phase is one worker's control step. -/
theorem Inv.moves {s : State Key} (h : Inv s) (hp : s.phase = .initialization) {w : Nat}
    {c : Call Key} {rest : List (Call Key)} {pc : Pc} {m : Memory}
    (htodo : (s.workers w).todo = c :: rest)
    (hcall : callStep numRegions s w c (s.workers w).pc (s.memory c.index) = some (pc, m)) :
    Moves s (s.advance w c.index pc m) w c.index (s.workers w).pc.zone pc.zone := by
  simp only [callStep, hp] at hcall
  have hz := zone_of_todo htodo
  obtain ⟨hctl, hk⟩ := accessStep_control (h.knows w _ _ hz) (h.epochs c.index) hcall
  refine ⟨hp, rfl, hz, zone_advance htodo, fun w' hw => zone_advance_other hw,
    fun k' hk' => control_advance_other s w pc m hk', ?_, ?_⟩
  · rw [control_advance]
    exact hctl
  · rw [control_advance]
    exact hk

theorem Inv.call_step {s : State Key} (h : Inv s) {w : Nat} {c : Call Key}
    {rest : List (Call Key)} {pc : Pc} {m : Memory} (htodo : (s.workers w).todo = c :: rest)
    (hcall : callStep numRegions s w c (s.workers w).pc (s.memory c.index) = some (pc, m)) :
    Inv (s.advance w c.index pc m) := by
  cases hp : s.phase with
  | initialization => exact (h.moves hp htodo hcall).inv h
  | execution =>
    simp only [callStep, hp] at hcall
    obtain ⟨⟨pc₁, m₁⟩, hstep, he⟩ := Option.map_eq_some_iff.mp hcall
    cases he
    obtain ⟨hvalue, hctrl, _, _⟩ := executionStep_keeps hstep
    have hmc : Memory.control m₁ = s.control c.index := by
      rw [Memory.control, hvalue, hctrl]
      rfl
    have hzero : ∀ k z, (s.advance w c.index (.ofExecution pc₁) m₁).zone w = some (k, z) →
        z = {} := by
      intro k z hz
      rw [zone_advance htodo] at hz
      cases hz
      cases pc₁ <;> rfl
    have habs : ∀ w', 64 ≤ w' → w' ≠ w := by
      rintro _ hw rfl
      have hz := zone_of_todo htodo
      rw [h.absent _ hw] at hz
      cases hz
    refine h.rest ?_ hctrl (Nat.le_refl _) ?_ ?_ ?_
    · intro k
      by_cases hk : k = c.index
      · subst hk
        rw [control_advance, hmc]
      · rw [control_advance_other s w _ m₁ hk, hctrl]
        rfl
    · intro w'
      by_cases hw : w' = w
      · subst hw
        exact Or.inr ⟨h.idle hp w', hzero⟩
      · exact Or.inl ⟨zone_advance_other hw, rfl⟩
    · intro _ w' k z hz
      by_cases hw : w' = w
      · subst hw
        exact hzero k z hz
      · rw [zone_advance_other hw] at hz
        exact h.idle hp w' k z hz
    · intro w' hw
      rw [zone_advance_other (habs w' hw)]
      exact h.absent w' hw

theorem Inv.step {s s' : State Key} {i : Choice} (h : Inv s)
    (hstep : step wl numRegions i s = some s') : Inv s' := by
  cases i with
  | worker w =>
    simp only [Accesses.step] at hstep
    split at hstep
    · cases hstep
    · rename_i c rest htodo
      split at hstep
      · rename_i hpc
        cases hstep
        exact h.return_step htodo hpc
      · obtain ⟨⟨pc, m⟩, hcall, he⟩ := Option.map_eq_some_iff.mp hstep
        cases he
        exact h.call_step htodo hcall
  | barrier =>
    simp only [Accesses.step] at hstep
    split at hstep
    · rename_i hall
      cases hstep
      split
      · exact h.enter hall .execution (Nat.le_refl _)
      · exact h.enter hall .initialization (Nat.le_succ _)
    · cases hstep

theorem Reachable.inv {s : State Key} (h : Reachable wl numRegions s) : Inv s :=
  TransitionSystem.Reachable.invariant h (fun _ hs => hs ▸ inv_initial)
    (fun _ _ _ hi hstep => hi.step hstep)

/-- Inside a mutation of `global_array_`. -/
def Pc.mutatesGlobal : Pc → Prop
  | .poppingGlobal | .collectingGlobal _ | .insertingGlobal _ | .clearingGlobal _ => True
  | _ => False

def ArrayPc.mutates : ArrayPc → Bool
  | .collecting | .clearing | .inserting => true
  | _ => false

/-- The region and core of the per-core array that worker `w` is inside a mutation of. -/
def Pc.mutatesArray (w : Nat) : Pc → Option (Nat × Nat)
  | .poppingLatest region core => some (region, core)
  | .lockedAppend region _ pc | .append region _ pc =>
    if pc.mutates then some (region, w) else none
  | .migrateAppend region moved _ pc =>
    if pc.mutates then some (region, getCoreSerial moved.1.toNat) else none
  | _ => none

theorem Pc.mutatesGlobal_locked {pc : Pc} (h : pc.mutatesGlobal) : pc.zone.holdsRow = true := by
  cases pc <;> first | rfl | exact h.elim

/-- The three ways into a per-core array, and what makes each of them safe. -/
theorem Pc.mutatesArray_cases {pc : Pc} {w region core : Nat}
    (h : pc.mutatesArray w = some (region, core)) :
    (core = w ∧ pc.zone.region = some (some region) ∧ pc.zone.opened = some true) ∨
    (pc.zone.opened = some false ∧ pc.zone.region = some (some region) ∧
      pc.zone.holdsRow = true) ∨ pc.zone.taken = some region := by
  cases pc <;> simp only [mutatesArray, reduceCtorEq] at h
  case poppingLatest =>
    cases h
    exact Or.inr (Or.inl ⟨rfl, rfl, rfl⟩)
  case lockedAppend | append =>
    split at h
    · cases h
      exact Or.inl ⟨rfl, rfl, rfl⟩
    · cases h
  case migrateAppend =>
    split at h
    · cases h
      exact Or.inr (Or.inr rfl)
    · cases h

/-- Worker `w` is inside a mutation of the row's `global_array_`. -/
def InGlobal (s : State Key) (k : Key) (w : Nat) : Prop :=
  ∃ c rest, (s.workers w).todo = c :: rest ∧ c.index = k ∧ (s.workers w).pc.mutatesGlobal

/-- Worker `w` is inside a mutation of the per-core array of a core in a region. -/
def InArray (s : State Key) (region core w : Nat) : Prop :=
  ∃ c rest, (s.workers w).todo = c :: rest ∧
    (s.workers w).pc.mutatesArray w = some (region, core)

/-- Appends without the lock exclude each other, migrations and pops. -/
theorem mutations_exclusive {s : State Key} (h : Reachable wl numRegions s) :
    (∀ k w w', InGlobal s k w → InGlobal s k w' → w = w') ∧
      ∀ region core w w', InArray s region core w → InArray s region core w' → w = w' := by
  have hi := h.inv
  constructor
  · rintro k w w' ⟨c, rest, htodo, rfl, hm⟩ ⟨c', rest', htodo', hk, hm'⟩
    have hz' := zone_of_todo htodo'
    rw [hk] at hz'
    exact (hi.rowLock c.index).unique ⟨_, zone_of_todo htodo, Pc.mutatesGlobal_locked hm⟩
      ⟨_, hz', Pc.mutatesGlobal_locked hm'⟩
  · rintro region core w w' ⟨c, rest, htodo, hm⟩ ⟨c', rest', htodo', hm'⟩
    have hz := zone_of_todo htodo
    have hz' := zone_of_todo htodo'
    have hk := hi.knows w _ _ hz
    have hk' := hi.knows w' _ _ hz'
    rcases Pc.mutatesArray_cases hm with ⟨hc, hr, ho⟩ | ⟨ho, hr, hh⟩ | ht <;>
      rcases Pc.mutatesArray_cases hm' with ⟨hc', hr', ho'⟩ | ⟨ho', hr', hh'⟩ | ht'
    -- both append to their own core's array
    · exact hc.symm.trans hc'
    -- an append needs the row opened, a pop needs it not opened
    · have hrow := hi.distinct _ _ region (hk.region _ hr) (hk'.region _ hr')
      have h₁ := hk.after ho
      have h₂ := hk'.before ho'
      rw [hrow] at h₁
      omega
    -- a region being filled is no row's region yet
    · exact absurd (hk.region _ hr) ((hi.taken w' _ _ region hz' ht').2 _)
    · have hrow := hi.distinct _ _ region (hk.region _ hr) (hk'.region _ hr')
      have h₁ := hk.before ho
      have h₂ := hk'.after ho'
      rw [hrow] at h₁
      omega
    -- both pop under the lock of the same row
    · have hrow := hi.distinct _ _ region (hk.region _ hr) (hk'.region _ hr')
      rw [← hrow] at hz'
      exact (hi.rowLock _).unique ⟨_, hz, hh⟩ ⟨_, hz', hh'⟩
    · exact absurd (hk.region _ hr) ((hi.taken w' _ _ region hz' ht').2 _)
    · exact absurd (hk'.region _ hr') ((hi.taken w _ _ region hz ht).2 _)
    · exact absurd (hk'.region _ hr') ((hi.taken w _ _ region hz ht).2 _)
    -- the pool hands a region to one worker
    · exact hi.unique w w' _ _ _ _ region hz hz' ht ht'

end System

/-- Worker 0 pops the loaded row's final state while worker 1 waits at the guard; and worker 1
moves worker 0's version to its array while worker 0 waits to append the next. -/
theorem contended_mutations_exclusive :
    (∃ s : State Unit, Reachable writeAcross 1 s ∧ (s.workers 1).pc = .guardTryLock ∧
      InGlobal s () 0 ∧ ∀ w, InGlobal s () w → w = 0) ∧
    (∃ s : State Unit, Reachable writeAcross 1 s ∧ (s.workers 0).pc = .waitTryLock ∧
      InArray s 0 0 1 ∧ ∀ w, InArray s 0 0 w → w = 1) := by
  have hstart : Reachable writeAcross 1 (initial writeAcross) := .start rfl
  constructor
  · have hrun : ((system writeAcross 1).run (List.replicate 5 (.worker 0) ++ [.worker 1])
        (initial writeAcross)).map
        (fun s => ((s.workers 1).pc, (s.workers 0).todo.head?, (s.workers 0).pc)) =
          some (.guardTryLock, some ⟨0, ⟨.update, ()⟩⟩, .poppingGlobal) := by decide +kernel
    obtain ⟨s, hs, hx⟩ := hstart.of_run_map hrun
    simp only [Prod.mk.injEq, List.head?_eq_some_iff] at hx
    obtain ⟨hpc, ⟨rest, htodo⟩, hpop⟩ := hx
    have hin : InGlobal s () 0 := ⟨_, rest, htodo, rfl, by rw [hpop]; trivial⟩
    exact ⟨s, hs, hpc, hin, fun w hw => (mutations_exclusive hs).1 () w 0 hw hin⟩
  · have hrun : ((system writeAcross 1).run (List.replicate 12 (.worker 0) ++
        List.replicate 3 (.worker 1) ++ List.replicate 4 (.worker 0) ++
          List.replicate 13 (.worker 1) ++ List.replicate 4 (.worker 0)) (initial writeAcross)).map
        (fun s => ((s.workers 0).pc, (s.workers 1).todo.head?, (s.workers 1).pc)) =
          some (.waitTryLock, some ⟨64, ⟨.update, ()⟩⟩, .migrateAppend 0 (0, 2) [] .inserting) := by
      decide +kernel
    obtain ⟨s, hs, hx⟩ := hstart.of_run_map hrun
    simp only [Prod.mk.injEq, List.head?_eq_some_iff] at hx
    obtain ⟨hpc, ⟨rest, htodo⟩, hmove⟩ := hx
    have hin : InArray s 0 0 1 := ⟨_, rest, htodo, by rw [hmove]; rfl⟩
    exact ⟨s, hs, hpc, hin, fun w hw => (mutations_exclusive hs).2 0 0 w 1 hw hin⟩

end Mvdcc.Serval.Accesses
