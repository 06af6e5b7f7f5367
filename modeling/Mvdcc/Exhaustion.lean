import Mvdcc.Caracal.Exhaustion
import Mvdcc.Serval.Exhaustion

namespace Mvdcc
open Library

/-- In both protocols a run leaves nothing locked or half changed behind the calls that threw
exactly when its pool never ran out. What a row holds is kept in either case, but behind a call
that threw no other can fetch. -/
theorem exhaustion_clean_iff {Key : Type u} [DecidableEq Key] (wl : Workload Key)
    (numRegions : Nat) (cfg : Caracal.Config) (prog : Caracal.Program Key) :
    (∀ is start s, Serval.Accesses.Quiet numRegions start →
      (Serval.Accesses.throwingSystem wl numRegions).run is start = some s →
        ((∀ w, s.thrown w = true → Serval.Accesses.CleanThrow wl numRegions is start s w) ↔
          Serval.Accesses.RoomAtFetches wl numRegions is start) ∧
        Serval.Accesses.KeepsRows wl numRegions is start ∧
        Serval.Accesses.Starves wl numRegions s) ∧
    (∀ is start s, Caracal.Quiet cfg start → (Caracal.system cfg prog).run is start = some s →
      ((∀ w, s.Thrown w → Caracal.CleanThrow cfg prog is start s w) ↔
        Caracal.RoomAtFetches cfg prog is start) ∧
      Caracal.KeepsRows cfg prog is start ∧ Caracal.Starves cfg prog s) := by
  constructor
  · intro is start s hquiet hrun
    have hstart : (Serval.Accesses.throwingSystem wl numRegions).Reachable (· = start) start :=
      .start rfl
    exact ⟨Serval.Accesses.clean_iff hquiet hrun, hquiet.keepsRows hrun,
      hquiet.starves (hstart.run hrun)⟩
  · intro is start s hquiet hrun
    have hstart : (Caracal.system cfg prog).Reachable (· = start) start := .start rfl
    exact ⟨Caracal.clean_iff hquiet hrun, hquiet.keepsRows hrun, hquiet.starves (hstart.run hrun)⟩

/-- A run that takes the last region or buffer finds room at every fetch. -/
theorem last_region_found :
    (∃ is s, Serval.Accesses.Quiet 10000 (Serval.Accesses.poolInUse 9999) ∧
      (Serval.Accesses.throwingSystem Serval.Accesses.noTransactions 10000).run is
        (Serval.Accesses.poolInUse 9999) = some s ∧
      (s.rows 0).value.rowRegion = some 9999 ∧
      Serval.Accesses.RoomAtFetches Serval.Accesses.noTransactions 10000 is
        (Serval.Accesses.poolInUse 9999)) ∧
    (∃ is s, Caracal.Quiet ⟨2, 4, 10000, true⟩ (Caracal.poolInUse 9999) ∧
      (Caracal.system ⟨2, 4, 10000, true⟩ Caracal.twoWrites).run is (Caracal.poolInUse 9999) =
        some s ∧
      (s.rows 0).rowBuffer = some 9999 ∧
      Caracal.RoomAtFetches ⟨2, 4, 10000, true⟩ Caracal.twoWrites is (Caracal.poolInUse 9999)) := by
  have hboth := exhaustion_clean_iff Serval.Accesses.noTransactions 10000 ⟨2, 4, 10000, true⟩
    Caracal.twoWrites
  constructor
  · obtain ⟨s, hrun, hregion, hnone⟩ := Serval.Accesses.crowding_returns
    have hquiet := Serval.Accesses.poolInUse_quiet (show 9999 ≤ 10000 by decide)
    have hclean := (hboth.1 _ _ s hquiet hrun).1
    exact ⟨_, s, hquiet, hrun, hregion,
      hclean.mp (fun w hw => absurd hw (Bool.eq_false_iff.mp (hnone w)))⟩
  · obtain ⟨s, hrun, hbuffer, hnone⟩ := Caracal.crowding_returns
    have hquiet := Caracal.poolInUse_quiet (show 9999 ≤ 10000 by decide)
    have hclean := (hboth.2 _ _ s hquiet hrun).1
    exact ⟨_, s, hquiet, hrun, hbuffer, hclean.mp (fun w hw => absurd hw (hnone w))⟩

/-- With all 10000 regions or buffers in use, the second writer of a crowded row throws and
leaves the pool locked, and in Serval the row too. -/
theorem full_pool_stays_locked :
    (∃ s, Serval.Accesses.Quiet 10000 Serval.Accesses.fullPool ∧
      (Serval.Accesses.throwingSystem Serval.Accesses.noTransactions 10000).run Serval.Accesses.crowding
        Serval.Accesses.fullPool = some s ∧
      s.thrown 1 = true ∧ s.controller.lock.cnt = -1 ∧ (s.rows 0).value.rwl.cnt = -1 ∧
      ¬ Serval.Accesses.CleanThrow Serval.Accesses.noTransactions 10000 Serval.Accesses.crowding
        Serval.Accesses.fullPool s 1) ∧
    (∃ s, Caracal.Quiet ⟨2, 4, 10000, true⟩ Caracal.fullPool ∧
      (Caracal.system ⟨2, 4, 10000, true⟩ Caracal.twoWrites).run Caracal.crowding
        Caracal.fullPool = some s ∧
      s.Thrown 1 ∧ s.controller.lock.cnt = -1 ∧
      ¬ Caracal.CleanThrow ⟨2, 4, 10000, true⟩ Caracal.twoWrites Caracal.crowding
        Caracal.fullPool s 1) := by
  constructor
  · obtain ⟨s, hrun, hs⟩ := Serval.Accesses.crowding_throws
    exact ⟨s, Serval.Accesses.fullPool_quiet, hrun, hs⟩
  · obtain ⟨s, hrun, hs⟩ := Caracal.crowding_throws
    exact ⟨s, Caracal.fullPool_quiet, hrun, hs⟩

end Mvdcc
