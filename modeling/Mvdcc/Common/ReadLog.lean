import Mvdcc.Common.SerialExecution
import Mvdcc.Common.Workers

namespace Mvdcc
open Library

section ReadLog
variable {Key : Type u} {wl : Workload Key} {e : Nat} {ended ended' : Call Key → Prop}
variable {log : List (Reading Key)} {c : Call Key} {r : Option Rec}

/-- The log of a run: every read of the epochs before, and of this epoch the reads
whose calls have ended, each of them once. -/
structure LogsReads (wl : Workload Key) (e : Nat) (ended : Call Key → Prop)
    (log : List (Reading Key)) : Prop where
  once : (log.map Reading.tag).Nodup
  made : ∀ e' c, (e', c) ∈ log.map Reading.tag ↔ 1 ≤ e' ∧ c.serial < numTxsInOneEpoch ∧
    c.operation ∈ wl.rSet e' c.serial ∧ (e' < e ∨ (e' = e ∧ ended c))

/-- Every read has returned the answer that is given to its call. -/
def Answers (answers : Nat → Call Key → Rec) (log : List (Reading Key)) : Prop :=
  ∀ y ∈ log, y.record.map Rec.content = some (answers y.epoch y.call)

theorem Answers.append {answers : Nat → Call Key → Rec} {log' : List (Reading Key)}
    (h : Answers answers log) (h' : Answers answers log') : Answers answers (log ++ log') :=
  fun y hy => (List.mem_append.mp hy).elim (h y) (h' y)

namespace LogsReads

theorem start : LogsReads wl 1 (fun _ => False) [] := by
  refine ⟨List.nodup_nil, fun e' c => ⟨by simp, ?_⟩⟩
  rintro ⟨h1, _, _, hlt | ⟨_, hover⟩⟩
  · omega
  · exact hover.elim

/-- Nothing is logged while no call of a read begins or ends. -/
theorem congr (h : LogsReads wl e ended log) (ho : ∀ c, c.serial < numTxsInOneEpoch →
    c.operation ∈ wl.rSet e c.serial → (ended' c ↔ ended c)) : LogsReads wl e ended' log := by
  refine ⟨h.once, fun e' c => (h.made e' c).trans ?_⟩
  refine and_congr_right (fun _ => and_congr_right (fun hs => and_congr_right (fun hop => ?_)))
  refine or_congr_right (and_congr_right ?_)
  rintro rfl
  exact (ho c hs hop).symm

/-- A read returns. -/
theorem append (h : LogsReads wl e ended log) (he : 1 ≤ e) (hs : c.serial < numTxsInOneEpoch)
    (hop : c.operation ∈ wl.rSet e c.serial) (hc : ¬ ended c)
    (ho : ∀ c', ended' c' ↔ c' = c ∨ ended c') : LogsReads wl e ended' (log ++ [⟨e, c, r⟩]) := by
  constructor
  · rw [List.map_append, List.map_singleton]
    refine h.once.append (List.nodup_singleton _) (List.disjoint_singleton.mpr fun hm => ?_)
    obtain ⟨_, _, _, hlt | ⟨_, hover⟩⟩ := (h.made e c).mp hm
    · exact Nat.lt_irrefl _ hlt
    · exact hc hover
  · intro e' c'
    rw [List.map_append, List.mem_append, h.made, List.map_singleton, List.mem_singleton, ho]
    constructor
    · rintro (⟨h1, hs', hop', hlt | ⟨heq, hover⟩⟩ | heq)
      · exact ⟨h1, hs', hop', Or.inl hlt⟩
      · exact ⟨h1, hs', hop', Or.inr ⟨heq, Or.inr hover⟩⟩
      · obtain ⟨rfl, rfl⟩ := Prod.mk.inj heq
        exact ⟨he, hs, hop, Or.inr ⟨rfl, Or.inl rfl⟩⟩
    · rintro ⟨h1, hs', hop', hlt | ⟨rfl, rfl | hover⟩⟩
      · exact Or.inl ⟨h1, hs', hop', Or.inl hlt⟩
      · exact Or.inr rfl
      · exact Or.inl ⟨h1, hs', hop', Or.inr ⟨rfl, hover⟩⟩

/-- An epoch whose reads are over is one of the epochs before. -/
theorem close (h : LogsReads wl e ended log) (ho : ∀ c, c.serial < numTxsInOneEpoch →
    c.operation ∈ wl.rSet e c.serial → ended c) : LogsReads wl (e + 1) (fun _ => False) log := by
  refine ⟨h.once, fun e' c => (h.made e' c).trans ?_⟩
  refine and_congr_right (fun _ => and_congr_right (fun hs => and_congr_right (fun hop => ?_)))
  rw [and_false, or_false, Nat.lt_succ_iff_lt_or_eq]
  refine or_congr_right (and_iff_left_of_imp ?_)
  rintro rfl
  exact ho c hs hop

variable [DecidableEq Key] {answers : Nat → Call Key → Rec}

/-- The calls of the log are calls of the serial execution. -/
theorem subperm (h : LogsReads wl e ended log) (ha : Answers answers log) :
    (log.map Reading.content).Subperm
      ((wl.serialReadings (e * numTxsInOneEpoch)).map (Reading.answer answers)) := by
  have hn : (log.map Reading.content).Nodup := by
    refine List.Nodup.of_map Reading.tag ?_
    rw [List.map_map]
    exact h.once
  refine hn.subperm (fun y hy => ?_)
  obtain ⟨z, hz, rfl⟩ := List.mem_map.mp hy
  obtain ⟨h1, hs, hop, hle⟩ := (h.made z.epoch z.call).mp (List.mem_map_of_mem hz)
  refine List.mem_map.mpr ⟨⟨z.epoch, z.call, some (wl.serially z.epoch z.call)⟩, ?_, ?_⟩
  · refine wl.mem_serialReadings.mpr ⟨⟨h1, ?_⟩, hs, hop, rfl⟩
    change z.epoch ≤ e
    omega
  · unfold Reading.answer Reading.content
    rw [ha z hz]

/-- When the epoch is over, the log has them all. -/
theorem perm (h : LogsReads wl e ended log) (ha : Answers answers log)
    (ho : ∀ c, c.serial < numTxsInOneEpoch → c.operation ∈ wl.rSet e c.serial → ended c) :
    (log.map Reading.content).Perm
      ((wl.serialReadings (e * numTxsInOneEpoch)).map (Reading.answer answers)) := by
  refine (h.subperm ha).perm_of_length_le ?_
  rw [List.length_map, List.length_map]
  have htags : ((wl.serialReadings (e * numTxsInOneEpoch)).map Reading.tag).Subperm
      (log.map Reading.tag) := by
    refine (wl.serialReadings_tags _).subperm (fun t ht => ?_)
    obtain ⟨y, hy, rfl⟩ := List.mem_map.mp ht
    obtain ⟨⟨h1, hle⟩, hs, hop, _⟩ := wl.mem_serialReadings.mp hy
    refine (h.made _ _).mpr ⟨h1, hs, hop, ?_⟩
    rcases Nat.lt_or_eq_of_le hle with hlt | heq
    · exact Or.inl hlt
    · exact Or.inr ⟨heq, ho _ hs (heq ▸ hop)⟩
  have hlength := htags.length_le
  rwa [List.length_map, List.length_map] at hlength

end LogsReads

section Workers
variable {Pc : Type v} {start done : Pc} {owner : Nat → Nat} {program : Nat → List (Call Key)}
variable {workers : Nat → Thread (Call Key) Pc} {returned : Pc → Option (Option Rec)}
variable {w : Nat} {rest : List (Call Key)} {pc : Pc}

/-- What a worker's step adds to the log: the reading of a call that returns. -/
def readingOf (returned : Pc → Option (Option Rec)) (e : Nat) (t : Thread (Call Key) Pc) :
    List (Reading Key) :=
  match t.todo with
  | [] => []
  | c :: _ => (returned t.pc).toList.map (Reading.mk e c)

theorem readingOf_head (htodo : (workers w).todo = c :: rest) : readingOf returned e (workers w) =
    (returned (workers w).pc).toList.map (Reading.mk e c) := by
  unfold readingOf
  rw [htodo]

theorem mem_readingOf {t : Thread (Call Key) Pc} {y : Reading Key} :
    y ∈ readingOf returned e t ↔
      ∃ c rest r, t.todo = c :: rest ∧ returned t.pc = some r ∧ y = ⟨e, c, r⟩ := by
  unfold readingOf
  cases ht : t.todo with
  | nil => simp
  | cons c rest => simp [eq_comm]

variable [DecidableEq Key]

/-- A step inside a call logs the reading when the call ends, and nothing else. -/
theorem LogsReads.advance (h : LogsReads wl e (fun c => view start done owner workers c = done) log)
    (ha : Assignment owner program) (hr : Remaining program workers)
    (htodo : (workers w).todo = c :: rest) (hd : (workers w).pc ≠ done) (he : 1 ≤ e)
    (hs : c.serial < numTxsInOneEpoch) (hop : c.operation ∈ wl.rwSet e c.serial)
    (hread : (returned (workers w).pc).isSome → c.operation.ope = .read)
    (hpc : c.operation.ope = .read → (pc = done ↔ (returned (workers w).pc).isSome)) :
    LogsReads wl e
      (fun c => view start done owner (Function.update workers w { workers w with pc }) c = done)
      (log ++ readingOf returned e (workers w)) := by
  have hhead : view start done owner workers c = (workers w).pc := view_head ha hr htodo
  rw [view_advance ha hr htodo pc, readingOf_head htodo]
  cases hret : returned (workers w).pc with
  | none =>
    rw [Option.toList_none, List.map_nil, List.append_nil]
    refine h.congr (fun c' _ hop' => ?_)
    by_cases hc : c' = c
    · subst hc
      have hne : pc ≠ done := by
        intro hp
        have hsome := (hpc (wl.mem_rSet.mp hop').2).mp hp
        rw [hret] at hsome
        cases hsome
      rw [Function.update_self, hhead]
      exact iff_of_false hne hd
    · rw [Function.update_of_ne hc]
  | some r =>
    have hope := hread (by rw [hret]; rfl)
    have hdone : pc = done := (hpc hope).mpr (by rw [hret]; rfl)
    refine h.append he hs (wl.mem_rSet.mpr ⟨hop, hope⟩) (hhead ▸ hd) (fun c' => ?_)
    by_cases hc : c' = c
    · subst hc
      rw [Function.update_self]
      exact iff_of_true hdone (Or.inl rfl)
    · rw [Function.update_of_ne hc]
      exact (or_iff_right hc).symm

end Workers
end ReadLog
end Mvdcc
