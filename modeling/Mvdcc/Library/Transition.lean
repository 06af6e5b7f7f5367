import Mathlib.Logic.Function.Basic

namespace Mvdcc.Library

/-- A system whose only freedom is the choice handed to a partial step function. -/
structure TransitionSystem (σ : Type u) (ι : Type v) where
  step : ι → σ → Option σ

namespace TransitionSystem
variable {σ : Type u} {ι : Type v} (sys : TransitionSystem σ ι)

/-- States reached from an initial state by any finite sequence of choices. -/
inductive Reachable (initial : σ → Prop) : σ → Prop
  | start : initial s → Reachable initial s
  | next (i : ι) : Reachable initial s → sys.step i s = some s' → Reachable initial s'

/-- Run a fixed schedule; a refused choice stops the whole schedule. -/
def run : List ι → σ → Option σ
  | [], s => some s
  | i :: is, s => (sys.step i s).bind (run is)

variable {sys}

/-- What holds initially and survives one step holds in every reachable state. -/
theorem Reachable.invariant {initial inv : σ → Prop} (h : sys.Reachable initial s)
    (hi : ∀ s, initial s → inv s)
    (hs : ∀ i s s', inv s → sys.step i s = some s' → inv s') : inv s := by
  induction h with
  | start h => exact hi _ h
  | next i _ hstep ih => exact hs i _ _ ih hstep

/-- The same rule when the step may also use that its source is reachable. -/
theorem Reachable.invariantOf {initial inv : σ → Prop} (h : sys.Reachable initial s)
    (hi : ∀ s, initial s → inv s)
    (hs : ∀ i s s', sys.Reachable initial s → inv s → sys.step i s = some s' → inv s') :
    inv s := by
  induction h with
  | start h => exact hi _ h
  | next i hr hstep ih => exact hs i _ _ hr ih hstep

/-- A reachable start makes everything reached from it reachable. -/
theorem Reachable.trans {initial : σ → Prop} (h : sys.Reachable initial s)
    (ht : sys.Reachable (· = s) t) : sys.Reachable initial t := by
  induction ht with
  | start he => exact he ▸ h
  | next i _ hstep ih => exact .next i ih hstep

/-- A schedule that is accepted from a reachable state ends in a reachable state. -/
theorem Reachable.run {initial : σ → Prop} {is : List ι} (h : sys.Reachable initial s)
    (hr : sys.run is s = some t) : sys.Reachable initial t := by
  induction is generalizing s with
  | nil =>
    simp only [TransitionSystem.run, Option.some.injEq] at hr
    exact hr ▸ h
  | cons i is ih =>
    obtain ⟨u, hu, ht⟩ := Option.bind_eq_some_iff.mp hr
    exact ih (.next i h hu) ht

/-- What a schedule is seen to end in, some reachable state shows. -/
theorem Reachable.of_run_map {initial : σ → Prop} {is : List ι} {f : σ → α} {a : α}
    (h : sys.Reachable initial s) (hr : (sys.run is s).map f = some a) :
    ∃ t, sys.Reachable initial t ∧ f t = a := by
  obtain ⟨t, ht, hf⟩ := Option.map_eq_some_iff.mp hr
  exact ⟨t, h.run ht, hf⟩

/-- The step of choice `i` from `u` to `u'` is one of the run over `is` from `s`. -/
def Takes (sys : TransitionSystem σ ι) (is : List ι) (s u : σ) (i : ι) (u' : σ) : Prop :=
  ∃ before after, is = before ++ i :: after ∧ sys.run before s = some u ∧ sys.step i u = some u'

section Takes
variable {is before : List ι} {s t u u' : σ} {i j : ι}

theorem run_append (before after : List ι) (s : σ) :
    sys.run (before ++ after) s = (sys.run before s).bind (sys.run after) := by
  induction before generalizing s with
  | nil => rfl
  | cons i before ih =>
    simp only [List.cons_append, run]
    cases sys.step i s with
    | none => rfl
    | some u => exact ih u

theorem Takes.step (h : sys.Takes is s u i u') : sys.step i u = some u' := by
  obtain ⟨_, _, _, _, hstep⟩ := h
  exact hstep

/-- The first step of a run, or one of the rest. -/
theorem Takes.cons (h : sys.Takes (j :: is) s u i u') :
    (u = s ∧ i = j) ∨ ∃ v, sys.step j s = some v ∧ sys.Takes is v u i u' := by
  obtain ⟨before, after, hlist, hu, hstep⟩ := h
  cases before with
  | nil =>
    obtain ⟨rfl, rfl⟩ := List.cons.inj hlist
    exact Or.inl ⟨(Option.some.inj hu).symm, rfl⟩
  | cons k before =>
    obtain ⟨rfl, rfl⟩ := List.cons.inj hlist
    obtain ⟨v, hv, hrest⟩ := Option.bind_eq_some_iff.mp hu
    exact Or.inr ⟨v, hv, before, after, rfl, hrest, hstep⟩

/-- A step's source is reached, and the rest of the run starts where it ends. -/
theorem Takes.split (h : sys.Takes is s u i u') (hr : sys.run is s = some t) :
    sys.Reachable (· = s) u ∧ sys.Reachable (· = u') t := by
  obtain ⟨before, after, rfl, hu, hstep⟩ := h
  have hstart : sys.Reachable (· = s) s := .start rfl
  have hend : sys.Reachable (· = u') u' := .start rfl
  rw [run_append, hu] at hr
  simp only [Option.bind_some, run, hstep] at hr
  exact ⟨hstart.run hu, hend.run hr⟩

/-- What is false at the start of a run and true at its end becomes true in one of its steps. -/
theorem exists_takes (p : σ → Prop) (h : sys.run is s = some t) (hs : ¬ p s) (ht : p t) :
    ∃ u i u', sys.Takes is s u i u' ∧ ¬ p u ∧ p u' := by
  induction is generalizing s with
  | nil =>
    simp only [run, Option.some.injEq] at h
    exact absurd (h ▸ ht) hs
  | cons i is ih =>
    obtain ⟨v, hv, hrest⟩ := Option.bind_eq_some_iff.mp h
    by_cases hp : p v
    · exact ⟨s, i, v, ⟨[], is, rfl, rfl, hv⟩, hs, hp⟩
    · obtain ⟨u, j, u', ⟨before, after, rfl, hu, hstep⟩, hn, hp'⟩ := ih hrest hp
      refine ⟨u, j, u', ⟨i :: before, after, rfl, ?_, hstep⟩, hn, hp'⟩
      simp only [run, hv, Option.bind_some, hu]

end Takes

/-- The same system, with a log of the events of its steps. -/
def logged (sys : TransitionSystem σ ι) (event : ι → σ → List α) :
    TransitionSystem (σ × List α) ι :=
  ⟨fun i x => (sys.step i x.1).map (fun s => (s, x.2 ++ event i x.1))⟩

section Logged
variable {event : ι → σ → List α}

/-- A step with a log is a step that logs its events. -/
theorem logged_step {i : ι} {x y : σ × List α} (h : (sys.logged event).step i x = some y) :
    sys.step i x.1 = some y.1 ∧ y.2 = x.2 ++ event i x.1 := by
  obtain ⟨s, hs, rfl⟩ := Option.map_eq_some_iff.mp h
  exact ⟨hs, rfl⟩

end Logged
end TransitionSystem
end Mvdcc.Library
