import Mvdcc.Library.Transition

namespace Mvdcc.Library

section Simulation
variable {σ : Type u} {ι : Type v} {τ : Type w} {κ : Type x} {α : Type y}
variable {sys : TransitionSystem σ ι} {sys' : TransitionSystem τ κ}
variable {event : ι → σ → List α} {event' : κ → τ → List α}

/-- Every step of the one system is a step of the other with the same events, or leaves
the other where it is and has none. -/
def Simulates (sys : TransitionSystem σ ι) (sys' : TransitionSystem τ κ)
    (event : ι → σ → List α) (event' : κ → τ → List α) (inv : σ → Prop) (abs : σ → τ) : Prop :=
  ∀ i s s', inv s → sys.step i s = some s' →
    (abs s' = abs s ∧ event i s = []) ∨
      ∃ j, sys'.step j (abs s) = some (abs s') ∧ event i s = event' j (abs s)

/-- A simulation takes what is reached to what is reached. -/
theorem Simulates.reachable {inv : σ → Prop} {abs : σ → τ} {s₀ s : σ}
    (h : Simulates sys sys' event event' inv abs)
    (hi : ∀ s, sys.Reachable (· = s₀) s → inv s) (hr : sys.Reachable (· = s₀) s) :
    sys'.Reachable (· = abs s₀) (abs s) := by
  induction hr with
  | start hs => exact .start (congrArg abs hs)
  | @next s s' i hs hstep ih =>
    rcases h i s s' (hi s hs) hstep with ⟨habs, _⟩ | ⟨j, hj, _⟩
    · exact habs ▸ ih
    · exact .next j ih hj

/-- A run with a log is a run. -/
theorem TransitionSystem.Reachable.unlogged {x₀ x : σ × List α}
    (h : (sys.logged event).Reachable (· = x₀) x) : sys.Reachable (· = x₀.1) x.1 := by
  induction h with
  | start hx => exact .start (congrArg Prod.fst hx)
  | next i _ hstep ih => exact .next i ih (logged_step hstep).1

/-- A simulation takes runs to runs with the same log. -/
theorem Simulates.logged {inv : σ → Prop} {abs : σ → τ} {s₀ s : σ} {log : List α}
    (h : Simulates sys sys' event event' inv abs)
    (hi : ∀ s, sys.Reachable (· = s₀) s → inv s)
    (hr : (sys.logged event).Reachable (· = (s₀, [])) (s, log)) :
    (sys'.logged event').Reachable (· = (abs s₀, [])) (abs s, log) := by
  suffices hx : ∀ x, (sys.logged event).Reachable (· = (s₀, [])) x →
      (sys'.logged event').Reachable (· = (abs s₀, [])) (abs x.1, x.2) from hx _ hr
  intro x hx
  induction hx with
  | start hx =>
    subst hx
    exact .start rfl
  | @next x y i hx hstep ih =>
    obtain ⟨hs, he⟩ := TransitionSystem.logged_step hstep
    rcases h i x.1 y.1 (hi x.1 hx.unlogged) hs with ⟨habs, hnil⟩ | ⟨j, hj, hev⟩
    · rw [habs, he, hnil, List.append_nil]
      exact ih
    · refine .next j ih ?_
      simp only [TransitionSystem.logged, hj, Option.map_some, he, hev]

end Simulation

section Completion
variable {σ : Type u} {ι : Type v} {α : Type w} {β : Type x} {sys : TransitionSystem σ ι}

/-- Where every state of a kind that is short of the goal has a step that stays within the
kind and gets nearer, the goal can be reached. -/
theorem TransitionSystem.exists_reachable (sys : TransitionSystem σ ι) (kind goal : σ → Prop)
    {r : α → α → Prop} (hr : WellFounded r) (distance : σ → α)
    (h : ∀ s, kind s → ¬ goal s →
      ∃ i s', sys.step i s = some s' ∧ kind s' ∧ r (distance s') (distance s))
    {s : σ} (hs : kind s) : ∃ t, sys.Reachable (· = s) t ∧ kind t ∧ goal t := by
  generalize hd : distance s = d
  induction d using hr.induction generalizing s with
  | _ d ih =>
    subst hd
    by_cases hg : goal s
    · exact ⟨s, .start rfl, hs, hg⟩
    · obtain ⟨i, s', hstep, hkind, hlt⟩ := h s hs hg
      obtain ⟨t, ht, hgoal⟩ := ih _ hlt hkind rfl
      have hnext : sys.Reachable (· = s) s' := .next i (.start rfl) hstep
      exact ⟨t, hnext.trans ht, hgoal⟩

/-- So it can from every reachable state, where every reachable one has such a step. -/
theorem TransitionSystem.Reachable.completes {initial goal : σ → Prop} {r : α → α → Prop}
    (hr : WellFounded r) (distance : σ → α)
    (h : ∀ s, sys.Reachable initial s → ¬ goal s →
      ∃ i s', sys.step i s = some s' ∧ r (distance s') (distance s))
    {s : σ} (hs : sys.Reachable initial s) : ∃ t, sys.Reachable (· = s) t ∧ goal t := by
  have hnear : ∀ s, sys.Reachable initial s → ¬ goal s →
      ∃ i s', sys.step i s = some s' ∧ sys.Reachable initial s' ∧ r (distance s') (distance s) := by
    intro s hs hn
    obtain ⟨i, s', hstep, hlt⟩ := h s hs hn
    exact ⟨i, s', hstep, hs.next i hstep, hlt⟩
  obtain ⟨t, ht, _, hgoal⟩ := sys.exists_reachable _ goal hr distance hnear hs
  exact ⟨t, ht, hgoal⟩

/-- A run goes on with its log. -/
theorem TransitionSystem.Reachable.logs {event : ι → σ → List β} {s t : σ}
    (h : sys.Reachable (· = s) t) (log : List β) :
    ∃ more, (sys.logged event).Reachable (· = (s, log)) (t, log ++ more) := by
  induction h with
  | start he => exact ⟨[], .start (by rw [he, List.append_nil])⟩
  | @next t t' i _ hstep ih =>
    obtain ⟨more, hmore⟩ := ih
    refine ⟨more ++ event i t, .next i hmore ?_⟩
    simp only [TransitionSystem.logged, hstep, Option.map_some, List.append_assoc]

end Completion
end Mvdcc.Library
