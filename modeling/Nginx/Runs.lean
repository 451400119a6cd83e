import Mathlib.Tactic.SplitIfs

/-!
# Runs on given steps

A run that can be evaluated reaches its last state by steps that all pass a check. What
such steps keep holds there.
-/

set_option autoImplicit false

namespace Nginx.Runs

variable {State Step : Type} (step : State → Step → Option State) (check : State → Step → Bool)

/-- The state behind the steps, where each can be taken and passes the check. -/
@[grind =] def run : State → List Step → Option State
  | s, [] => some s
  | s, a::as => if check s a then (step s a).bind (fun t => run t as) else none

variable (P : State → Prop)
  (hstep : ∀ s a t, P s → check s a = true → step s a = some t → P t)
include hstep

theorem run_keeps (as : List Step) (s t : State) (hs : P s) (hrun : run step check s as = some t) :
    P t := by
  induction as generalizing s with
  | nil =>
    cases hrun
    exact hs
  | cons a as ih =>
    rw [run] at hrun
    split_ifs at hrun with hcheck
    obtain ⟨u,hu,hrun⟩ := Option.bind_eq_some_iff.mp hrun
    exact ih u (hstep s a u hs hcheck hu) hrun

/-- The last state of a run is one that the steps lead to, and what it is asked for is so. -/
theorem run_reaches (as : List Step) (s : State) (hs : P s) (last : State → Bool)
    (h : (run step check s as).any last = true) : ∃ t, P t ∧ last t = true := by
  cases hrun : run step check s as with
  | none =>
    rw [hrun] at h
    cases h
  | some t =>
    rw [hrun] at h
    exact ⟨t,run_keeps step check P hstep as s t hs hrun,h⟩

end Nginx.Runs
