import Mathlib.Data.List.Basic
import Mathlib.Algebra.Order.Ring.Int

/-!
# Machines that can be resumed

A machine takes one item after another, at positions that count up, and stops or wants more. What
it does with two lists is what it does with the first and then, if it wants more, with the second.
A machine that goes on after some stops of another one is nested around it.
-/

set_option autoImplicit false

namespace Nginx.Resumable

variable {β σ ρ κ τ : Type}

inductive Outcome (σ ρ : Type) where
  | more (s : σ)
  | stop (p : ℕ) (r : ρ)

def Outcome.bind (o : Outcome σ ρ) (f : σ → Outcome σ ρ) : Outcome σ ρ :=
  match o with
  | .more s => f s
  | .stop p r => .stop p r

@[grind =] def run (step : ℕ → β → σ → σ ⊕ ρ) : ℕ → List β → σ → Outcome σ ρ
  | _, [], s => .more s
  | p, x::xs, s =>
    match step p x s with
    | .inl s => run step (p+1) xs s
    | .inr r => .stop p r

section Runs

variable {step : ℕ → β → σ → σ ⊕ ρ} {p q : ℕ} {x : β} {xs : List β} {s s' : σ} {r : ρ}

theorem run_next (h : step p x s = .inl s') : run step p (x::xs) s = run step (p+1) xs s' := by
  rw [run, h]

theorem run_stop (h : step p x s = .inr r) : run step p (x::xs) s = .stop p r := by
  rw [run, h]

theorem run_append (step : ℕ → β → σ → σ ⊕ ρ) (p : ℕ) (xs ys : List β) (s : σ) :
    run step p (xs++ys) s = (run step p xs s).bind (run step (p+xs.length) ys) := by
  induction xs generalizing p s with
  | nil => rfl
  | cons x xs ih =>
    rw [List.cons_append]
    cases hstep : step p x s with
    | inl s' =>
      rw [run_next hstep, run_next hstep, ih, List.length_cons]
      congr 2
      omega
    | inr r =>
      rw [run_stop hstep, run_stop hstep]
      rfl

def Outcome.Meets (f : σ → Prop) (g : ℕ → ρ → Prop) : Outcome σ ρ → Prop
  | .more s => f s
  | .stop p r => g p r

/-- Rule for a run: what every item keeps, and what holds where the machine stops -/
theorem run_keeps {f : ℕ → σ → Prop} {g : ℕ → ρ → Prop}
    (hstep : ∀ k x s, xs[k]? = some x → f (p+k) s →
      (step (p+k) x s).elim (f (p+k+1)) (g (p+k))) (h : f p s) :
    (run step p xs s).Meets (f (p+xs.length)) g := by
  induction xs generalizing p s with
  | nil => exact h
  | cons x xs ih =>
    have hfirst := hstep 0 x s rfl h
    simp only [Nat.add_zero] at hfirst
    cases hnow : step p x s with
    | inl s' =>
      rw [hnow] at hfirst
      rw [run_next hnow, List.length_cons, Nat.add_comm xs.length, ← Nat.add_assoc]
      refine ih (fun k x' s'' hk hf => ?_) hfirst
      have hnext := hstep (k+1) x' s'' hk
      rw [show p+(k+1) = p+1+k by omega] at hnext
      exact hnext hf
    | inr r =>
      rw [hnow] at hfirst
      rw [run_stop hnow]
      exact hfirst

theorem stop_bounds (h : run step p xs s = .stop q r) : p ≤ q ∧ q < p+xs.length := by
  induction xs generalizing p s with
  | nil => cases h
  | cons x xs ih =>
    rw [List.length_cons]
    cases hstep : step p x s with
    | inl s' =>
      rw [run_next hstep] at h
      have := ih h
      omega
    | inr r' =>
      rw [run_stop hstep] at h
      cases h
      omega

end Runs

/-- The machine that goes on, or stops, as `after` says where `step` stops; `κ` is what it has
besides the state of the other. -/
def nested (step : ℕ → β → σ → σ ⊕ ρ) (after : ℕ → ρ → κ → (σ × κ) ⊕ τ) (p : ℕ) (x : β)
    (s : σ × κ) : (σ × κ) ⊕ τ :=
  match step p x s.1 with
  | .inl s' => .inl (s', s.2)
  | .inr r => after p r s.2

theorem run_nested (step : ℕ → β → σ → σ ⊕ ρ) (after : ℕ → ρ → κ → (σ × κ) ⊕ τ) (p : ℕ)
    (xs : List β) (s : σ) (k : κ) :
    run (nested step after) p xs (s, k) =
      match run step p xs s with
      | .more s => .more (s, k)
      | .stop q r =>
        match after q r k with
        | .inl s => run (nested step after) (q+1) (xs.drop (q+1-p)) s
        | .inr t => .stop q t := by
  induction xs generalizing p s with
  | nil => rfl
  | cons x xs ih =>
    cases hstep : step p x s with
    | inl s' =>
      have hnext : nested step after p x (s, k) = .inl (s', k) := by rw [nested, hstep]
      rw [run_next hnext, run_next hstep, ih]
      cases hrun : run step (p+1) xs s' with
      | more s'' => rfl
      | stop q r =>
        have hq := (stop_bounds hrun).1
        have hdrop : (x::xs).drop (q+1-p) = xs.drop (q+1-(p+1)) := by
          rw [show q+1-p = q+1-(p+1)+1 by omega, List.drop_succ_cons]
        simp only [hdrop]
    | inr r =>
      rw [run_stop hstep]
      cases hafter : after p r k with
      | inl s' =>
        have hnext : nested step after p x (s, k) = .inl s' := by
          rw [nested, hstep]
          exact hafter
        rw [run_next hnext]
        simp only [hafter, Nat.add_sub_cancel_left, List.drop_succ_cons, List.drop_zero]
      | inr t =>
        have hstop : nested step after p x (s, k) = .inr t := by
          rw [nested, hstep]
          exact hafter
        rw [run_stop hstop]
        simp only [hafter]

end Nginx.Resumable
