import Mathlib.Algebra.BigOperators.Group.Finset.Basic
import Mathlib.Algebra.Order.BigOperators.Group.Finset

/-!
# Sums over processes that move one at a time

Each process of a finite family is in a state of its own, and a state has a weight. When one
process moves, the sum of the weights changes by what it left and what it entered.
-/

set_option autoImplicit false

namespace Nginx.Tally

variable {P S : Type} [Fintype P]

def tally (c : S → ℕ) (f : P → S) : ℕ := ∑ p, c (f p)

theorem tally_const (c : S → ℕ) (s : S) (hs : c s = 0) : tally c (fun _ : P => s) = 0 := by
  simp [tally, hs]

theorem tally_card (c : S → ℕ) (f : P → S) (hc : ∀ s, c s ≤ 1) : tally c f ≤ Fintype.card P := by
  calc tally c f ≤ ∑ _p : P, 1 := Finset.sum_le_sum (fun p _ => hc (f p))
    _ = Fintype.card P := by simp

theorem tally_member (c : S → ℕ) (f : P → S) (p : P) : c (f p) ≤ tally c f :=
  Finset.single_le_sum (f := fun p => c (f p)) (fun _ _ => Nat.zero_le _) (Finset.mem_univ p)

theorem tally_zero (c : S → ℕ) (f : P → S) (h : ∀ p, c (f p) = 0) : tally c f = 0 :=
  Finset.sum_eq_zero (fun p _ => h p)

variable [DecidableEq P]

theorem tally_move (c : S → ℕ) (f : P → S) (p : P) (s : S) :
    tally c (Function.update f p s)+c (f p) = tally c f+c s := by
  have hsame : ∑ q ∈ Finset.univ.erase p, c (Function.update f p s q) =
      ∑ q ∈ Finset.univ.erase p, c (f q) := by
    refine Finset.sum_congr rfl (fun q hq => ?_)
    rw [Function.update_of_ne (Finset.ne_of_mem_erase hq)]
  rw [tally, tally, ← Finset.add_sum_erase _ _ (Finset.mem_univ p), hsame,
    ← Finset.add_sum_erase _ (fun q => c (f q)) (Finset.mem_univ p), Function.update_self]
  omega

theorem tally_two (c : S → ℕ) (f : P → S) (p q : P) (hpq : p ≠ q) : c (f p)+c (f q) ≤ tally c f := by
  calc c (f p)+c (f q) = ∑ x ∈ {p, q}, c (f x) :=
        (Finset.sum_pair (f := fun x => c (f x)) hpq).symm
    _ ≤ tally c f := Finset.sum_le_sum_of_subset (Finset.subset_univ _)

end Nginx.Tally
