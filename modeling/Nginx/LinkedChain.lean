import Mathlib.Data.List.Basic
import Mathlib.Data.List.Nodup
import Mathlib.Logic.Function.Basic

/-!
# Chains of linked cells

A chain starts at a pointer and follows the link of each cell to the next one, up to a cell
without a link.
-/

set_option autoImplicit false

namespace Nginx.LinkedChain

def Chain (next : ℕ → Option ℕ) : Option ℕ → List ℕ → Prop
  | p, [] => p = none
  | p, x::xs => p = some x ∧ Chain next (next x) xs

variable (next : ℕ → Option ℕ) (xs : List ℕ)

theorem chain_none (h : Chain next none xs) : xs = [] := by
  cases xs with
  | nil => rfl
  | cons x xs => cases h.1

theorem chain_some (x : ℕ) (xs : List ℕ) (h : Chain next (some x) xs) :
    ∃ ys, xs = x::ys ∧ Chain next (next x) ys := by
  cases xs with
  | nil => cases h
  | cons y ys =>
    obtain ⟨hy,hys⟩ := h
    cases hy
    exact ⟨ys,rfl,hys⟩

variable (p : Option ℕ)

theorem chain_unique (xs ys : List ℕ) (h : Chain next p xs) (h' : Chain next p ys) : xs = ys := by
  induction xs generalizing p ys with
  | nil =>
    cases h
    exact (chain_none next ys h').symm
  | cons x xs ih =>
    obtain ⟨rfl,hxs⟩ := h
    obtain ⟨zs,rfl,hzs⟩ := chain_some next x ys h'
    rw [ih _ zs hxs hzs]

theorem chain_congr (next' : ℕ → Option ℕ) (p : Option ℕ) (xs : List ℕ) (h : Chain next p xs)
    (hsame : ∀ x ∈ xs, next' x = next x) : Chain next' p xs := by
  induction xs generalizing p with
  | nil => exact h
  | cons x xs ih =>
    refine ⟨h.1,?_⟩
    rw [hsame x List.mem_cons_self]
    exact ih _ h.2 (fun y hy => hsame y (List.mem_cons_of_mem _ hy))

theorem chain_update (xs : List ℕ) (x : ℕ) (q : Option ℕ) (h : Chain next p xs) (hx : x ∉ xs) :
    Chain (Function.update next x q) p xs := by
  refine chain_congr next _ p xs h (fun y hy => ?_)
  have hne : y ≠ x := fun he => hx (he ▸ hy)
  exact Function.update_of_ne hne ..

theorem chain_unlink (xs ys : List ℕ) (d x : ℕ) (h : Chain next p (xs++d::x::ys))
    (hnodup : (xs++d::x::ys).Nodup) : Chain (Function.update next d (next x)) p (xs++d::ys) := by
  induction xs generalizing p with
  | nil =>
    obtain ⟨hp,-,hys⟩ := h
    have hd : d ∉ ys := fun hm => (List.nodup_cons.mp hnodup).1 (List.mem_cons_of_mem _ hm)
    refine ⟨hp,?_⟩
    rw [Function.update_self]
    exact chain_update next _ ys d _ hys hd
  | cons z zs ih =>
    obtain ⟨hp,hrest⟩ := h
    obtain ⟨hz,hnodup⟩ := List.nodup_cons.mp hnodup
    have hne : z ≠ d := fun he => hz (he ▸ List.mem_append_right _ List.mem_cons_self)
    refine ⟨hp,?_⟩
    rw [Function.update_of_ne hne]
    exact ih _ hrest hnodup

end Nginx.LinkedChain
