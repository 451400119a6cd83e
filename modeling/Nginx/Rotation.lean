import Mathlib.Data.List.Basic
import Mathlib.Data.List.Nodup

/-!
# Offers in rotation

Candidates stand in a list. An offer goes to the first of them that beats the one behind
it, and to the last one when none does. A refused candidate leaves the list, and when
nobody is left all come back, to be offered from the last to the first. A choice goes
well when a good candidate is offered before one that is neither good nor refuses.
-/

set_option autoImplicit false

namespace Nginx.Rotation

section Rotation
variable {α : Type} (beats : α → α → Bool)

@[grind =] def front : α → List α → α
  | n, [] => n
  | n, i::rest => if beats n i then n else front i rest

/-- The next `k` offers to the candidates `live`, out of `all`. -/
@[grind =] def offers [DecidableEq α] (all : List α) : ℕ → List α → List α
  | 0, _ => []
  | k+1, [] => all.reverse.take (k+1)
  | k+1, n::rest => front beats n rest::offers all k ((n::rest).erase (front beats n rest))

@[grind =] def Serves (good refused : α → Prop) : List α → Prop
  | [] => False
  | x::xs => good x ∨ refused x ∧ Serves good refused xs

theorem front_mem (n : α) (xs : List α) : front beats n xs ∈ n::xs := by
  induction xs generalizing n with
  | nil => exact List.mem_singleton.mpr rfl
  | cons i rest ih =>
    rw [front]
    split_ifs
    · exact List.mem_cons_self
    · exact List.mem_cons_of_mem _ (ih i)

theorem front_last (n z : α) (xs ys : List α) (h : n::xs = ys++[z])
    (hb : ∀ x ∈ n::xs, ∀ y ∈ n::xs, beats x y = false) : front beats n xs = z := by
  induction xs generalizing n ys with
  | nil =>
    cases ys with
    | nil =>
      cases h
      rfl
    | cons y ys => simp at h
  | cons i rest ih =>
    rw [front, hb n List.mem_cons_self i (List.mem_cons_of_mem _ List.mem_cons_self)]
    cases ys with
    | nil => simp at h
    | cons y ys =>
      exact ih i ys (List.cons.inj h).2 (fun x hx y hy =>
        hb x (List.mem_cons_of_mem _ hx) y (List.mem_cons_of_mem _ hy))

/-- Candidates of which none beats another are offered from the last to the first. -/
theorem offers_level [DecidableEq α] (all : List α) (k : ℕ) (xs : List α) (hd : xs.Nodup)
    (hb : ∀ x ∈ xs, ∀ y ∈ xs, beats x y = false) :
    offers beats all k xs = (xs.reverse++all.reverse).take k := by
  induction k generalizing xs with
  | zero => rfl
  | succ k ih =>
    cases xs with
    | nil => rfl
    | cons n rest =>
      obtain ⟨ys,z,hyz⟩ : ∃ ys z, n::rest = ys++[z] :=
        ⟨_,_,(List.dropLast_append_getLast (List.cons_ne_nil n rest)).symm⟩
      have hz : z ∉ ys := by
        rw [hyz] at hd
        exact fun hz => (List.nodup_append.mp hd).2.2 z hz z (List.mem_singleton.mpr rfl) rfl
      have herase : (n::rest).erase z = ys := by
        rw [hyz, List.erase_append_right _ hz]
        simp
      have hsub : ∀ x ∈ ys, x ∈ n::rest := by
        intro x hx
        rw [hyz]
        exact List.mem_append_left _ hx
      rw [offers, front_last beats n z rest ys hyz hb, herase,
        ih ys (by rw [hyz] at hd; exact (List.nodup_append.mp hd).1)
          (fun x hx y hy => hb x (hsub x hx) y (hsub y hy)), hyz, List.reverse_append]
      rfl

theorem offers_congr [DecidableEq α] (beats' : α → α → Bool) (all : List α) (k : ℕ) (xs : List α)
    (h : ∀ x ∈ xs, ∀ y ∈ xs, beats x y = beats' x y) :
    offers beats all k xs = offers beats' all k xs := by
  have hfront : ∀ ys n, (∀ x ∈ n::ys, ∀ y ∈ n::ys, beats x y = beats' x y) →
      front beats n ys = front beats' n ys := by
    intro ys
    induction ys with
    | nil => exact fun n _ => rfl
    | cons i rest ih =>
      intro n hn
      rw [front, front, hn n List.mem_cons_self i (List.mem_cons_of_mem _ List.mem_cons_self),
        ih i (fun x hx y hy => hn x (List.mem_cons_of_mem _ hx) y (List.mem_cons_of_mem _ hy))]
  induction k generalizing xs with
  | zero => rfl
  | succ k ih =>
    cases xs with
    | nil => rfl
    | cons n rest =>
      rw [offers, offers, hfront rest n h]
      congr 1
      exact ih _ (fun x hx y hy => h x (List.mem_of_mem_erase hx) y (List.mem_of_mem_erase hy))

theorem offers_mem [DecidableEq α] (all : List α) (k : ℕ) (xs : List α) :
    ∀ x ∈ offers beats all k xs, x ∈ xs ∨ x ∈ all := by
  induction k generalizing xs with
  | zero => exact fun x hx => absurd hx List.not_mem_nil
  | succ k ih =>
    intro x hx
    cases xs with
    | nil => exact Or.inr (List.mem_reverse.mp (List.mem_of_mem_take hx))
    | cons n rest =>
      rcases List.mem_cons.mp hx with rfl | hx
      · exact Or.inl (front_mem beats n rest)
      · exact (ih _ x hx).imp_left List.mem_of_mem_erase

variable (good refused : α → Prop)

theorem serves_congr (good' refused' : α → Prop) (xs : List α)
    (h : ∀ x ∈ xs, (good x ↔ good' x) ∧ (refused x ↔ refused' x)) :
    Serves good refused xs ↔ Serves good' refused' xs := by
  induction xs with
  | nil => exact Iff.rfl
  | cons x xs ih =>
    obtain ⟨hg,hr⟩ := h x List.mem_cons_self
    rw [Serves, Serves, hg, hr, ih (fun y hy => h y (List.mem_cons_of_mem _ hy))]

theorem serves_append (xs ys : List α) : Serves good refused (xs++ys) ↔
    Serves good refused xs ∨ (∀ x ∈ xs, refused x) ∧ Serves good refused ys := by
  induction xs with
  | nil => simp [Serves]
  | cons x xs ih =>
    simp only [List.cons_append, Serves, ih, List.forall_mem_cons]
    tauto

theorem serves_good (xs : List α) (h : Serves good refused xs) : ∃ x ∈ xs, good x := by
  induction xs with
  | nil => cases h
  | cons x xs ih =>
    rcases h with hx | ⟨-,h⟩
    · exact ⟨x,List.mem_cons_self,hx⟩
    · obtain ⟨y,hy,hg⟩ := ih h
      exact ⟨y,List.mem_cons_of_mem _ hy,hg⟩

theorem serves_mixed (x : α) (xs : List α) (hx : x ∈ xs) (hg : good x)
    (h : ∀ y ∈ xs, good y ∨ refused y) : Serves good refused xs := by
  induction xs with
  | nil => cases hx
  | cons y ys ih =>
    rcases h y List.mem_cons_self with hy | hy
    · exact Or.inl hy
    · rcases List.mem_cons.mp hx with rfl | hx
      · exact Or.inl hg
      · exact Or.inr ⟨hy,ih hx (fun z hz => h z (List.mem_cons_of_mem _ hz))⟩

theorem offers_all [DecidableEq α] (all : List α) (k : ℕ) (xs : List α) (hk : xs.length ≤ k) :
    ∃ ys, ys.Perm xs ∧ offers beats all k xs = ys++all.reverse.take (k-xs.length) := by
  induction k generalizing xs with
  | zero => exact ⟨[],by rw [List.length_eq_zero_iff.mp (Nat.le_zero.mp hk)],by simp [offers]⟩
  | succ k ih =>
    cases xs with
    | nil => exact ⟨[],List.Perm.refl _,rfl⟩
    | cons n rest =>
      have hf := front_mem beats n rest
      have hlength := List.length_erase_of_mem hf
      rw [List.length_cons, Nat.add_sub_cancel] at hlength
      rw [List.length_cons] at hk
      obtain ⟨ys,hperm,hoffers⟩ := ih ((n::rest).erase (front beats n rest)) (by omega)
      refine ⟨front beats n rest::ys,
        (hperm.cons _).trans (List.perm_cons_erase hf).symm,?_⟩
      rw [offers, hoffers, hlength, List.length_cons, Nat.succ_sub_succ]
      rfl

theorem serves_again (xs ys : List α) (k : ℕ) (hxor : ∀ x, good x → ¬ refused x)
    (h : ∀ y ∈ ys, y ∈ xs ∨ refused y) :
    Serves good refused ((xs++ys).take k) ↔ Serves good refused (xs.take k) := by
  rw [List.take_append, serves_append]
  refine ⟨fun hs => hs.resolve_right (fun ⟨hall,hs⟩ => ?_),Or.inl⟩
  obtain ⟨y,hy,hg⟩ := serves_good good refused _ hs
  have hlong : xs.length ≤ k := by
    by_contra hshort
    rw [show k-xs.length = 0 by omega] at hy
    cases hy
  rw [List.take_of_length_le hlong] at hall
  exact (h y (List.mem_of_mem_take hy)).elim (fun hyx => hxor y hg (hall y hyx)) (hxor y hg)

end Rotation

end Nginx.Rotation
