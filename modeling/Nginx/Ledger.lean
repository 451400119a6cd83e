import Mathlib.Data.List.Basic
import Mathlib.Data.List.Nodup
import Mathlib.Logic.Function.Basic

/-!
# Handles that are closed once

A ledger lists the handles that have ever been opened and counts how often each has
been closed. It balances for a list of open handles when these are distinct and have not
been closed, and every other handle has been closed once.
-/

set_option autoImplicit false

namespace Nginx.Ledger

structure Handles where
  opened : List ℕ
  closes : ℕ → ℕ

def Handles.open (l : Handles) (h : ℕ) : Handles := { l with opened := h::l.opened }

def Handles.close (l : Handles) (h : ℕ) : Handles :=
  { l with closes := Function.update l.closes h (l.closes h+1) }

structure Balanced (l : Handles) (held : List ℕ) : Prop where
  distinct : held.Nodup
  known : ∀ h ∈ held, h ∈ l.opened
  unclosed : ∀ h, h ∈ held ∨ h ∉ l.opened → l.closes h = 0
  closed : ∀ h ∈ l.opened, h ∉ held → l.closes h = 1

theorem balanced_perm (l : Handles) (held held' : List ℕ) (h : Balanced l held)
    (hp : held.Perm held') : Balanced l held' := by
  refine ⟨hp.nodup_iff.mp h.distinct,fun x hx => h.known x (hp.mem_iff.mpr hx),
    fun x hx => h.unclosed x ?_,fun x hx hn => h.closed x hx (fun hm => hn (hp.mem_iff.mp hm))⟩
  exact hx.imp_left hp.mem_iff.mpr

theorem balanced_open (l : Handles) (held : List ℕ) (x : ℕ) (h : Balanced l held)
    (hx : x ∉ l.opened) : Balanced (l.open x) (x::held) := by
  refine ⟨List.nodup_cons.mpr ⟨fun hm => hx (h.known x hm),h.distinct⟩,fun y hy => ?_,
    fun y hy => h.unclosed y ?_,fun y hy hn => ?_⟩
  · rcases List.mem_cons.mp hy with rfl | hy
    · exact List.mem_cons_self
    · exact List.mem_cons_of_mem _ (h.known y hy)
  · rcases hy with hy | hy
    · rcases List.mem_cons.mp hy with rfl | hy
      · exact Or.inr hx
      · exact Or.inl hy
    · exact Or.inr (fun hm => hy (List.mem_cons_of_mem _ hm))
  · rcases List.mem_cons.mp hy with rfl | hy
    · exact absurd List.mem_cons_self hn
    · exact h.closed y hy (fun hm => hn (List.mem_cons_of_mem _ hm))

theorem balanced_close (l : Handles) (held : List ℕ) (x : ℕ) (h : Balanced l (x::held)) :
    Balanced (l.close x) held := by
  obtain ⟨hx,hnodup⟩ := List.nodup_cons.mp h.distinct
  refine ⟨hnodup,fun y hy => h.known y (List.mem_cons_of_mem _ hy),fun y hy => ?_,
    fun y hy hn => ?_⟩
  · have hne : y ≠ x := by
      rintro rfl
      exact hy.elim hx (fun hn => hn (h.known y List.mem_cons_self))
    show Function.update l.closes x _ y = 0
    rw [Function.update_of_ne hne]
    exact h.unclosed y (hy.imp_left (List.mem_cons_of_mem _))
  · show Function.update l.closes x _ y = 1
    by_cases hyx : y = x
    · subst hyx
      rw [Function.update_self, h.unclosed y (Or.inl List.mem_cons_self)]
    · rw [Function.update_of_ne hyx]
      exact h.closed y hy (fun hm => (List.mem_cons.mp hm).elim hyx hn)

end Nginx.Ledger
