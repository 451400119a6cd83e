import Mathlib.Data.List.Infix
import Mathlib.Logic.Function.Basic
import Mathlib.Tactic.Common

/-!
# Longest prefix maps

A prefix is a word read from a fixed end, written with its newest symbol at the
head, so that the shorter prefixes of a word are its tails. A map gives some
prefixes a value; a lookup answers with the value of the longest prefix of a
word that has one.
-/

set_option autoImplicit false

namespace Nginx.PrefixMap

variable {β α : Type*}

abbrev Entries (β α : Type*) := List β → Option α

def empty : Entries β α := fun _ => none

def put [DecidableEq β] (m : Entries β α) (path : List β) (value : Option α) : Entries β α :=
  Function.update m path value

@[grind =] def longest (m : Entries β α) : List β → Option α
  | [] => m []
  | b :: path => (m (b :: path)).or (longest m path)

theorem longest_some (m : Entries β α) (b : β) (path : List β) (v : α)
    (h : m (b :: path) = some v) : longest m (b :: path) = some v := by
  rw [longest, h, Option.some_or]

theorem longest_none (m : Entries β α) (b : β) (path : List β) (h : m (b :: path) = none) :
    longest m (b :: path) = longest m path := by
  rw [longest, h, Option.none_or]

@[simp] theorem longest_empty (path : List β) : longest (empty : Entries β α) path = none := by
  induction path with
  | nil => rfl
  | cons b path ih => rw [longest_none _ _ _ rfl, ih]

theorem longest_eq_some_iff (m : Entries β α) (path : List β) (v : α) :
    longest m path = some v ↔ ∃ q, q <:+ path ∧ m q = some v ∧
      ∀ r, r <:+ path → q.length < r.length → m r = none := by
  induction path with
  | nil =>
    constructor
    · intro h
      exact ⟨[],List.suffix_rfl,h,fun r hr hlt => by simp [List.suffix_nil.mp hr] at hlt⟩
    · rintro ⟨q,hq,hv,-⟩
      rw [List.suffix_nil.mp hq] at hv
      exact hv
  | cons b path ih =>
    cases hb : m (b :: path) with
    | some w =>
      rw [longest_some m b path w hb]
      constructor
      · intro h
        refine ⟨b :: path,List.suffix_rfl,by rw [hb]; exact h,?_⟩
        intro r hr hlt
        have := hr.length_le
        omega
      · rintro ⟨q,hq,hv,hlong⟩
        rcases List.suffix_cons_iff.mp hq with rfl | hq
        · rw [← hb]
          exact hv
        have hlen := hq.length_le
        have hn := hlong (b :: path) List.suffix_rfl (by simp only [List.length_cons]; omega)
        rw [hb] at hn
        cases hn
    | none =>
      rw [longest_none m b path hb, ih]
      constructor
      · rintro ⟨q,hq,hv,hlong⟩
        refine ⟨q,hq.trans (List.suffix_cons b path),hv,?_⟩
        intro r hr hlt
        rcases List.suffix_cons_iff.mp hr with rfl | hr
        · exact hb
        · exact hlong r hr hlt
      · rintro ⟨q,hq,hv,hlong⟩
        rcases List.suffix_cons_iff.mp hq with rfl | hq
        · rw [hb] at hv
          cases hv
        · exact ⟨q,hq,hv,fun r hr hlt => hlong r (hr.trans (List.suffix_cons b path)) hlt⟩

theorem longest_map {γ : Type*} (m : Entries β α) (f : α → γ) (path : List β) :
    longest (fun p => (m p).map f) path = (longest m path).map f := by
  induction path with
  | nil => rfl
  | cons b path ih =>
    rw [longest, longest, ih]
    cases m (b::path) <;> rfl

theorem longest_none_root (m : Entries β α) (path : List β) (h : longest m path = none) :
    m [] = none := by
  induction path with
  | nil => exact h
  | cons b path ih =>
    rw [longest, Option.or_eq_none_iff] at h
    exact ih h.2

section Put
variable [DecidableEq β]

theorem longest_put_root (m : Entries β α) (v : α) (hm : m [] = none) (path : List β) :
    longest (put m [] (some v)) path = some ((longest m path).getD v) := by
  induction path with
  | nil => rw [longest, longest, hm, put, Function.update_self, Option.getD_none]
  | cons b path ih =>
    rw [longest, longest, ih, put, Function.update_of_ne (by simp)]
    cases m (b::path) <;> rfl

theorem put_map {γ : Type*} (m : Entries β α) (f : α → γ) (path : List β) (v : Option α) :
    (fun p => (put m path v p).map f) = put (fun p => (m p).map f) path (v.map f) := by
  funext p
  by_cases hp : p = path
  · subst hp
    simp [put]
  · simp [put, Function.update_of_ne hp]

theorem put_put (m : Entries β α) (path : List β) (v w : Option α) :
    put (put m path v) path w = put m path w :=
  Function.update_idem _ _ _

end Put

end Nginx.PrefixMap
