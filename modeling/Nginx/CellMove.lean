import Mathlib.Data.List.Basic
import Mathlib.Tactic.Common

/-!
# Moving cells of an array

The cells of an array are a list. A move copies a block of cells onto another
place of the same list as `memmove` does, so the blocks may overlap. Two uses
are common: opening a gap in front of the last cells, and closing a gap that
one cell leaves.
-/

set_option autoImplicit false

namespace Nginx.CellMove

variable {α : Type*}

/-- Copy the `count` cells from `source` on to the cells from `target` on. -/
def memmove (cells : List α) (target source count : ℕ) : List α :=
  cells.mapIdx (fun j x =>
    if target ≤ j ∧ j < target+count then cells.getD (source+(j-target)) x else x)

@[simp] theorem memmove_length (cells : List α) (target source count : ℕ) :
    (memmove cells target source count).length = cells.length := by
  simp [memmove]

theorem memmove_kept (cells : List α) (target source count j : ℕ)
    (h : j < target ∨ target+count ≤ j) :
    (memmove cells target source count)[j]? = cells[j]? := by
  have hn : ¬(target ≤ j ∧ j < target+count) := by omega
  simp only [memmove, List.getElem?_mapIdx, if_neg hn]
  cases cells[j]? <;> rfl

theorem memmove_moved (cells : List α) (target source count j : ℕ) (h1 : target ≤ j)
    (h2 : j < target+count) (h3 : j < cells.length) (h4 : source+(j-target) < cells.length) :
    (memmove cells target source count)[j]? = cells[source+(j-target)]? := by
  have hin : target ≤ j ∧ j < target+count := ⟨h1,h2⟩
  simp only [memmove, List.getElem?_mapIdx, if_pos hin, List.getElem?_eq_getElem h3,
    List.getElem?_eq_getElem h4, List.getD_eq_getElem?_getD, Option.map_some, Option.getD_some]

theorem memmove_open (pre post spare : List α) :
    memmove (pre++(post++spare)) (pre.length+spare.length) pre.length post.length =
      pre++((post++spare).take spare.length++post) := by
  have hlen : ((post++spare).take spare.length).length = spare.length := by simp
  have htotal : (pre++(post++spare)).length = pre.length+(post.length+spare.length) := by simp
  apply List.ext_getElem?
  intro j
  by_cases h1 : j < pre.length
  · rw [memmove_kept _ _ _ _ _ (by omega), List.getElem?_append_left h1,
      List.getElem?_append_left h1]
  have hr : (pre++((post++spare).take spare.length++post))[j]? =
      ((post++spare).take spare.length++post)[j-pre.length]? :=
    List.getElem?_append_right (by omega)
  rw [hr]
  by_cases h2 : j < pre.length+spare.length
  · have hj : j-pre.length < spare.length := by omega
    have hr1 : ((post++spare).take spare.length++post)[j-pre.length]? =
        (post++spare)[j-pre.length]? := by
      rw [List.getElem?_append_left (by rw [hlen]; exact hj), List.getElem?_take_of_lt hj]
    rw [memmove_kept _ _ _ _ _ (by omega), List.getElem?_append_right (by omega), hr1]
  have hr2 : ((post++spare).take spare.length++post)[j-pre.length]? =
      post[j-pre.length-spare.length]? := by
    rw [List.getElem?_append_right (by rw [hlen]; omega), hlen]
  rw [hr2]
  by_cases h3 : j < pre.length+spare.length+post.length
  · have hk : pre.length+(j-(pre.length+spare.length))-pre.length =
        j-pre.length-spare.length := by omega
    rw [memmove_moved _ _ _ _ _ (by omega) h3 (by rw [htotal]; omega) (by rw [htotal]; omega),
      List.getElem?_append_right (by omega), hk, List.getElem?_append_left (by omega)]
  · rw [List.getElem?_eq_none (by rw [memmove_length, htotal]; omega),
      List.getElem?_eq_none (by omega)]

theorem memmove_close (pre post : List α) (x : α) :
    (memmove (pre++x::post) pre.length (pre.length+1) post.length).take
      (pre.length+post.length) = pre++post := by
  have htotal : (pre++x::post).length = pre.length+(post.length+1) := by simp
  apply List.ext_getElem?
  intro j
  by_cases hj : j < pre.length+post.length
  · rw [List.getElem?_take_of_lt hj]
    by_cases h1 : j < pre.length
    · rw [memmove_kept _ _ _ _ _ (by omega), List.getElem?_append_left h1,
        List.getElem?_append_left h1]
    have hk : pre.length+1+(j-pre.length)-pre.length = (j-pre.length)+1 := by omega
    rw [memmove_moved _ _ _ _ _ (by omega) (by omega) (by rw [htotal]; omega)
      (by rw [htotal]; omega), List.getElem?_append_right (by omega), hk,
      List.getElem?_cons_succ, List.getElem?_append_right (by omega)]
  · rw [List.getElem?_eq_none (by simp; omega), List.getElem?_eq_none (by simp; omega)]

end Nginx.CellMove
