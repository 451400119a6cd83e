import Mathlib.Data.List.Basic
import Mathlib.Data.List.Forall2
import Mathlib.Data.List.GetD
import Mathlib.Data.List.Nodup
import Mathlib.Logic.Function.Basic
import Mathlib.Algebra.Order.Ring.Int

/-!
# Ranges of memory

Memory is a function from addresses to cells. A range is read from its first address to the one
behind its last, and a list is written from an address on.
-/

set_option autoImplicit false

namespace Nginx.MemoryRange

variable {α : Type}

def readRange (mem : ℕ → α) (a z : ℕ) : List α := (List.range' a (z-a)).map mem

def writeRange (mem : ℕ → α) (a : ℕ) (xs : List α) : ℕ → α :=
  fun i => if a ≤ i then xs.getD (i-a) (mem i) else mem i

variable (mem : ℕ → α) (a : ℕ)

theorem read_length (z : ℕ) : (readRange mem a z).length = z-a := by
  rw [readRange, List.length_map, List.length_range']

theorem read_empty : readRange mem a a = [] := by
  rw [readRange, Nat.sub_self]
  rfl

theorem read_first {a z : ℕ} (h : a < z) : readRange mem a z = mem a::readRange mem (a+1) z := by
  obtain ⟨n,rfl⟩ : ∃ n, z = a+1+n := ⟨z-(a+1),by omega⟩
  rw [readRange, readRange, show a+1+n-a = n+1 by omega, Nat.add_sub_cancel_left,
    List.range'_succ]
  rfl

theorem read_append {a b z : ℕ} (hl : a ≤ b) (hr : b ≤ z) :
    readRange mem a b++readRange mem b z = readRange mem a z := by
  obtain ⟨m,rfl⟩ := Nat.exists_eq_add_of_le hl
  obtain ⟨n,rfl⟩ := Nat.exists_eq_add_of_le hr
  rw [readRange, readRange, readRange, ← List.map_append, Nat.add_sub_cancel_left,
    Nat.add_sub_cancel_left, show a+m+n-a = m+n by omega, ← List.range'_append_1]

theorem read_congr (mem' : ℕ → α) {a z : ℕ} (h : ∀ i, a ≤ i → i < z → mem' i = mem i) :
    readRange mem' a z = readRange mem a z := by
  refine List.map_congr_left fun i hi => ?_
  obtain ⟨hl,hr⟩ := List.mem_range'_1.mp hi
  exact h i hl (by omega)

theorem read_mem {a z i : ℕ} (hl : a ≤ i) (hr : i < z) : mem i ∈ readRange mem a z :=
  List.mem_map.mpr ⟨i,List.mem_range'_1.mpr ⟨hl,by omega⟩,rfl⟩

theorem mem_read {mem : ℕ → α} {a z : ℕ} {x : α} (h : x ∈ readRange mem a z) :
    ∃ i, a ≤ i ∧ i < z ∧ mem i = x := by
  obtain ⟨i,hi,rfl⟩ := List.mem_map.mp h
  obtain ⟨hl,hr⟩ := List.mem_range'_1.mp hi
  exact ⟨i,hl,by omega,rfl⟩

theorem read_eq_iff {mem mem' : ℕ → α} {a b n : ℕ} :
    readRange mem' b (b+n) = readRange mem a (a+n) ↔ ∀ i < n, mem' (b+i) = mem (a+i) := by
  rw [readRange, readRange, Nat.add_sub_cancel_left, Nat.add_sub_cancel_left,
    ← List.forall₂_eq_eq_eq, List.forall₂_map_left_iff, List.forall₂_map_right_iff,
    List.forall₂_iff_get]
  simp only [List.length_range', List.get_eq_getElem, List.getElem_range', Nat.one_mul, true_and]
  exact ⟨fun h i hi => h i hi hi,fun h i hi _ => h i hi⟩

variable (xs : List α)

theorem write_before {a i : ℕ} (h : i < a) : writeRange mem a xs i = mem i := if_neg (by omega)

theorem write_empty : writeRange mem a [] = mem := by
  funext i
  rw [writeRange, List.getD_nil, ite_self]

theorem read_write_before {a z : ℕ} (b : ℕ) (xs : List α) (h : z ≤ b) :
    readRange (writeRange mem b xs) a z = readRange mem a z :=
  read_congr mem _ fun _ _ hi => write_before mem xs (by omega)

theorem read_write : readRange (writeRange mem a xs) a (a+xs.length) = xs := by
  refine List.ext_getElem (by rw [read_length]; omega) fun i hl hr => ?_
  simp only [readRange, List.getElem_map, List.getElem_range', Nat.one_mul, writeRange]
  rw [if_pos (Nat.le_add_right a i), Nat.add_sub_cancel_left, List.getD_eq_getElem?_getD,
    List.getElem?_eq_getElem hr, Option.getD_some]

theorem write_append (ys : List α) :
    writeRange (writeRange mem a xs) (a+xs.length) ys = writeRange mem a (xs++ys) := by
  funext i
  simp only [writeRange]
  by_cases hi : a ≤ i
  · rw [if_pos hi, if_pos hi]
    by_cases hlt : i-a < xs.length
    · rw [if_neg (by omega), List.getD_append _ _ _ _ hlt]
    · rw [if_pos (by omega), List.getD_append_right _ _ _ _ (by omega),
        List.getD_eq_default xs _ (by omega), Nat.sub_sub]
  · rw [if_neg (by omega), if_neg hi, if_neg hi]

theorem write_over {xs ys : List α} (h : xs.length ≤ ys.length) :
    writeRange (writeRange mem a xs) a ys = writeRange mem a ys := by
  funext i
  simp only [writeRange]
  by_cases hi : a ≤ i
  · rw [if_pos hi, if_pos hi, if_pos hi]
    by_cases hlt : i-a < ys.length
    · rw [List.getD_eq_getElem _ _ hlt, List.getD_eq_getElem _ _ hlt]
    · rw [List.getD_eq_default _ _ (by omega), List.getD_eq_default _ _ (by omega),
        List.getD_eq_default _ _ (by omega)]
  · rw [if_neg hi, if_neg hi, if_neg hi]

end Nginx.MemoryRange
