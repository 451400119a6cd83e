import Mathlib.Data.List.Basic

/-!
# Memory that is written forward

A block of memory has a size and an end mark. A cell before the mark has been written or is
still left to be written; a write behind the size is refused. Writers that add one text each
add the texts one behind the other.
-/

set_option autoImplicit false

namespace Nginx.TempMemory

/-- `cells` lie before the end mark; `none` is a cell that has not been written. -/
structure Block (α : Type) where
  size : ℕ
  cells : List (Option α)
  fits : cells.length ≤ size

variable {α β γ : Type}

def Block.create (size : ℕ) : Block α := ⟨size,[],Nat.zero_le _⟩

def Block.put (b : Block α) (s : List α) : Option (Block α) :=
  if h : b.cells.length+s.length ≤ b.size then
    some ⟨b.size,b.cells++s.map some,by simpa using h⟩
  else none

def Block.skip (b : Block α) (n : ℕ) : Option (Block α) :=
  if h : b.cells.length+n ≤ b.size then
    some ⟨b.size,b.cells++List.replicate n none,by simpa using h⟩
  else none

def Block.store (b : Block α) (offset : ℕ) (s : List α) : Option (Block α) :=
  if h : offset+s.length ≤ b.cells.length then
    some ⟨b.size,b.cells.take offset++(s.map some++b.cells.drop (offset+s.length)),by
      have := b.fits
      simp only [List.length_append, List.length_take, List.length_map, List.length_drop]
      omega⟩
  else none

@[grind =] def written : List (Option α) → Option (List α)
  | [] => some []
  | none::_ => none
  | some x::cells => (written cells).map (x::·)

@[simp] theorem written_map_some (s : List α) : written (s.map some) = some s := by
  induction s with
  | nil => rfl
  | cons x s ih => simp [written, ih]

/-- From `b` to `b'` the text `s` has been added. -/
structure Adds (b b' : Block α) (s : List α) : Prop where
  size : b'.size = b.size
  cells : b'.cells = b.cells++s.map some

theorem Adds.length {b b' : Block α} {s : List α} (h : Adds b b' s) :
    b'.cells.length = b.cells.length+s.length := by
  simp [h.cells]

theorem Adds.refl (b : Block α) : Adds b b [] := ⟨rfl,by simp⟩

theorem Adds.trans {b b' b'' : Block α} {s t : List α} (h : Adds b b' s) (h' : Adds b' b'' t) :
    Adds b b'' (s++t) :=
  ⟨h'.size.trans h.size,by rw [h'.cells, h.cells, List.map_append, List.append_assoc]⟩

theorem put_adds {b : Block α} {s : List α} (h : b.cells.length+s.length ≤ b.size) :
    ∃ b', b.put s = some b' ∧ Adds b b' s :=
  ⟨_,dif_pos h,rfl,rfl⟩

theorem foldlM_adds {write : Block α → β → Option (Block α)} (text : β → List α)
    (hw : ∀ b x, b.cells.length+(text x).length ≤ b.size →
      ∃ b', write b x = some b' ∧ Adds b b' (text x))
    (xs : List β) {b : Block α} (h : b.cells.length+(xs.flatMap text).length ≤ b.size) :
    ∃ b', xs.foldlM write b = some b' ∧ Adds b b' (xs.flatMap text) := by
  induction xs generalizing b with
  | nil => exact ⟨b,rfl,Adds.refl b⟩
  | cons x xs ih =>
    simp only [List.flatMap_cons, List.length_append] at h
    obtain ⟨b₁,hb₁,ha₁⟩ := hw b x (by omega)
    obtain ⟨b₂,hb₂,ha₂⟩ := ih (b := b₁) (by rw [ha₁.length, ha₁.size]; omega)
    exact ⟨b₂,by rw [List.foldlM_cons, hb₁]; exact hb₂,ha₁.trans ha₂⟩

end Nginx.TempMemory
