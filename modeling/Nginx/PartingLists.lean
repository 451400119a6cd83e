import Mathlib.Data.List.Infix

/-!
# Lists that part

Two lists either part at some place, where the element of one is less than that of the
other, or one of them is a prefix of the other. Lists that part stay so, in the same
order, whatever is appended to them.
-/

set_option autoImplicit false

namespace Nginx.PartingLists

variable {α : Type*} [LT α]

inductive Parts : List α → List α → Prop where
  | head {x y : α} (a b : List α) : x<y → Parts (x::a) (y::b)
  | tail (x : α) {a b : List α} : Parts a b → Parts (x::a) (x::b)

/-- The order of a dictionary: a list comes before those it is a proper prefix of. -/
def Precedes (a b : List α) : Prop := Parts a b ∨ (a <+: b ∧ a ≠ b)

theorem parts_cons_iff (x : α) (a b : List α) [Std.Irrefl (α := α) (· < ·)] :
    Parts (x::a) (x::b) ↔ Parts a b := by
  constructor
  · intro h
    cases h with
    | head _ _ h => exact absurd h (Std.Irrefl.irrefl x)
    | tail _ h => exact h
  · exact Parts.tail x

theorem parts_append_left_iff [Std.Irrefl (α := α) (· < ·)] (p a b : List α) :
    Parts (p++a) (p++b) ↔ Parts a b := by
  induction p with
  | nil => exact Iff.rfl
  | cons x p ih => rw [List.cons_append, List.cons_append, parts_cons_iff, ih]

theorem parts_append {a b : List α} (h : Parts a b) (x y : List α) :
    Parts (a++x) (b++y) := by
  induction h with
  | head a b h => exact Parts.head _ _ h
  | tail z _ ih => exact Parts.tail z ih

theorem parts_extend {a b a' b' : List α} (h : Parts a b) (ha : a <+: a') (hb : b <+: b') :
    Parts a' b' := by
  obtain ⟨x,rfl⟩ := ha
  obtain ⟨y,rfl⟩ := hb
  exact parts_append h x y

theorem not_prefix_of_parts [Std.Irrefl (α := α) (· < ·)] {a b : List α}
    (h : Parts a b) : ¬ a <+: b := by
  induction h with
  | head a b h =>
    intro hp
    obtain ⟨rfl,_⟩ := List.cons_prefix_cons.mp hp
    exact Std.Irrefl.irrefl _ h
  | tail x _ ih => exact fun hp => ih (List.cons_prefix_cons.mp hp).2

theorem not_prefix_of_parts' [Std.Irrefl (α := α) (· < ·)] {a b : List α}
    (h : Parts a b) : ¬ b <+: a := by
  induction h with
  | head a b h =>
    intro hp
    obtain ⟨rfl,_⟩ := List.cons_prefix_cons.mp hp
    exact Std.Irrefl.irrefl _ h
  | tail x _ ih => exact fun hp => ih (List.cons_prefix_cons.mp hp).2

theorem parts_trans [Trans (α := α) (· < ·) (· < ·) (· < ·)] {a b c : List α}
    (h : Parts a b) (h' : Parts b c) : Parts a c := by
  induction h generalizing c with
  | head a b h =>
    cases h' with
    | head _ c h2 => exact Parts.head _ _ (Trans.trans h h2)
    | tail _ h2 => exact Parts.head _ _ h
  | tail x h ih =>
    cases h' with
    | head _ c h2 => exact Parts.head _ _ h2
    | tail _ h2 => exact Parts.tail _ (ih h2)

theorem parts_precedes [Trans (α := α) (· < ·) (· < ·) (· < ·)] {a b c : List α}
    (h : Parts a b) (h' : Precedes b c) : Parts a c := by
  rcases h' with h2 | ⟨h2,_⟩
  · exact parts_trans h h2
  · exact parts_extend h (List.prefix_rfl) h2

theorem precedes_cons (x : α) {a b : List α} (h : Precedes a b) :
    Precedes (x::a) (x::b) := by
  rcases h with h | ⟨h,hne⟩
  · exact Or.inl (Parts.tail x h)
  · exact Or.inr ⟨List.cons_prefix_cons.mpr ⟨rfl,h⟩,fun he => hne (List.cons.inj he).2⟩

theorem precedes_ne [Std.Irrefl (α := α) (· < ·)] {a b : List α} (h : Precedes a b) :
    a ≠ b := by
  rcases h with h | ⟨_,hne⟩
  · rintro rfl
    exact not_prefix_of_parts h List.prefix_rfl
  · exact hne

theorem parts_of_precedes {a b : List α} (h : Precedes a b) (hp : ¬ a <+: b) :
    Parts a b := by
  rcases h with h | h
  · exact h
  · exact absurd h.1 hp

theorem precedes_trans [Trans (α := α) (· < ·) (· < ·) (· < ·)]
    [Std.Irrefl (α := α) (· < ·)] {a b c : List α} (h : Precedes a b) (h' : Precedes b c) :
    Precedes a c := by
  rcases h with h | ⟨h,hne⟩
  · exact Or.inl (parts_precedes h h')
  by_cases hp : a <+: c
  · refine Or.inr ⟨hp,?_⟩
    rintro rfl
    rcases h' with h' | ⟨h',_⟩
    · exact not_prefix_of_parts' h' h
    · exact hne (h.eq_of_length (le_antisymm h.length_le h'.length_le))
  rcases h' with h' | ⟨h',_⟩
  · obtain ⟨x,rfl⟩ := h
    clear hne
    induction a generalizing c with
    | nil => exact absurd (List.nil_prefix) hp
    | cons y a ih =>
      cases h' with
      | head _ c h2 => exact Or.inl (Parts.head _ _ h2)
      | tail _ h2 =>
        exact precedes_cons _ (ih (fun q => hp (List.cons_prefix_cons.mpr ⟨rfl,q⟩)) h2)
  · exact absurd (h.trans h') hp

end Nginx.PartingLists
