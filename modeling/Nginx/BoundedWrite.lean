import Nginx.MemoryRange

/-!
# Writing up to a bound

A writer appends to what has been written and stops at a bound that it is given. Up to the smaller
of two bounds it writes the same, and so do writers one after another.
-/

set_option autoImplicit false

namespace Nginx.BoundedWrite
open Nginx.MemoryRange

variable {α σ : Type}

structure Out (α : Type) where
  mem : ℕ → α
  pos : ℕ

def Out.append (o : Out α) (xs : List α) : Out α := ⟨writeRange o.mem o.pos xs,o.pos+xs.length⟩

structure Extends (o o' : Out α) : Prop where
  pos : o.pos ≤ o'.pos
  frame : ∀ a, a < o.pos ∨ o'.pos ≤ a → o'.mem a = o.mem a

theorem extends_refl (o : Out α) : Extends o o := ⟨le_rfl,fun _ _ => rfl⟩

theorem extends_trans {o o' o'' : Out α} (h : Extends o o') (h' : Extends o' o'') :
    Extends o o'' := by
  have hl := h.pos
  have hr := h'.pos
  refine ⟨hl.trans hr,fun a ha => ?_⟩
  rw [h'.frame a (by omega), h.frame a (by omega)]

theorem extends_append (o : Out α) (xs : List α) : Extends o (o.append xs) := by
  refine ⟨Nat.le_add_right _ _,fun a ha => ?_⟩
  rcases ha with ha|ha
  · exact write_before o.mem xs ha
  have hle : xs.length ≤ a-o.pos := by
    change o.pos+xs.length ≤ a at ha
    omega
  change writeRange o.mem o.pos xs a = o.mem a
  rw [writeRange, List.getD_eq_default _ _ hle, ite_self]

def CutAt (last : ℕ) (o o' : Out α) : Prop :=
  o = o' ∨ o.pos = last ∧ last ≤ o'.pos ∧ ∀ a < last, o.mem a = o'.mem a

structure Within (room : ℕ) (w : ℕ → Out α → Out α) : Prop where
  extend : ∀ last o, o.pos+room ≤ last → Extends o (w last o)
  bound : ∀ last o, o.pos+room ≤ last → (w last o).pos ≤ last
  cut : ∀ last last' o, o.pos+room ≤ last → last ≤ last' → CutAt last (w last o) (w last' o)

theorem within_weaken {room : ℕ} {w : ℕ → Out α → Out α} (h : Within 0 w) : Within room w :=
  ⟨fun last o ho => h.extend last o (by omega),fun last o ho => h.bound last o (by omega),
    fun last last' o ho hl => h.cut last last' o (by omega) hl⟩

theorem within_none : Within 0 fun (_ : ℕ) (o : Out α) => o :=
  ⟨fun _ o _ => extends_refl o,fun _ _ h => h,fun _ _ _ _ _ => Or.inl rfl⟩

theorem within_put (x : Out α → α) : Within 1 fun _ o => o.append [x o] :=
  ⟨fun _ o _ => extends_append o _,fun _ _ h => h,fun _ _ _ _ _ => Or.inl rfl⟩

theorem within_comp {room : ℕ} {v w : ℕ → Out α → Out α} (hv : Within room v) (hw : Within 0 w) :
    Within room fun last o => w last (v last o) := by
  refine ⟨fun last o ho => ?_,fun last o ho => ?_,fun last last' o ho hl => ?_⟩
  · exact extends_trans (hv.extend last o ho) (hw.extend last _ (hv.bound last o ho))
  · exact hw.bound last _ (hv.bound last o ho)
  · have hbound := hv.bound last o ho
    have hbound' := hv.bound last' o (by omega)
    rcases hv.cut last last' o ho hl with heq|⟨hpos,hpos',hmem⟩
    · rw [← heq]
      exact hw.cut last last' _ hbound hl
    have hext := hw.extend last _ hbound
    have hext' := hw.extend last' _ hbound'
    have hend := hw.bound last _ hbound
    refine Or.inr ⟨?_,hpos'.trans hext'.pos,fun a ha => ?_⟩
    · exact le_antisymm hend (hpos.ge.trans hext.pos)
    · rw [hext.frame a (Or.inl (by omega)), hext'.frame a (Or.inl (by omega)), hmem a ha]

theorem within_room {w : ℕ → Out α → Out α} (h : Within 1 w) :
    Within 0 fun last o => if o.pos < last then w last o else o := by
  refine ⟨fun last o ho => ?_,fun last o ho => ?_,fun last last' o ho hl => ?_⟩
  · split_ifs with hroom
    · exact h.extend last o hroom
    · exact extends_refl o
  · split_ifs with hroom
    · exact h.bound last o hroom
    · exact ho
  · by_cases hroom : o.pos < last
    · rw [if_pos hroom, if_pos (by omega)]
      exact h.cut last last' o hroom hl
    rw [if_neg hroom]
    have hpos : o.pos = last := by omega
    split_ifs with hroom'
    · have hext := h.extend last' o hroom'
      exact Or.inr ⟨hpos,hpos ▸ hext.pos,fun a ha => (hext.frame a (Or.inl (by omega))).symm⟩
    · exact Or.inl rfl

theorem within_copy (f : Out α → List α) :
    Within 0 fun last o => o.append ((f o).take (last-o.pos)) := by
  refine ⟨fun _ o _ => extends_append o _,fun last o ho => ?_,fun last last' o ho hl => ?_⟩
  · change o.pos+((f o).take (last-o.pos)).length ≤ last
    rw [List.length_take]
    omega
  · by_cases hall : (f o).length ≤ last-o.pos
    · rw [List.take_of_length_le hall, List.take_of_length_le (by omega)]
      exact Or.inl rfl
    have hlength : ((f o).take (last-o.pos)).length = last-o.pos := by
      rw [List.length_take]
      omega
    refine Or.inr ⟨?_,?_,fun a ha => ?_⟩
    · change o.pos+((f o).take (last-o.pos)).length = last
      omega
    · change last ≤ o.pos+((f o).take (last'-o.pos)).length
      rw [List.length_take]
      omega
    · change writeRange o.mem o.pos _ a = writeRange o.mem o.pos _ a
      rw [writeRange, writeRange]
      by_cases hle : o.pos ≤ a
      · rw [if_pos hle, if_pos hle, List.getD_eq_getElem _ _ (by omega),
          List.getD_eq_getElem _ _ (by rw [List.length_take]; omega), List.getElem_take,
          List.getElem_take]
      · rw [if_neg hle, if_neg hle]

@[grind =] def emit (next : σ → (ℕ → α) → Option (α×σ)) : ℕ → σ → Out α → Out α
  | 0, _, o => o
  | room+1, s, o =>
    match next s o.mem with
    | none => o
    | some (x,s') => emit next room s' (o.append [x])

theorem emit_extends (next : σ → (ℕ → α) → Option (α×σ)) (room : ℕ) (s : σ) (o : Out α) :
    Extends o (emit next room s o) ∧ (emit next room s o).pos ≤ o.pos+room := by
  induction room generalizing s o with
  | zero => exact ⟨extends_refl o,le_rfl⟩
  | succ room ih =>
    rw [emit]
    cases next s o.mem with
    | none => exact ⟨extends_refl o,Nat.le_add_right _ _⟩
    | some xs =>
      obtain ⟨hext,hpos⟩ := ih xs.2 (o.append [xs.1])
      refine ⟨extends_trans (extends_append o _) hext,hpos.trans ?_⟩
      change o.pos+1+room ≤ o.pos+(room+1)
      omega

theorem emit_cut (next : σ → (ℕ → α) → Option (α×σ)) (room more : ℕ) (s : σ) (o : Out α) :
    CutAt (o.pos+room) (emit next room s o) (emit next (room+more) s o) := by
  induction room generalizing s o with
  | zero =>
    obtain ⟨hext,-⟩ := emit_extends next (0+more) s o
    exact Or.inr ⟨rfl,hext.pos,fun a ha => (hext.frame a (Or.inl ha)).symm⟩
  | succ room ih =>
    rw [show room+1+more = room+more+1 by omega, emit, emit]
    cases next s o.mem with
    | none => exact Or.inl rfl
    | some xs =>
      have hcut := ih xs.2 (o.append [xs.1])
      rwa [show (o.append [xs.1]).pos+room = o.pos+(room+1) from Nat.add_right_comm _ _ _] at hcut

theorem within_emit (next : σ → (ℕ → α) → Option (α×σ)) (f : Out α → σ) :
    Within 0 fun last o => emit next (last-o.pos) (f o) o := by
  refine ⟨fun last o ho => (emit_extends next _ _ o).1,fun last o ho => ?_,
    fun last last' o ho hl => ?_⟩
  · exact (emit_extends next _ _ o).2.trans (by omega)
  · have hcut := emit_cut next (last-o.pos) (last'-last) (f o) o
    rwa [show o.pos+(last-o.pos) = last by omega,
      show last-o.pos+(last'-last) = last'-o.pos by omega] at hcut

theorem within_prefix {w : ℕ → Out α → Out α} (h : Within 0 w) {last last' : ℕ} {o : Out α}
    (ho : o.pos ≤ last) (hl : last ≤ last') :
    readRange (w last o).mem o.pos (w last o).pos =
      (readRange (w last' o).mem o.pos (w last' o).pos).take (last-o.pos) := by
  have hbound := h.bound last o ho
  rcases h.cut last last' o ho hl with heq|⟨hpos,hpos',hmem⟩
  · rw [← heq, List.take_of_length_le]
    rw [read_length]
    omega
  · rw [hpos, ← read_append _ ho hpos', List.take_left' (read_length _ _ _)]
    exact read_congr _ _ fun i _ hi => hmem i hi

end Nginx.BoundedWrite
