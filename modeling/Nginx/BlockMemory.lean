import Mathlib.Data.List.Basic
import Mathlib.Logic.Function.Basic
import Mathlib.Algebra.Order.Ring.Int

/-!
# A memory of blocks that logs its stores

Blocks are numbered in the order they are allocated, from 1 on; block 0 has no bytes. A store may
be at any offset, and the memory is sound while each has been inside its block.
-/

set_option autoImplicit false

namespace Nginx.BlockMemory

structure Store where
  block : ℕ
  offset : ℕ
  byte : UInt8
  deriving DecidableEq, Repr

structure Memory where
  sizes : ℕ → ℕ
  next : ℕ
  stores : List Store

def empty : Memory := ⟨fun _ => 0,1,[]⟩

/-- The new block is the one numbered `next`. -/
def alloc (size : ℕ) (m : Memory) : Memory :=
  { m with sizes := Function.update m.sizes m.next size, next := m.next+1 }

def store (block offset : ℕ) (byte : UInt8) (m : Memory) : Memory :=
  { m with stores := ⟨block,offset,byte⟩::m.stores }

def load (m : Memory) (block offset : ℕ) : UInt8 :=
  match m.stores.find? fun w => w.block = block ∧ w.offset = offset with
  | some w => w.byte
  | none => 0

/-- `ngx_memcpy`: the first `n` bytes of a block -/
def copy (dst src : ℕ) : ℕ → Memory → Memory
  | 0, m => m
  | n+1, m => store dst n (load m src n) (copy dst src n m)

def Sound (m : Memory) : Prop :=
  ∀ w ∈ m.stores, w.block < m.next ∧ w.offset < m.sizes w.block

instance (m : Memory) : Decidable (Sound m) :=
  inferInstanceAs (Decidable (∀ w ∈ m.stores, w.block < m.next ∧ w.offset < m.sizes w.block))

structure Extends (m m' : Memory) : Prop where
  next : m.next ≤ m'.next
  sizes : ∀ b, b < m.next → m'.sizes b = m.sizes b
  stores : m.stores <:+ m'.stores

variable {m m' m'' : Memory} {b n : ℕ}

theorem extends_refl (m : Memory) : Extends m m := ⟨le_refl _,fun _ _ => rfl,List.suffix_refl _⟩

theorem extends_trans (h : Extends m m') (h' : Extends m' m'') : Extends m m'' :=
  ⟨h.next.trans h'.next,fun b hb => (h'.sizes b (hb.trans_le h.next)).trans (h.sizes b hb),
    h.stores.trans h'.stores⟩

theorem alloc_extends (n : ℕ) (m : Memory) : Extends m (alloc n m) :=
  ⟨Nat.le_succ _,fun _ hb => Function.update_of_ne hb.ne _ _,List.suffix_refl _⟩

theorem store_extends (block offset : ℕ) (byte : UInt8) (m : Memory) :
    Extends m (store block offset byte m) :=
  ⟨le_refl _,fun _ _ => rfl,List.suffix_cons _ _⟩

theorem copy_extends (dst src n : ℕ) (m : Memory) : Extends m (copy dst src n m) := by
  induction n with
  | zero => exact extends_refl m
  | succ n ih => exact extends_trans ih (store_extends _ _ _ _)

@[simp]
theorem alloc_size (n : ℕ) (m : Memory) : (alloc n m).sizes m.next = n :=
  Function.update_self ..

@[simp]
theorem copy_next (dst src n : ℕ) (m : Memory) : (copy dst src n m).next = m.next := by
  induction n with
  | zero => rfl
  | succ n ih => exact ih

@[simp]
theorem copy_sizes (dst src n : ℕ) (m : Memory) : (copy dst src n m).sizes = m.sizes := by
  induction n with
  | zero => rfl
  | succ n ih => exact ih

theorem empty_sound : Sound empty := fun _ hw => absurd hw List.not_mem_nil

theorem alloc_sound (h : Sound m) (n : ℕ) : Sound (alloc n m) := fun w hw => by
  obtain ⟨hblock,hoffset⟩ := h w hw
  refine ⟨Nat.lt_succ_of_lt hblock,?_⟩
  rw [(alloc_extends n m).sizes _ hblock]
  exact hoffset

theorem store_sound (h : Sound m) (hb : b < m.next) {offset : ℕ} (ho : offset < m.sizes b)
    (byte : UInt8) : Sound (store b offset byte m) := by
  intro w hw
  rcases List.mem_cons.mp hw with rfl|hw
  · exact ⟨hb,ho⟩
  · exact h w hw

theorem copy_sound (h : Sound m) (src : ℕ) (hb : b < m.next) (hn : n ≤ m.sizes b) :
    Sound (copy b src n m) := by
  induction n with
  | zero => exact h
  | succ n ih =>
    exact store_sound (ih (Nat.le_of_succ_le hn)) (by rwa [copy_next]) (by rwa [copy_sizes]) _

theorem store_outside {offset : ℕ} {byte : UInt8} (hb : b < m.next) (hout : m.sizes b ≤ offset)
    (h : Extends (store b offset byte m) m') : ¬Sound m' := fun hsound => by
  have hw := hsound ⟨b,offset,byte⟩ (h.stores.subset List.mem_cons_self)
  rw [h.sizes b hb] at hw
  exact absurd hw.2 (not_lt.mpr hout)

end Nginx.BlockMemory
