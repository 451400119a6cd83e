import Mathlib.Data.List.Basic
import Mathlib.Algebra.Order.Ring.Int

/-!
# Numbers in memory

A number is stored as bytes, the lowest first, and what does not fit into its bytes is cut off.
A store changes the bytes it covers, and a load behind it or before it does not notice it.
-/

set_option autoImplicit false

namespace Nginx.LittleEndian

@[grind =] def toBytes : ℕ → ℕ → List UInt8
  | 0, _ => []
  | w+1, n => UInt8.ofNat n::toBytes w (n/256)

@[grind =] def ofBytes : List UInt8 → ℕ
  | [] => 0
  | b::s => b.toNat+256*ofBytes s

@[simp] theorem toBytes_length (w n : ℕ) : (toBytes w n).length = w := by
  induction w generalizing n with
  | zero => rfl
  | succ w ih => rw [toBytes, List.length_cons, ih]

theorem ofBytes_toBytes (w n : ℕ) : ofBytes (toBytes w n) = n % 256^w := by
  induction w generalizing n with
  | zero => simp [toBytes, ofBytes, Nat.mod_one]
  | succ w ih =>
    have hb : (UInt8.ofNat n).toNat = n % 256 := UInt8.toNat_ofNat'
    rw [toBytes, ofBytes, ih, hb, Nat.pow_succ', Nat.mod_mul]

/-! Memory -/

/-- The memory with the bytes `s` from the offset on -/
def store (mem : List UInt8) (offset : ℕ) (s : List UInt8) : List UInt8 :=
  mem.take offset++(s++mem.drop (offset+s.length))

def slice (mem : List UInt8) (offset len : ℕ) : List UInt8 := (mem.drop offset).take len

def load (mem : List UInt8) (offset w : ℕ) : ℕ := ofBytes (slice mem offset w)

variable {mem : List UInt8} {offset : ℕ} {s : List UInt8}

theorem store_length (h : offset+s.length ≤ mem.length) :
    (store mem offset s).length = mem.length := by
  simp only [store, List.length_append, List.length_take, List.length_drop]
  omega

theorem slice_store (h : offset+s.length ≤ mem.length) :
    slice (store mem offset s) offset s.length = s := by
  have ht : (mem.take offset).length = offset := by
    rw [List.length_take]
    omega
  rw [slice, store, List.drop_left' ht, List.take_left]

theorem slice_before {o len : ℕ} (h : offset+s.length ≤ mem.length) (ho : o+len ≤ offset) :
    slice (store mem offset s) o len = slice mem o len := by
  have ht : (mem.take offset).length = offset := by
    rw [List.length_take]
    omega
  rw [slice, store, List.drop_append_of_le_length (by omega), List.take_append_of_le_length
    (by rw [List.length_drop]; omega), List.drop_take, List.take_take, slice]
  congr 1
  omega

theorem drop_store {o : ℕ} (h : offset+s.length ≤ mem.length) (ho : offset+s.length ≤ o) :
    (store mem offset s).drop o = mem.drop o := by
  have ht : (mem.take offset).length = offset := by
    rw [List.length_take]
    omega
  obtain ⟨k,rfl⟩ := Nat.exists_eq_add_of_le ho
  rw [store, Nat.add_assoc, ← List.drop_drop, List.drop_left' ht, ← List.drop_drop,
    List.drop_left, List.drop_drop, Nat.add_assoc]

theorem slice_take {o len k : ℕ} (h : o+len ≤ k) : slice (mem.take k) o len = slice mem o len := by
  rw [slice, List.drop_take, List.take_take, slice]
  congr 1
  omega

theorem slice_append {t : List UInt8} {o len : ℕ} (h : o+len ≤ mem.length) :
    slice (mem++t) o len = slice mem o len := by
  rw [slice, List.drop_append_of_le_length (by omega), List.take_append_of_le_length
    (by rw [List.length_drop]; omega), slice]

/-! Stores one after another -/

def storeAll (stores : List (ℕ × List UInt8)) (mem : List UInt8) : List UInt8 :=
  stores.foldl (fun mem p => store mem p.1 p.2) mem

variable {stores : List (ℕ × List UInt8)}

theorem storeAll_length (h : ∀ p ∈ stores, p.1+p.2.length ≤ mem.length) :
    (storeAll stores mem).length = mem.length := by
  induction stores generalizing mem with
  | nil => rfl
  | cons p stores ih =>
    obtain ⟨hp,h⟩ := List.forall_mem_cons.mp h
    have hl := store_length hp
    rw [← hl] at h
    exact (ih h).trans hl

theorem storeAll_slice {o len : ℕ} (h : ∀ p ∈ stores, p.1+p.2.length ≤ mem.length)
    (ho : ∀ p ∈ stores, o+len ≤ p.1) : slice (storeAll stores mem) o len = slice mem o len := by
  induction stores generalizing mem with
  | nil => rfl
  | cons p stores ih =>
    obtain ⟨hp,h⟩ := List.forall_mem_cons.mp h
    obtain ⟨hop,ho⟩ := List.forall_mem_cons.mp ho
    rw [← store_length hp] at h
    exact (ih h ho).trans (slice_before hp hop)

def Ascending (stores : List (ℕ × List UInt8)) : Prop :=
  stores.Pairwise fun p q => p.1+p.2.length ≤ q.1

theorem storeAll_stored (ha : Ascending stores) (h : ∀ p ∈ stores, p.1+p.2.length ≤ mem.length)
    (hm : (offset, s) ∈ stores) : slice (storeAll stores mem) offset s.length = s := by
  obtain ⟨front,back,rfl⟩ := List.append_of_mem hm
  obtain ⟨_,ha,_⟩ := List.pairwise_append.mp ha
  have hb := (List.pairwise_cons.mp ha).1
  obtain ⟨hf,h⟩ := List.forall_mem_append.mp h
  obtain ⟨hs,h⟩ := List.forall_mem_cons.mp h
  have hl := storeAll_length hf
  rw [← hl] at hs h
  rw [← store_length hs] at h
  rw [storeAll, List.foldl_append, List.foldl_cons]
  exact (storeAll_slice h hb).trans (slice_store hs)

theorem storeAll_load {w n : ℕ} (ha : Ascending stores)
    (h : ∀ p ∈ stores, p.1+p.2.length ≤ mem.length) (hm : (offset, toBytes w n) ∈ stores) :
    load (storeAll stores mem) offset w = n % 256^w := by
  have hs := storeAll_stored ha h hm
  rw [toBytes_length] at hs
  rw [load, hs, ofBytes_toBytes]

theorem storeAll_drop {o : ℕ} (h : ∀ p ∈ stores, p.1+p.2.length ≤ mem.length)
    (ho : ∀ p ∈ stores, p.1+p.2.length ≤ o) : (storeAll stores mem).drop o = mem.drop o := by
  induction stores generalizing mem with
  | nil => rfl
  | cons p stores ih =>
    obtain ⟨hp,h⟩ := List.forall_mem_cons.mp h
    obtain ⟨hop,ho⟩ := List.forall_mem_cons.mp ho
    rw [← store_length hp] at h
    exact (ih h ho).trans (drop_store hp hop)

end Nginx.LittleEndian
