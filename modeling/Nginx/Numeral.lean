import Nginx.OffT
import Mathlib.Algebra.Order.Ring.Nat
import Mathlib.Tactic.Ring

/-!
# Numerals

A numeral is read digit by digit, the accumulator being multiplied by the base each time. A machine
that reduces its accumulator at every step has in the end what it would have by reducing once.
-/

set_option autoImplicit false

namespace Nginx.Numeral
open Nginx.OffT

@[grind =] def digits (digit : UInt8 → Option ℕ) : List UInt8 → Option (List ℕ)
  | [] => some []
  | ch::s => (digit ch).bind fun d => (digits digit s).map (d::·)

@[grind =] def valueFrom (base : ℕ) : ℕ → List ℕ → ℕ
  | v, [] => v
  | v, d::ds => valueFrom base (v*base+d) ds

def value (base : ℕ) (ds : List ℕ) : ℕ := valueFrom base 0 ds

@[grind =] def accumulate (base : ℕ) : ℤ → List ℕ → ℤ
  | v, [] => v
  | v, d::ds => accumulate base (offT (v*base+d)) ds

variable {base : ℕ} {digit : UInt8 → Option ℕ}

theorem value_from (v : ℕ) (ds : List ℕ) :
    valueFrom base v ds = v*base^ds.length+value base ds := by
  induction ds generalizing v with
  | nil => rw [List.length_nil, pow_zero, mul_one]; rfl
  | cons d ds ih =>
    rw [valueFrom, ih, show value base (d::ds) = valueFrom base (0*base+d) ds from rfl, ih,
      List.length_cons, pow_succ]
    ring

theorem from_append (v : ℕ) (ds es : List ℕ) :
    valueFrom base v (ds++es) = valueFrom base (valueFrom base v ds) es := by
  induction ds generalizing v with
  | nil => rfl
  | cons d ds ih => exact ih _

theorem value_append (ds es : List ℕ) :
    value base (ds++es) = value base ds*base^es.length+value base es := by
  rw [value, from_append, value_from]
  rfl

theorem value_concat (ds : List ℕ) (d : ℕ) : value base (ds++[d]) = value base ds*base+d :=
  from_append 0 ds [d]

theorem off_mul_add (v : ℤ) (b d : ℤ) : offT (offT v*b+d) = offT (v*b+d) := by
  rw [← off_off_add (offT v*b), mul_comm (offT v), off_mul_off, off_off_add, mul_comm b]

theorem accumulate_from (v : ℕ) (ds : List ℕ) :
    accumulate base (offT v) ds = offT (valueFrom base v ds) := by
  induction ds generalizing v with
  | nil => rfl
  | cons d ds ih =>
    rw [accumulate, valueFrom, off_mul_add, ← ih]
    push_cast
    rfl

theorem accumulate_append (v : ℤ) (ds es : List ℕ) :
    accumulate base v (ds++es) = accumulate base (accumulate base v ds) es := by
  induction ds generalizing v with
  | nil => rfl
  | cons d ds ih => exact ih _

theorem accumulate_value (ds : List ℕ) : accumulate base 0 ds = offT (value base ds) :=
  accumulate_from 0 ds

theorem digits_append (s t : List UInt8) : digits digit (s++t) =
    (digits digit s).bind fun ds => (digits digit t).map (ds++·) := by
  induction s with
  | nil => simp [digits]
  | cons ch s ih =>
    rw [List.cons_append, digits, digits, ih]
    cases digit ch with
    | none => rfl
    | some d => cases digits digit s <;> cases digits digit t <;> rfl

theorem digits_length {s : List UInt8} {ds : List ℕ} (h : digits digit s = some ds) :
    ds.length = s.length := by
  induction s generalizing ds with
  | nil =>
    obtain rfl := Option.some.inj h
    rfl
  | cons ch s ih =>
    obtain ⟨d,-,h⟩ := Option.bind_eq_some_iff.mp h
    obtain ⟨ds,hds,rfl⟩ := Option.map_eq_some_iff.mp h
    rw [List.length_cons, List.length_cons, ih hds]

/-- The value of a machine is that of the digits unless it does not fit, and then it is seen as
negative or is another one. -/
theorem off_value (v : ℕ) : (0 ≤ offT v ↔ v%2^64 < 2^63) ∧ (0 ≤ offT v → offT v = (v%2^64 : ℕ)) := by
  have hrange := off_range (v : ℤ)
  have hmod := off_mod (v : ℤ)
  constructor
  · rw [off_nonneg_iff]
    omega
  · intro h
    omega

end Nginx.Numeral
