import Nginx.HttpTimeRound

/-!
# How wide numbers and times are

A number is as long as its digits, or as the width that is asked for. The calendar fields of a time
have two digits at any time; only its year may be wider than four.
-/

set_option autoImplicit false

namespace Nginx.HttpTimeWidth
open Nginx.Gregorian Nginx.HttpTime Nginx.HttpTimeLaw Nginx.HttpTimeRound Nginx.OffT

def sprintfInt (zero : UInt8) (width : ℕ) (i : ℤ) : List UInt8 :=
  if i < 0 then 45::sprintfNum zero width i.natAbs else sprintfNum zero width i.natAbs

def yearInt (year : ℕ) : ℤ := Int.bmod year (2^32)

theorem gmtime_unsigned (t : ℤ) : ngxGmtime (unsigned t : ℕ) = ngxGmtime t := by
  have h : unsigned (unsigned t : ℕ) = unsigned t := unsigned_nat (by rw [unsigned]; omega)
  unfold ngxGmtime
  rw [h]

theorem gmtime_clock (t : ℤ) : (ngxGmtime t).mday < 100 ∧ (ngxGmtime t).mon-1 < 12 ∧
    (ngxGmtime t).hour < 100 ∧ (ngxGmtime t).min < 100 ∧ (ngxGmtime t).sec < 100 ∧
    (ngxGmtime t).wday < 7 := by
  have hlt : unsigned t < 2^64 := by
    rw [unsigned]
    omega
  obtain ⟨y,r,-,hr,htm⟩ := gmtime_march (unsigned t) hlt
  have hleap := leap_le (y+1)
  obtain ⟨-,hdate⟩ := month_of_day y r hr
  have hmonth (y m : ℕ) := month_length_le y m
  rw [← gmtime_unsigned, htm, fromMarch]
  by_cases hwinter : 306 ≤ r
  · rw [if_pos hwinter] at hdate ⊢
    have hlast := hdate.2.last.trans (hmonth _ _)
    simp only
    omega
  rw [if_neg hwinter] at hdate ⊢
  have hlast := hdate.2.2.last.trans (hmonth _ _)
  simp only
  omega

theorem month_name {n : ℕ} (h : n < 12) : (months.getD n []).length = 3 := by
  match n, h with
  | 0, _ | 1, _ | 2, _ | 3, _ | 4, _ | 5, _ | 6, _ | 7, _ | 8, _ | 9, _ | 10, _ | 11, _ => rfl

theorem week_day {n : ℕ} (h : n < 7) : (week.getD n []).length = 3 := by
  match n, h with
  | 0, _ | 1, _ | 2, _ | 3, _ | 4, _ | 5, _ | 6, _ => rfl

theorem decimals_length (fuel : ℕ) {k n : ℕ} (p : List UInt8) (hk : 0 < k) (h : n < 10^k) :
    (decimals fuel n p).length ≤ p.length+k := by
  induction fuel generalizing k n p with
  | zero => exact Nat.le_add_right _ _
  | succ fuel ih =>
    rw [decimals_step]
    split_ifs with hlast
    · rw [List.length_cons]
      omega
    · obtain ⟨k,rfl⟩ : ∃ j, k = j+1 := ⟨k-1,by omega⟩
      have hdiv : n/10 < 10^k := by
        rw [pow_succ] at h
        omega
      have hpos : 0 < k := by
        rcases Nat.eq_zero_or_pos k with rfl | hpos
        · rw [pow_zero] at hdiv
          omega
        · exact hpos
      have hle := ih (numeral (n%10)::p) hpos hdiv
      rw [List.length_cons] at hle
      omega

theorem num_length {z : UInt8} {w k n : ℕ} (hk : 0 < k) (h : n < 10^k) :
    (sprintfNum z w n).length ≤ max w k := by
  have hle := decimals_length 20 [] hk h
  simp only [sprintfNum, List.length_append, List.length_replicate, List.length_nil] at hle ⊢
  omega

theorem int_length {w : ℕ} {i : ℤ} (hwidth : w ≤ 19) (h : -2^63 ≤ i) (h' : i ≤ 2^63) :
    (sprintfInt 32 w i).length ≤ 20 := by
  have hle := num_length (z := 32) (w := w) (k := 19) (n := i.natAbs) (by decide)
    (by omega)
  rw [sprintfInt]
  split_ifs
  · rw [List.length_cons]
    omega
  · omega

end Nginx.HttpTimeWidth
