import Mathlib.Algebra.Order.Ring.Int

/-!
# The proleptic Gregorian calendar

Days are counted from the first of January of the year zero, month by month and
year by year. A year that is taken to begin in March has its leap day at its end,
and its days are counted by Gauss' formula. Months are numbered from zero.
-/

set_option autoImplicit false

namespace Nginx.Gregorian

def IsLeap (y : ℕ) : Prop := y%4 = 0 ∧ (y%100 ≠ 0 ∨ y%400 = 0)

instance (y : ℕ) : Decidable (IsLeap y) := inferInstanceAs (Decidable (_ ∧ _))

def leapDay (y : ℕ) : ℕ := if IsLeap y then 1 else 0

theorem leap_le (y : ℕ) : leapDay y ≤ 1 := by
  rw [leapDay]
  split_ifs <;> omega

def monthLength (y : ℕ) : ℕ → ℕ
  | 0 => 31
  | 1 => 28+leapDay y
  | 2 => 31
  | 3 => 30
  | 4 => 31
  | 5 => 30
  | 6 => 31
  | 7 => 31
  | 8 => 30
  | 9 => 31
  | 10 => 30
  | 11 => 31
  | _ => 0

theorem month_length_le (y m : ℕ) : monthLength y m ≤ 31 := by
  have hle := leap_le y
  rw [monthLength.eq_def]
  split <;> omega

structure IsDate (y m d : ℕ) : Prop where
  month : m < 12
  first : 1 ≤ d
  last : d ≤ monthLength y m

def daysBeforeYear : ℕ → ℕ
  | 0 => 0
  | y+1 => daysBeforeYear y+(365+leapDay y)

@[grind =] def daysBeforeMonth (y : ℕ) : ℕ → ℕ
  | 0 => 0
  | m+1 => daysBeforeMonth y m+monthLength y m

def dayNumber (y m d : ℕ) : ℕ := daysBeforeYear y+daysBeforeMonth y m+d-1

def epochDay (y m d : ℕ) : ℤ := dayNumber y m d-dayNumber 1970 0 1

inductive Weekday where
  | sunday
  | monday
  | tuesday
  | wednesday
  | thursday
  | friday
  | saturday
  deriving DecidableEq, Repr

def Weekday.next : Weekday → Weekday
  | .sunday => .monday
  | .monday => .tuesday
  | .tuesday => .wednesday
  | .wednesday => .thursday
  | .thursday => .friday
  | .friday => .saturday
  | .saturday => .sunday

def Weekday.number : Weekday → ℕ
  | .sunday => 0
  | .monday => 1
  | .tuesday => 2
  | .wednesday => 3
  | .thursday => 4
  | .friday => 5
  | .saturday => 6

@[grind =] def Weekday.later (w : Weekday) : ℕ → Weekday
  | 0 => w
  | n+1 => (w.later n).next

theorem number_next (w : Weekday) : w.next.number = (w.number+1)%7 := by
  cases w <;> rfl

theorem number_later (w : Weekday) (n : ℕ) : (w.later n).number = (w.number+n)%7 := by
  induction n with
  | zero => cases w <;> rfl
  | succ n ih =>
    rw [Weekday.later, number_next, ih]
    omega

def marchYears (y : ℕ) : ℕ := 365*y+y/4-y/100+y/400

/-- Days before a month of a year that begins in March, with the months numbered from one -/
def marchMonths (m : ℕ) : ℕ := 367*m/12-30

theorem leap_day (y : ℕ) : leapDay y+(y+3)/4+(y+399)/400+y/100 =
    y/4+y/400+(y+99)/100+1 := by
  rw [leapDay]
  by_cases h : IsLeap y
  · rw [if_pos h]
    obtain ⟨h4,h100 | h400⟩ := h
    · omega
    · omega
  rw [if_neg h]
  have h4 : y%4 ≠ 0 ∨ y%100 = 0 ∧ y%400 ≠ 0 := by
    rw [IsLeap] at h
    omega
  rcases h4 with h4 | ⟨h100,h400⟩
  · omega
  · omega

theorem days_before_year (y : ℕ) :
    daysBeforeYear y+(y+99)/100 = 365*y+(y+3)/4+(y+399)/400 := by
  induction y with
  | zero => rfl
  | succ y ih =>
    have hleap := leap_day y
    have hstep (n : ℕ) : (y+1+n)/(n+1) = y/(n+1)+1 := by
      rw [Nat.add_assoc, Nat.add_comm 1 n]
      exact Nat.add_div_right y (Nat.succ_pos n)
    have h4 := hstep 3
    have h100 := hstep 99
    have h400 := hstep 399
    simp only [Nat.reduceAdd] at h4 h100 h400
    rw [daysBeforeYear, h4, h100, h400]
    generalize (y+3)/4 = a, (y+399)/400 = b, (y+99)/100 = c, y/4 = a', y/400 = b', y/100 = c'
      at ih hleap ⊢
    omega

theorem march_year_bounds (n : ℕ) : marchYears ((n+2)*400/146097) ≤ n+2 ∧
    n < marchYears ((n+2)*400/146097+1) := by
  generalize hy : (n+2)*400/146097 = y
  simp only [marchYears]
  omega

theorem march_first (y : ℕ) : daysBeforeYear y+(59+leapDay y) = marchYears y+60 := by
  have h := days_before_year y
  have hleap := leap_day y
  have hle : y/100 ≤ 365*y+y/4 := by omega
  rw [marchYears]
  generalize (y+3)/4 = a, (y+399)/400 = b, (y+99)/100 = c, y/4 = a', y/400 = b', y/100 = c'
    at h hleap hle ⊢
  omega

theorem march_next (y : ℕ) : marchYears (y+1) = marchYears y+365+leapDay (y+1) := by
  have h := march_first y
  have h' := march_first (y+1)
  rw [daysBeforeYear] at h'
  omega

theorem day_number_march (y m d : ℕ) (hm : 2 ≤ m) (hm' : m < 12) (hd : 1 ≤ d) :
    dayNumber y m d = marchYears y+marchMonths (m-1)+(d-1)+60 := by
  have h := march_first y
  have hmonth : daysBeforeMonth y m = 59+leapDay y+marchMonths (m-1) := by
    obtain rfl | rfl | rfl | rfl | rfl | rfl | rfl | rfl | rfl | rfl :
        m = 2 ∨ m = 3 ∨ m = 4 ∨ m = 5 ∨ m = 6 ∨ m = 7 ∨ m = 8 ∨ m = 9 ∨ m = 10 ∨ m = 11 := by
      omega
    all_goals
      simp only [daysBeforeMonth, monthLength, marchMonths]
      omega
  rw [dayNumber, hmonth]
  omega

theorem day_number_winter (y m d : ℕ) (hm : m < 2) (hd : 1 ≤ d) :
    dayNumber (y+1) m d = marchYears y+marchMonths (m+11)+(d-1)+60 := by
  have h := march_first y
  have hmonth : daysBeforeMonth (y+1) m+306 = marchMonths (m+11) := by
    obtain rfl | rfl : m = 0 ∨ m = 1 := by omega
    · rfl
    · rfl
  rw [dayNumber, daysBeforeYear]
  omega

theorem month_of_day (y r : ℕ) (hr : r < 365+leapDay (y+1)) :
    marchMonths ((r+31)*10/306) ≤ r ∧
    if 306 ≤ r then 11 ≤ (r+31)*10/306 ∧
        IsDate (y+1) ((r+31)*10/306-11) (r-marchMonths ((r+31)*10/306)+1)
      else 1 ≤ (r+31)*10/306 ∧ (r+31)*10/306 ≤ 10 ∧
        IsDate y ((r+31)*10/306+1) (r-marchMonths ((r+31)*10/306)+1) := by
  have hle := leap_le (y+1)
  generalize hm : (r+31)*10/306 = m
  have hlow : 306*m ≤ (r+31)*10 := by omega
  have hhigh : (r+31)*10 < 306*(m+1) := by omega
  split_ifs with hwinter
  · obtain rfl | rfl : m = 11 ∨ m = 12 := by omega
    · have hmonth : marchMonths 11 = 306 := rfl
      rw [hmonth]
      exact ⟨by omega,le_rfl,by decide,by omega,by simp only [monthLength]; omega⟩
    · have hmonth : marchMonths 12 = 337 := rfl
      rw [hmonth]
      exact ⟨by omega,by decide,by decide,by omega,by simp only [monthLength]; omega⟩
  · obtain rfl | rfl | rfl | rfl | rfl | rfl | rfl | rfl | rfl | rfl : m = 1 ∨ m = 2 ∨ m = 3 ∨
        m = 4 ∨ m = 5 ∨ m = 6 ∨ m = 7 ∨ m = 8 ∨ m = 9 ∨ m = 10 := by omega
    all_goals
      simp only [marchMonths]
      exact ⟨by omega,by omega,by omega,by omega,by omega,by simp only [monthLength]; omega⟩

theorem day_number_epoch : dayNumber 1970 0 1 = 719528 := by
  rw [day_number_winter 1969 0 1 (by decide) le_rfl]
  rfl

end Nginx.Gregorian
