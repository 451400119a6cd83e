import Nginx.HttpTime

/-!
# What a date string is parsed to

The fields of a date in each of the three layouts are read as written. From a day
of the month that is not zero, and a year from March of the year zero on, what is
checked is a date of the calendar and the value is its number of seconds.
-/

set_option autoImplicit false

namespace Nginx.HttpTimeLaw
open Nginx.OffT Nginx.Gregorian Nginx.HttpTime

/-! ## What is read -/

theorem digit_lt {c : UInt8} (h : IsDigit c) : digit c < 10 := by
  have := UInt8.le_iff_toNat_le.mp h.2
  have hc : (57 : UInt8).toNat = 57 := rfl
  rw [digit]
  omega

variable {p : List UInt8} {n : ℕ}

theorem number2_lt (h : number2 p = some n) : n < 100 := by
  rw [number2] at h
  split_ifs at h with hd
  cases h
  have h0 := digit_lt hd.1
  have h1 := digit_lt hd.2
  omega

theorem number4_lt (h : number4 p = some n) : n < 10000 := by
  rw [number4] at h
  split_ifs at h with hd
  cases h
  have h0 := digit_lt hd.1
  have h1 := digit_lt hd.2.1
  have h2 := digit_lt hd.2.2.1
  have h3 := digit_lt hd.2.2.2
  omega

theorem month_lt {m : ℕ} (h : monthOf p = some m) : m < 12 := by
  rw [monthOf] at h
  split_ifs at h
  all_goals
    cases h
    decide

theorem year_second_lt {fmt : Fmt} {p p' : List UInt8} {year : ℕ}
    (h : yearSecond fmt p = some (year, p')) : year < 10000 := by
  rw [yearSecond] at h
  split_ifs at h
  · obtain ⟨n,hn,he⟩ := Option.map_eq_some_iff.mp h
    cases he
    exact number4_lt hn
  · obtain ⟨n,hn,he⟩ := Option.map_eq_some_iff.mp h
    have := number2_lt hn
    cases he
    split_ifs <;> omega
  · cases h
    decide

theorem year_last_lt {fmt : Fmt} {year year' : ℕ} (h : yearLast fmt year p = some year')
    (hy : year < 10000) : year' < 10000 := by
  rw [yearLast] at h
  by_cases hf : fmt = .isoc
  · rw [if_pos hf] at h
    by_cases hb : byteAt (p.drop 2) 0 ≠ 32
    · simp only [if_pos hb] at h
      cases h
    · simp only [if_neg hb] at h
      exact number4_lt h
  rw [if_neg hf] at h
  cases h
  exact hy

variable {f : Fields}

theorem read_fields_bounds {value : List UInt8} (h : readFields value = some f) :
    f.month < 12 ∧ f.year < 10000 := by
  rw [readFields] at h
  simp only at h
  split_ifs at h
  obtain ⟨⟨fmt,day,p⟩,-,h⟩ := Option.bind_eq_some_iff.mp h
  obtain ⟨month,hmonth,h⟩ := Option.bind_eq_some_iff.mp h
  simp only at h
  split_ifs at h
  obtain ⟨⟨year,p2⟩,hyear,h⟩ := Option.bind_eq_some_iff.mp h
  obtain ⟨⟨day',p3⟩,-,h⟩ := Option.bind_eq_some_iff.mp h
  obtain ⟨⟨⟨hour,min,sec⟩,p4⟩,-,h⟩ := Option.bind_eq_some_iff.mp h
  obtain ⟨year',hlast,rfl⟩ := Option.map_eq_some_iff.mp h
  exact ⟨month_lt hmonth,year_last_lt hlast (year_second_lt hyear)⟩

/-! ## The value -/

def secondOfDay (f : Fields) : ℤ := 3600*f.hour+60*f.min+f.sec

theorem month_days (m : ℕ) (h : 1 ≤ m) (h' : m ≤ 12) :
    367*(m : ℤ)/12-30 = (marchMonths m : ℤ) := by
  rw [marchMonths]
  omega

theorem march_years (y : ℕ) : (marchYears y : ℤ) =
    365*y+(y/4 : ℕ)-(y/100 : ℕ)+(y/400 : ℕ) := by
  rw [marchYears]
  omega

theorem march_years_le (y : ℕ) (hy : y < 10000) : marchYears y < 2^22 := by
  rw [marchYears]
  omega

theorem march_months_le (m : ℕ) (h : m ≤ 12) : marchMonths m ≤ 337 := by
  rw [marchMonths]
  omega

theorem gauss_march (f : Fields) (hm : f.month < 12) (hy : f.year < 10000) (hd : 1 ≤ f.day)
    (hd' : f.day ≤ 31) (ht : secondOfDay f < 86400) (h : 2 ≤ f.month) :
    gauss f = 86400*epochDay f.year f.month f.day+secondOfDay f := by
  have hc : ¬(f.month : ℤ)-1 ≤ 0 := by omega
  have hmonth : ((f.month : ℤ)-1) = ((f.month-1 : ℕ) : ℤ) := by omega
  have hle := march_years_le f.year hy
  have hle' := march_months_le (f.month-1) (by omega)
  rw [epochDay, day_number_epoch, day_number_march f.year f.month f.day h hm hd]
  rw [gauss]
  simp only [if_neg hc]
  rw [hmonth, month_days (f.month-1) (by omega) (by omega), ← march_years]
  rw [secondOfDay] at ht ⊢
  rw [off_eq (by omega) (by omega)]
  omega

theorem gauss_winter (f : Fields) (hm : f.month < 2) (hy : f.year < 10000) (hd : 1 ≤ f.day)
    (hd' : f.day ≤ 31) (ht : secondOfDay f < 86400) (h : f.year ≠ 0) :
    gauss f = 86400*epochDay f.year f.month f.day+secondOfDay f := by
  obtain ⟨y,hyy⟩ : ∃ y, f.year = y+1 := ⟨f.year-1,by omega⟩
  have hc : (f.month : ℤ)-1 ≤ 0 := by omega
  have hmonth : ((f.month : ℤ)-1+12) = ((f.month+11 : ℕ) : ℤ) := by omega
  have hyear : unsigned ((f.year : ℤ)-1) = y := by
    rw [unsigned]
    omega
  have hle := march_years_le y (by omega)
  have hle' := march_months_le (f.month+11) (by omega)
  rw [epochDay, day_number_epoch, hyy, day_number_winter y f.month f.day hm hd]
  rw [gauss]
  simp only [if_pos hc]
  rw [hyear, hmonth, month_days (f.month+11) (by omega) (by omega), ← march_years]
  rw [secondOfDay] at ht ⊢
  rw [off_eq (by omega) (by omega)]
  omega

theorem gauss_zero (f : Fields) (hm : f.month < 2) (hy : f.year = 0) (hd : 1 ≤ f.day) :
    gauss f ≠ 86400*epochDay f.year f.month f.day+secondOfDay f := by
  have hc : (f.month : ℤ)-1 ≤ 0 := by omega
  have hyear : unsigned ((f.year : ℤ)-1) = 18446744073709551615 := by
    rw [hy]
    rfl
  intro h
  rw [gauss] at h
  simp only [if_pos hc] at h
  rw [hyear] at h
  have hmod := congrArg (·%(2:ℤ)^64) h
  obtain ⟨d,hday⟩ : ∃ d, f.day = d+1 := ⟨f.day-1,by omega⟩
  simp only [off_mod] at hmod
  simp only [Nat.reduceDiv, Nat.cast_ofNat] at hmod
  rw [epochDay, day_number_epoch, hy, secondOfDay, hday] at hmod
  obtain hm | hm : f.month = 0 ∨ f.month = 1 := by omega
  · rw [hm, dayNumber, daysBeforeYear, daysBeforeMonth, ← Nat.add_assoc, Nat.add_sub_cancel] at hmod
    push_cast at hmod
    generalize (f.hour : ℤ) = a, (f.min : ℤ) = b, (f.sec : ℤ) = c at hmod
    omega
  · rw [hm, dayNumber, daysBeforeYear, ← Nat.add_assoc, Nat.add_sub_cancel] at hmod
    simp only [daysBeforeMonth, monthLength] at hmod
    push_cast at hmod
    generalize (f.hour : ℤ) = a, (f.min : ℤ) = b, (f.sec : ℤ) = c at hmod
    omega

/-! ## The checks -/

def InDay (f : Fields) : Prop := f.hour ≤ 23 ∧ f.min ≤ 59 ∧ f.sec ≤ 59

theorem in_day_lt (h : InDay f) : secondOfDay f < 86400 := by
  obtain ⟨hh,hm,hs⟩ := h
  rw [secondOfDay]
  omega

theorem month_table (f : Fields) (hm : f.month < 12) : f.day ≤ monthLength f.year f.month ↔
    (f.day = 29 ∧ f.month = 1 ∧ IsLeap f.year) ∨
      (¬(f.day = 29 ∧ f.month = 1) ∧ f.day ≤ mday.getD f.month 0) := by
  by_cases hfeb : f.month = 1
  · have hle := leap_le f.year
    have hone : IsLeap f.year ↔ leapDay f.year = 1 := by
      rw [leapDay]
      split_ifs with h
      · exact ⟨fun _ => rfl,fun _ => h⟩
      · exact ⟨fun hl => absurd hl h,fun h0 => absurd h0 (by decide)⟩
    rw [hfeb, monthLength, hone]
    have hmday : mday.getD 1 0 = 28 := rfl
    omega
  have hmday : monthLength f.year f.month = mday.getD f.month 0 := by
    obtain h | h | h | h | h | h | h | h | h | h | h :
        f.month = 0 ∨ f.month = 2 ∨ f.month = 3 ∨ f.month = 4 ∨ f.month = 5 ∨ f.month = 6 ∨
        f.month = 7 ∨ f.month = 8 ∨ f.month = 9 ∨ f.month = 10 ∨ f.month = 11 := by omega
    all_goals
      rw [h]
      rfl
  rw [hmday]
  simp only [hfeb, and_false, false_and, false_or, not_false_eq_true, true_and]

theorem parse_time_some (value : List UInt8) (v : ℤ) : ngxHttpParseTime value = some v ↔
    ∃ f, readFields value = some f ∧ InDay f ∧ f.day ≤ monthLength f.year f.month ∧
      gauss f = v := by
  rw [ngxHttpParseTime, Option.bind_eq_some_iff]
  refine exists_congr fun f => and_congr_right fun hread => ?_
  rw [month_table f (read_fields_bounds hread).1, InDay, IsLeap]
  by_cases hday : 23 < f.hour ∨ 59 < f.min ∨ 59 < f.sec
  · rw [if_pos hday]
    constructor
    · intro h
      cases h
    · intro h
      omega
  rw [if_neg hday]
  by_cases hfeb : f.day = 29 ∧ f.month = 1
  · rw [if_pos hfeb]
    by_cases hleap : f.year%4 ≠ 0 ∨ f.year%100 = 0 ∧ f.year%400 ≠ 0
    · rw [if_pos hleap]
      constructor
      · intro h
        cases h
      · intro h
        omega
    rw [if_neg hleap, Option.some.injEq]
    constructor
    · intro h
      exact ⟨by omega,by omega,h⟩
    · intro h
      exact h.2.2
  rw [if_neg hfeb]
  by_cases hlast : mday.getD f.month 0 < f.day
  · rw [if_pos hlast]
    constructor
    · intro h
      cases h
    · intro h
      omega
  rw [if_neg hlast, Option.some.injEq]
  constructor
  · intro h
    exact ⟨by omega,by omega,h⟩
  · intro h
    exact h.2.2

/-- A value that is returned is that of a date of the calendar, save for a day zero and
for the first two months of the year zero. -/
theorem value_date (hm : f.month < 12) (hy : f.year < 10000) (ht : InDay f)
    (hlast : f.day ≤ monthLength f.year f.month) :
    (IsDate f.year f.month f.day ∧
      gauss f = 86400*epochDay f.year f.month f.day+secondOfDay f) ↔
    f.day ≠ 0 ∧ ¬(f.year = 0 ∧ f.month < 2) := by
  have hlt := in_day_lt ht
  constructor
  · rintro ⟨hdate,hv⟩
    have hd := hdate.first
    refine ⟨by omega,?_⟩
    rintro ⟨hy0,hwinter⟩
    exact gauss_zero f hwinter hy0 hd hv
  · rintro ⟨hd,hwinter⟩
    have hd' : f.day ≤ 31 := by
      exact hlast.trans (month_length_le f.year f.month)
    refine ⟨⟨hm,by omega,hlast⟩,?_⟩
    by_cases hmarch : 2 ≤ f.month
    · exact gauss_march f hm hy (by omega) hd' hlt hmarch
    · exact gauss_winter f (by omega) hy (by omega) hd' hlt (by omega)

/-! ## The layouts -/

def numeral (n : ℕ) : UInt8 := UInt8.ofNat (48+n)

def two (n : ℕ) : List UInt8 := [numeral (n/10), numeral (n%10)]

def four (n : ℕ) : List UInt8 :=
  [numeral (n/1000), numeral (n/100%10), numeral (n/10%10), numeral (n%10)]

def clockText (hour min sec : ℕ) : List UInt8 := two hour++58::(two min++58::two sec)

/-- The day in the third layout; one digit may stand behind a blank. -/
inductive DayText : ℕ → List UInt8 → Prop
  | two (day : ℕ) (h : day < 100) : DayText day (two day)
  | one (day : ℕ) (h : day < 10) : DayText day [numeral day]
  | blank (day : ℕ) (h : day < 10) : DayText day [32, numeral day]

structure Written (f : Fields) : Prop where
  day : f.day < 100
  month : f.month < 12
  year : f.year < 10000
  hour : f.hour < 100
  min : f.min < 100
  sec : f.sec < 100

/-- The text of a date in one of the three layouts, behind a name without a comma or a
space, with its fields -/
inductive DateText : List UInt8 → Fields → Prop
  | rfc822 (w rest : List UInt8) (k : ℕ) (f : Fields) (hw : ∀ c ∈ w, c ≠ 44 ∧ c ≠ 32)
      (hf : Written f) : DateText (w++44::(List.replicate k 32++(two f.day++32::
        (months.getD f.month []++32::(four f.year++32::(clockText f.hour f.min f.sec++rest)))))) f
  | rfc850 (w rest : List UInt8) (k yy : ℕ) (f : Fields) (hw : ∀ c ∈ w, c ≠ 44 ∧ c ≠ 32)
      (hf : Written f) (hyy : yy < 100) (hyear : f.year = yy+(if yy < 70 then 2000 else 1900)) :
      DateText (w++44::(List.replicate k 32++(two f.day++45::
        (months.getD f.month []++45::(two yy++32::(clockText f.hour f.min f.sec++rest)))))) f
  | asctime (w rest day : List UInt8) (k : ℕ) (f : Fields) (hw : ∀ c ∈ w, c ≠ 44 ∧ c ≠ 32)
      (hf : Written f) (hday : DayText f.day day) :
      DateText (w++32::(List.replicate k 32++(months.getD f.month []++32::(day++32::
        (clockText f.hour f.min f.sec++32::(four f.year++rest)))))) f

theorem numeral_digit : ∀ n < 10, IsDigit (numeral n) ∧ digit (numeral n) = n := by
  decide

theorem numeral_ne_space : ∀ n < 10, numeral n ≠ 32 := by
  decide

theorem number2_two (h : n < 100) (p : List UInt8) : number2 (two n++p) = some n := by
  obtain ⟨h1,h1'⟩ := numeral_digit (n/10) (by omega)
  obtain ⟨h2,h2'⟩ := numeral_digit (n%10) (by omega)
  rw [number2, if_pos ⟨h1,h2⟩]
  change some (digit (numeral (n/10))*10+digit (numeral (n%10))) = some n
  rw [h1', h2']
  congr 1
  omega

theorem number4_four (h : n < 10000) (p : List UInt8) : number4 (four n++p) = some n := by
  obtain ⟨h1,h1'⟩ := numeral_digit (n/1000) (by omega)
  obtain ⟨h2,h2'⟩ := numeral_digit (n/100%10) (by omega)
  obtain ⟨h3,h3'⟩ := numeral_digit (n/10%10) (by omega)
  obtain ⟨h4,h4'⟩ := numeral_digit (n%10) (by omega)
  rw [number4, if_pos ⟨h1,h2,h3,h4⟩]
  change some (digit (numeral (n/1000))*1000+digit (numeral (n/100%10))*100+
    digit (numeral (n/10%10))*10+digit (numeral (n%10))) = some n
  rw [h1', h2', h3', h4']
  congr 1
  omega

theorem month_letters {m : ℕ} (h : m < 12) :
    ∃ a b c, months.getD m [] = [a, b, c] ∧ a ≠ 32 ∧ ∀ p, monthOf (a::b::c::p) = some m := by
  obtain h | h | h | h | h | h | h | h | h | h | h | h : m = 0 ∨ m = 1 ∨ m = 2 ∨ m = 3 ∨
      m = 4 ∨ m = 5 ∨ m = 6 ∨ m = 7 ∨ m = 8 ∨ m = 9 ∨ m = 10 ∨ m = 11 := by omega
  all_goals
    rw [h]
    exact ⟨_,_,_,rfl,by decide,fun p => rfl⟩

theorem skip_spaces (k : ℕ) (h : byteAt p 0 ≠ 32) :
    (List.replicate k 32++p).dropWhile (· = 32) = p := by
  induction k with
  | zero =>
    cases p with
    | nil => rfl
    | cons c p => exact List.dropWhile_cons_of_neg (by simpa [byteAt] using h)
  | succ k ih =>
    rw [List.replicate_succ, List.cons_append, List.dropWhile_cons_of_pos (by decide)]
    exact ih

theorem lead_comma {w p : List UInt8} (hw : ∀ c ∈ w, c ≠ 44 ∧ c ≠ 32) (k : ℕ)
    (h : byteAt p 0 ≠ 32) : lead (w++44::(List.replicate k 32++p)) = (.no, p) := by
  induction w with
  | nil => rw [List.nil_append, lead, if_pos rfl, skip_spaces k h]
  | cons c w ih =>
    obtain ⟨hc,hc'⟩ := hw c List.mem_cons_self
    rw [List.cons_append, lead, if_neg hc, if_neg hc']
    exact ih fun c' hc' => hw c' (List.mem_cons_of_mem c hc')

theorem lead_space {w p : List UInt8} (hw : ∀ c ∈ w, c ≠ 44 ∧ c ≠ 32) (k : ℕ)
    (h : byteAt p 0 ≠ 32) : lead (w++32::(List.replicate k 32++p)) = (.isoc, p) := by
  induction w with
  | nil => rw [List.nil_append, lead, if_neg (by decide), if_pos rfl, skip_spaces k h]
  | cons c w ih =>
    obtain ⟨hc,hc'⟩ := hw c List.mem_cons_self
    rw [List.cons_append, lead, if_neg hc, if_neg hc']
    exact ih fun c' hc' => hw c' (List.mem_cons_of_mem c hc')

theorem clock_text {hour min sec : ℕ} (hh : hour < 100) (hm : min < 100) (hs : sec < 100)
    (rest : List UInt8) : clock (32::(clockText hour min sec++rest)) =
      some ((hour, min, sec), two sec++rest) := by
  have h1 := number2_two hh (58::(two min++58::(two sec++rest)))
  have h2 := number2_two hm (58::(two sec++rest))
  have h3 := number2_two hs rest
  have hspace : ¬(32 : UInt8) ≠ 32 := by decide
  have hcolon : ¬(58 : UInt8) ≠ 58 := by decide
  have hp : clockText hour min sec++rest = two hour++58::(two min++58::(two sec++rest)) := by
    rw [clockText]
    simp only [List.append_assoc, List.cons_append]
  rw [hp, clock]
  change (if (32 : UInt8) ≠ 32 then none else (number2 (two hour++_)).bind _) = _
  rw [if_neg hspace, h1, Option.bind_some]
  change (if (58 : UInt8) ≠ 58 then none else (number2 (two min++_)).bind _) = _
  rw [if_neg hcolon, h2, Option.bind_some]
  change (if (58 : UInt8) ≠ 58 then none else (number2 (two sec++_)).map _) = _
  rw [if_neg hcolon, h3]
  rfl

variable {day : ℕ}

theorem day_rfc822 (h : day < 100) (hp : 17 ≤ p.length) :
    dayFirst .no (two day++32::p) = some (.rfc822, day, p) := by
  have hlen : ¬(32::p).length < 18 := by
    rw [List.length_cons]
    omega
  rw [dayFirst, if_neg (by decide), number2_two h, Option.bind_some]
  change (if (32 : UInt8) = 32 then if (32::p).length < 18 then none else some _ else _) = _
  rw [if_pos rfl, if_neg hlen]
  rfl

theorem day_rfc850 (h : day < 100) (p : List UInt8) :
    dayFirst .no (two day++45::p) = some (.rfc850, day, p) := by
  rw [dayFirst, if_neg (by decide), number2_two h, Option.bind_some]
  rfl

theorem day_asctime {text : List UInt8} (h : DayText day text) (day' : ℕ) (hp : 13 ≤ p.length) :
    daySecond .isoc day' (text++32::p) = some (day, 32::p) := by
  have hlen : ¬(32::p).length < 14 := by
    rw [List.length_cons]
    omega
  have hdigit (n : ℕ) (hn : n < 10) (q : List UInt8) : ¬¬IsDigit (byteAt (numeral n::q) 0) :=
    fun hc => hc (numeral_digit n hn).1
  have hhead (n : ℕ) (hn : n < 10) (q : List UInt8) : ¬byteAt (numeral n::q) 0 = 32 :=
    numeral_ne_space n hn
  have hone (n : ℕ) (hn : n < 10) : (if byteAt (32::p) 0 ≠ 32 then
      if ¬IsDigit (byteAt (32::p) 0) then none
      else some (digit (byteAt (numeral n::32::p) 0)*10+digit (byteAt (32::p) 0), p)
      else some (digit (byteAt (numeral n::32::p) 0), 32::p)) = some (n, 32::p) := by
    rw [if_neg (by rintro hc; exact hc rfl)]
    change some (digit (numeral n), 32::p) = _
    rw [(numeral_digit n hn).2]
  rw [daySecond, if_pos rfl]
  cases h with
  | two h =>
    have hlead : ¬numeral (day/10) = 32 := numeral_ne_space (day/10) (by omega)
    have hsecond : byteAt (numeral (day%10)::32::p) 0 ≠ 32 := numeral_ne_space (day%10) (by omega)
    have hvalue : digit (numeral (day/10))*10+digit (numeral (day%10)) = day := by
      rw [(numeral_digit (day/10) (by omega)).2, (numeral_digit (day%10) (by omega)).2]
      omega
    have hhead' := hhead (day/10) (by omega) (numeral (day%10)::32::p)
    simp only [two, List.cons_append, List.nil_append, if_neg hhead',
      if_neg (hdigit (day/10) (by omega) _), List.drop_succ_cons, List.drop_zero, if_pos hsecond,
      if_neg (hdigit (day%10) (by omega) _)]
    change (some (digit (numeral (day/10))*10+digit (numeral (day%10)), 32::p)).bind _ = _
    rw [hvalue, Option.bind_some, if_neg hlen]
  | one h =>
    simp only [List.cons_append, List.nil_append, if_neg (hhead day h (32::p)),
      if_neg (hdigit day h (32::p)), List.drop_succ_cons, List.drop_zero]
    rw [hone day h, Option.bind_some, if_neg hlen]
  | blank h =>
    have hblank : byteAt (32::numeral day::32::p) 0 = 32 := rfl
    simp only [List.cons_append, List.nil_append, if_pos hblank, List.drop_succ_cons,
      List.drop_zero, if_neg (hdigit day h (32::p))]
    rw [hone day h, Option.bind_some, if_neg hlen]

theorem read_fields_some {value p p2 p3 p4 p5 : List UInt8} {fmt fmt' : Fmt}
    {day month year day' hour min sec year' : ℕ} (h1 : lead value = (fmt, p))
    (hlen : ¬p.length < 18) (h2 : dayFirst fmt p = some (fmt', day, p2))
    (h3 : monthOf p2 = some month)
    (hsep : ¬(fmt' = .rfc822 ∧ byteAt (p2.drop 3) 0 ≠ 32 ∨ fmt' = .rfc850 ∧ byteAt (p2.drop 3) 0 ≠ 45))
    (h4 : yearSecond fmt' ((p2.drop 3).drop 1) = some (year, p3))
    (h5 : daySecond fmt' day p3 = some (day', p4))
    (h6 : clock p4 = some ((hour, min, sec), p5)) (h7 : yearLast fmt' year p5 = some year') :
    readFields value = some ⟨day',month,year',hour,min,sec⟩ := by
  rw [readFields, h1]
  simp only [if_neg hlen]
  rw [h2, Option.bind_some]
  simp only
  rw [h3, Option.bind_some, if_neg hsep, h4, Option.bind_some]
  simp only
  rw [h5, Option.bind_some]
  simp only
  rw [h6, Option.bind_some]
  simp only
  rw [h7, Option.map_some]

theorem two_length (n : ℕ) : (two n).length = 2 := rfl

theorem four_length (n : ℕ) : (four n).length = 4 := rfl

theorem clock_length (hour min sec : ℕ) : (clockText hour min sec).length = 8 := rfl

theorem read_date {text : List UInt8} (h : DateText text f) : readFields text = some f := by
  cases h with
  | rfc822 w rest k f hw hf =>
    obtain ⟨a,b,c,hname,-,hmonth⟩ := month_letters hf.month
    have hday := hf.day
    have hhead (q : List UInt8) : byteAt (two f.day++q) 0 ≠ 32 :=
      numeral_ne_space (f.day/10) (by omega)
    rw [hname]
    have hyear : yearSecond .rfc822 (four f.year++32::(clockText f.hour f.min f.sec++rest)) =
        some (f.year, 32::(clockText f.hour f.min f.sec++rest)) := by
      rw [yearSecond, if_pos rfl, number4_four hf.year]
      rfl
    refine read_fields_some (lead_comma hw k (hhead _)) ?_ (day_rfc822 hday ?_) (hmonth _) ?_
      hyear rfl (clock_text hf.hour hf.min hf.sec rest) rfl
    · simp only [List.length_append, List.length_cons, two_length, four_length, clock_length]
      omega
    · simp only [List.length_append, List.length_cons, List.length_nil, four_length, clock_length]
      omega
    · rintro (⟨-,hc⟩ | ⟨hc,-⟩)
      · exact hc rfl
      · cases hc
  | rfc850 w rest k yy f hw hf hyy hyear =>
    obtain ⟨a,b,c,hname,-,hmonth⟩ := month_letters hf.month
    have hday := hf.day
    have hhead (q : List UInt8) : byteAt (two f.day++q) 0 ≠ 32 :=
      numeral_ne_space (f.day/10) (by omega)
    rw [hname]
    have hsecond : yearSecond .rfc850 (two yy++32::(clockText f.hour f.min f.sec++rest)) =
        some (f.year, 32::(clockText f.hour f.min f.sec++rest)) := by
      rw [yearSecond, if_neg (by decide), if_pos rfl, number2_two hyy, hyear]
      rfl
    refine read_fields_some (lead_comma hw k (hhead _)) ?_ (day_rfc850 hday _) (hmonth _) ?_
      hsecond rfl (clock_text hf.hour hf.min hf.sec rest) rfl
    · simp only [List.length_append, List.length_cons, List.length_nil, two_length, clock_length]
      omega
    · rintro (⟨hc,-⟩ | ⟨-,hc⟩)
      · cases hc
      · exact hc rfl
  | asctime w rest day k f hw hf hday =>
    obtain ⟨a,b,c,hname,ha,hmonth⟩ := month_letters hf.month
    rw [hname]
    refine read_fields_some (lead_space hw k ha) ?_ rfl (hmonth _) ?_ rfl
      (day_asctime hday 32 ?_) (clock_text hf.hour hf.min hf.sec _) ?_
    · simp only [List.length_append, List.length_cons, List.length_nil, four_length, clock_length]
      omega
    · rintro (⟨hc,-⟩ | ⟨hc,-⟩)
      · cases hc
      · cases hc
    · simp only [List.length_append, List.length_cons, four_length, clock_length]
      omega
    · exact number4_four hf.year rest

/-- A date in one of the layouts has its fields read, and a value that is returned belongs
to a date of the calendar and is its number of seconds since the first of January 1970,
but for a day zero and for the two months of the year zero before March. -/
theorem parse_time_dates (value : List UInt8) (f : Fields) :
    (DateText value f → readFields value = some f) ∧
      ∀ v, readFields value = some f → ngxHttpParseTime value = some v →
        ((IsDate f.year f.month f.day ∧
            v = 86400*epochDay f.year f.month f.day+secondOfDay f) ↔
          f.day ≠ 0 ∧ ¬(f.year = 0 ∧ f.month < 2)) := by
  refine ⟨fun h => read_date h,?_⟩
  intro v hread hv
  obtain ⟨f',hread',ht,hlast,rfl⟩ := (parse_time_some value v).mp hv
  obtain rfl : f = f' := Option.some.inj (hread.symm.trans hread')
  obtain ⟨hm,hy⟩ := read_fields_bounds hread
  exact value_date hm hy ht hlast

def november : List UInt8 :=
  [83,117,110,44,32,48,54,32,78,111,118,32,49,57,57,52,32,48,56,58,52,57,58,
    51,55,32,71,77,84]

theorem parse_time_dates_november :
    readFields november = some ⟨6,10,1994,8,49,37⟩ ∧
      ngxHttpParseTime november = some 784111777 ∧ IsDate 1994 10 6 ∧
      784111777 = 86400*epochDay 1994 10 6+secondOfDay ⟨6,10,1994,8,49,37⟩ := by
  have hread : readFields november = some ⟨6,10,1994,8,49,37⟩ := by decide
  have hv : ngxHttpParseTime november = some 784111777 := by decide
  have h := ((parse_time_dates november _).2 _ hread hv).mpr
    ⟨by decide,fun hy => absurd hy.1 (by decide)⟩
  exact ⟨hread,hv,h.1,h.2⟩

/-- `Sun, 00 Nov 1994 08:49:37 GMT` -/
def dayZero : List UInt8 :=
  [83,117,110,44,32,48,48,32,78,111,118,32,49,57,57,52,32,48,56,58,52,57,58,
    51,55,32,71,77,84]

theorem day_zero_accepted :
    DateText dayZero ⟨0,10,1994,8,49,37⟩ ∧ ngxHttpParseTime dayZero = some 783593377 ∧
      ¬IsDate 1994 10 0 := by
  refine ⟨?_,by decide,fun h => absurd h.first (by decide)⟩
  exact DateText.rfc822 [83,117,110] [32,71,77,84] 1 ⟨0,10,1994,8,49,37⟩
    (by simp)
    ⟨by decide,by decide,by decide,by decide,by decide,by decide⟩

end Nginx.HttpTimeLaw
