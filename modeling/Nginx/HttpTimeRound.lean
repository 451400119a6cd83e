import Nginx.HttpTimeLaw

/-!
# A time written and read again

The calendar date of a time is found by estimating the year and then the month.
The text of a time has the first of the three layouts, and its value is the time.
-/

set_option autoImplicit false

namespace Nginx.HttpTimeRound
open Nginx.OffT Nginx.Gregorian Nginx.HttpTime Nginx.HttpTimeLaw

/-- The calendar date, the time of the day and the weekday; months are numbered from one. -/
structure IsTime (t : ℤ) (tm : Tm) : Prop where
  mon : 1 ≤ tm.mon
  date : IsDate tm.year (tm.mon-1) tm.mday
  days : epochDay tm.year (tm.mon-1) tm.mday = t/86400
  hour : tm.hour < 24
  min : tm.min < 60
  sec : tm.sec < 60
  seconds : 3600*(tm.hour : ℤ)+60*tm.min+tm.sec = t%86400
  wday : tm.wday = (Weekday.thursday.later (t/86400).toNat).number

theorem unsigned_nat {n : ℕ} (h : n < 2^64) : unsigned n = n := by
  rw [unsigned]
  omega

theorem march_day (n : ℕ) : ∃ y r, n = marchYears y+r ∧ r < 365+leapDay (y+1) ∧
    ((n : ℤ) < marchYears ((n+2)*400/146097) ∧ y+1 = (n+2)*400/146097 ∨
      marchYears ((n+2)*400/146097) ≤ n ∧ y = (n+2)*400/146097) := by
  obtain ⟨hlow,hhigh⟩ := march_year_bounds n
  by_cases h : marchYears ((n+2)*400/146097) ≤ n
  · refine ⟨(n+2)*400/146097,n-marchYears ((n+2)*400/146097),by omega,?_,.inr ⟨h,rfl⟩⟩
    have hnext := march_next ((n+2)*400/146097)
    omega
  obtain ⟨y,hy⟩ : ∃ y, (n+2)*400/146097 = y+1 := by
    refine ⟨(n+2)*400/146097-1,?_⟩
    have hne : (n+2)*400/146097 ≠ 0 := by
      intro h0
      rw [h0] at h
      exact h (Nat.zero_le n)
    omega
  rw [hy] at hlow hhigh h ⊢
  have hnext := march_next y
  exact ⟨y,n-marchYears y,by omega,by omega,.inl ⟨by omega,rfl⟩⟩

def fromMarch (sec min hour wday y r : ℕ) : Tm :=
  let mon := (r+31)*10/306
  if 306 ≤ r then ⟨sec,min,hour,r-marchMonths mon+1,mon-10,y+1,wday⟩
  else ⟨sec,min,hour,r-marchMonths mon+1,mon+2,y,wday⟩

theorem leap_if (z : ℕ) : (if z%4 = 0 ∧ (z%100 ≠ 0 ∨ z%400 = 0) then (1 : ℤ) else 0) =
    leapDay z := by
  rw [leapDay, Nat.cast_ite]
  rfl

theorem month_unsigned {r : ℕ} (hr : r < 366) (hm : marchMonths ((r+31)*10/306) ≤ r) :
    unsigned ((((r : ℤ)+31)*10).tdiv 306) = (r+31)*10/306 ∧
    unsigned ((r : ℤ)-(((367*((r+31)*10/306)/12 : ℕ) : ℤ)-30)+1) =
      r-marchMonths ((r+31)*10/306)+1 := by
  have hdiv : ((((r : ℤ)+31)*10).tdiv 306) = ((r+31)*10/306 : ℕ) := by
    rw [Int.tdiv_eq_ediv_of_nonneg (by omega)]
    omega
  rw [hdiv]
  generalize hmon : (r+31)*10/306 = m at hm ⊢
  have hpos : 1 ≤ m := by omega
  rw [marchMonths] at hm ⊢
  constructor
  · exact unsigned_nat (by omega)
  · have hnat : (r : ℤ)-(((367*m/12 : ℕ) : ℤ)-30)+1 = ((r-(367*m/12-30)+1 : ℕ) : ℤ) := by omega
    rw [hnat]
    exact unsigned_nat (by omega)

theorem gmtime_march (n : ℕ) (h : n < 2^64) : ∃ y r, n/86400+719468 = marchYears y+r ∧
    r < 365+leapDay (y+1) ∧
    ngxGmtime n = fromMarch (n%86400%3600%60) (n%86400%3600/60) (n%86400/3600)
      ((4+n/86400)%7) y r := by
  have hn : unsigned (n : ℤ) = n := unsigned_nat (by omega)
  have hdays : unsigned (((n/86400 : ℕ) : ℤ)-(31+28)+719527) = n/86400+719468 := by
    rw [unsigned]
    omega
  obtain ⟨y,r,hyr,hr,hest⟩ := march_day (n/86400+719468)
  refine ⟨y,r,hyr,hr,?_⟩
  have hd' : n/86400+719468 < 2^50 := by omega
  generalize n/86400+719468 = d at hdays hyr hest hd'
  have hlow := (march_year_bounds d).1
  generalize hz : (d+2)*400/146097 = z at hest hlow
  have hyday : offT ((d : ℤ)-(365*z+(z/4 : ℕ)-(z/100 : ℕ)+(z/400 : ℕ))) = d-marchYears z := by
    rw [← march_years, off_eq]
    · omega
    · omega
  have hle := leap_le (y+1)
  have hyear : (if (d : ℤ)-marchYears z < 0 then (z-1, 365+(leapDay z : ℤ)+(d-marchYears z))
      else (z, (d : ℤ)-marchYears z)) = (y, (r : ℤ)) := by
    obtain ⟨hlt,rfl⟩ | ⟨hge,rfl⟩ := hest
    · have hnext := march_next y
      rw [if_pos (by omega)]
      exact Prod.ext rfl (by simp only; omega)
    · rw [if_neg (by omega)]
      exact Prod.ext rfl (by simp only; omega)
  obtain ⟨hmon,hmday⟩ := month_unsigned (by omega) (month_of_day y r hr).1
  have hcond : (306 : ℤ) ≤ r ↔ 306 ≤ r := by omega
  unfold ngxGmtime
  rw [hn]
  simp only [hdays, Nat.reduceMul, Nat.reduceAdd, Nat.reduceSub, hz, leap_if, hyday, hyear, hmon,
    hmday, hcond]
  rfl

theorem gmtime_time (t : ℤ) (h : 0 ≤ t) (h' : t < 2^63) : IsTime t (ngxGmtime t) := by
  obtain ⟨n,rfl⟩ : ∃ n : ℕ, t = n := ⟨t.toNat,by omega⟩
  obtain ⟨y,r,hyr,hr,htm⟩ := gmtime_march n (by omega)
  obtain ⟨hle,hdate⟩ := month_of_day y r hr
  have hleap := leap_le (y+1)
  have hwday : (4+n/86400)%7 = (Weekday.thursday.later ((n : ℤ)/86400).toNat).number := by
    rw [number_later]
    have hnat : ((n : ℤ)/86400).toNat = n/86400 := by omega
    rw [hnat]
    rfl
  rw [htm, fromMarch]
  by_cases hwinter : 306 ≤ r
  · rw [if_pos hwinter] at hdate ⊢
    obtain ⟨hmon,hdate⟩ := hdate
    have hsub : (r+31)*10/306-10-1 = (r+31)*10/306-11 := by omega
    have hnumber := day_number_winter y ((r+31)*10/306-11) (r-marchMonths ((r+31)*10/306)+1)
      (by omega) (by omega)
    rw [Nat.sub_add_cancel hmon] at hnumber
    exact {
      mon := by simp only; omega
      date := by simp only [hsub]; exact hdate
      days := by
        simp only [hsub]
        rw [epochDay, hnumber, day_number_epoch]
        omega
      hour := by simp only; omega
      min := by simp only; omega
      sec := by simp only; omega
      seconds := by simp only; omega
      wday := hwday }
  rw [if_neg hwinter] at hdate ⊢
  obtain ⟨hmon,hmon',hdate⟩ := hdate
  have hsub : (r+31)*10/306+2-1 = (r+31)*10/306+1 := rfl
  have hnumber := day_number_march y ((r+31)*10/306+1) (r-marchMonths ((r+31)*10/306)+1)
    (by omega) (by omega) (by omega)
  rw [Nat.add_sub_cancel] at hnumber
  exact {
    mon := by simp only; omega
    date := by simp only [hsub]; exact hdate
    days := by
      simp only [hsub]
      rw [epochDay, hnumber, day_number_epoch]
      omega
    hour := by simp only; omega
    min := by simp only; omega
    sec := by simp only; omega
    seconds := by simp only; omega
    wday := hwday }

/-! ## The text -/

theorem decimals_step (k n : ℕ) (p : List UInt8) : decimals (k+1) n p =
    if n/10 = 0 then numeral (n%10)::p else decimals k (n/10) (numeral (n%10)::p) := by
  rw [decimals, numeral, Nat.add_comm 48]

theorem sprintf_two {n : ℕ} (h : n < 100) : sprintfNum 48 2 n = two n := by
  have hlast : n/10/10 = 0 := by omega
  rw [sprintfNum, decimals_step]
  by_cases hn : n/10 = 0
  · simp only [if_pos hn]
    rw [two, hn]
    rfl
  simp only [if_neg hn]
  rw [decimals_step, if_pos hlast, two]
  have hmod : n/10%10 = n/10 := by omega
  rw [hmod]
  rfl

theorem sprintf_four {n : ℕ} (h : 1000 ≤ n) (h' : n < 10000) : sprintfNum 32 4 n = four n := by
  have h1 : n/10 ≠ 0 := by omega
  have h2 : n/10/10 ≠ 0 := by omega
  have h3 : n/10/10/10 ≠ 0 := by omega
  have h4 : n/10/10/10/10 = 0 := by omega
  rw [sprintfNum, decimals_step, if_neg h1, decimals_step, if_neg h2, decimals_step, if_neg h3,
    decimals_step, if_pos h4, four]
  have hthousand : n/10/10/10%10 = n/1000 := by omega
  have hhundred : n/10/10%10 = n/100%10 := by omega
  rw [hthousand, hhundred]
  rfl

theorem week_name {wday : ℕ} (h : wday < 7) : ∀ c ∈ week.getD wday [], c ≠ 44 ∧ c ≠ 32 := by
  match wday, h with
  | 0, _ | 1, _ | 2, _ | 3, _ | 4, _ | 5, _ | 6, _ => simp [week]

def fields (tm : Tm) : Fields := ⟨tm.mday,tm.mon-1,tm.year,tm.hour,tm.min,tm.sec⟩

theorem year_low (t : ℤ) (h : 0 ≤ t) (h' : t < 2^63) : 1000 ≤ (ngxGmtime t).year := by
  obtain ⟨n,rfl⟩ : ∃ n : ℕ, t = n := ⟨t.toNat,by omega⟩
  obtain ⟨y,r,hyr,hr,htm⟩ := gmtime_march n (by omega)
  have hle := leap_le (y+1)
  have hy : 1000 ≤ y := by
    rw [marchYears] at hyr
    omega
  rw [htm, fromMarch]
  split_ifs
  · exact hy.trans (Nat.le_succ y)
  · exact hy

theorem time_written {t : ℤ} {tm : Tm} (h : IsTime t tm) (hy : tm.year ≤ 9999) :
    Written (fields tm) where
  day := by
    have hlast := h.date.last
    have hle := month_length_le tm.year (tm.mon-1)
    exact lt_of_le_of_lt (hlast.trans hle) (by decide)
  month := h.date.month
  year := Nat.lt_succ_of_le hy
  hour := lt_trans h.hour (by decide)
  min := lt_trans h.min (by decide)
  sec := lt_trans h.sec (by decide)

theorem http_time_text (t : ℤ) (h : 0 ≤ t) (h' : t < 2^63) (hy : (ngxGmtime t).year ≤ 9999) :
    DateText (ngxHttpTime t) (fields (ngxGmtime t)) := by
  have htime := gmtime_time t h h'
  have hw := time_written htime hy
  have hwday : (ngxGmtime t).wday < 7 := by
    rw [htime.wday, number_later]
    exact Nat.mod_lt _ (by decide)
  have htext := DateText.rfc822 (week.getD (ngxGmtime t).wday []) [32,71,77,84] 1 _
    (week_name hwday) hw
  have hlayout : ngxHttpTime t = week.getD (ngxGmtime t).wday []++44::(List.replicate 1 32++
      (two (ngxGmtime t).mday++32::(months.getD ((ngxGmtime t).mon-1) []++32::
        (four (ngxGmtime t).year++32::(clockText (ngxGmtime t).hour (ngxGmtime t).min
          (ngxGmtime t).sec++[32,71,77,84]))))) := by
    have hmday := sprintf_two hw.day
    have hhour := sprintf_two hw.hour
    have hmin := sprintf_two hw.min
    have hsec := sprintf_two hw.sec
    have hyear := sprintf_four (year_low t h h') hw.year
    simp only [fields] at hmday hhour hmin hsec hyear
    unfold ngxHttpTime
    simp only [hmday, hhour, hmin, hsec, hyear, clockText, List.append_assoc, List.cons_append, List.nil_append, List.replicate_one]
  rw [hlayout]
  exact htext

/-- A time that is not negative is taken apart into its date, its time of the day and its
weekday; and while its year has four digits, its text is parsed to the time. -/
theorem http_time_round (t : ℤ) (h : 0 ≤ t) (h' : t < 2^63) :
    IsTime t (ngxGmtime t) ∧
      ((ngxGmtime t).year ≤ 9999 → ngxHttpParseTime (ngxHttpTime t) = some t) := by
  have htime := gmtime_time t h h'
  refine ⟨htime,fun hy => ?_⟩
  have hin : InDay (fields (ngxGmtime t)) :=
    ⟨Nat.le_of_lt_succ htime.hour,Nat.le_of_lt_succ htime.min,Nat.le_of_lt_succ htime.sec⟩
  have hlow := year_low t h h'
  have hvalue := (value_date htime.date.month (Nat.lt_succ_of_le hy) hin htime.date.last).mpr
    ⟨Nat.one_le_iff_ne_zero.mp htime.date.first,fun hzero => by
      have h0 : (ngxGmtime t).year = 0 := hzero.1
      omega⟩
  refine (parse_time_some _ t).mpr
    ⟨_,read_date (http_time_text t h h' hy),hin,htime.date.last,?_⟩
  rw [hvalue.2]
  have hdays := htime.days
  have hseconds := htime.seconds
  change 86400*epochDay (ngxGmtime t).year ((ngxGmtime t).mon-1) (ngxGmtime t).mday+
    (3600*((ngxGmtime t).hour : ℤ)+60*(ngxGmtime t).min+(ngxGmtime t).sec) = t
  rw [hdays, hseconds]
  omega

theorem http_time_round_november : IsTime 784111777 (ngxGmtime 784111777) ∧
    ngxGmtime 784111777 = ⟨37,49,8,6,11,1994,0⟩ ∧
    ngxHttpParseTime (ngxHttpTime 784111777) = some 784111777 := by
  have h := http_time_round 784111777 (by decide) (by decide)
  have htm : ngxGmtime 784111777 = ⟨37,49,8,6,11,1994,0⟩ := by decide
  exact ⟨h.1,htm,h.2 (by rw [htm]; decide)⟩

end Nginx.HttpTimeRound
