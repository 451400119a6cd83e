import Nginx.Atoi

/-!
# Sizes, offsets and times

The literals of the configuration. A size has one unit behind its number, a time any number of
parts, each with its own unit. The strings of the configuration are read with the bytes around them.
-/

set_option autoImplicit false

namespace Nginx.ParseUnits
open Nginx.OffT Nginx.Numeral Nginx.Atoi

def ngxParseLargeTime : ℤ := -2

def maxInt32 : ℕ := 0x7fffffff

/-! Sizes and offsets -/

def sizeScale (unit : UInt8) : Option ℕ :=
  if unit = 75 ∨ unit = 107 then some 1024
  else if unit = 77 ∨ unit = 109 then some (1024*1024)
  else none

def offsetScale (unit : UInt8) : Option ℕ :=
  if unit = 75 ∨ unit = 107 then some 1024
  else if unit = 77 ∨ unit = 109 then some (1024*1024)
  else if unit = 71 ∨ unit = 103 then some (1024*1024*1024)
  else none

/-- `len--` on an unsigned number -/
def decrement : ℕ → ℕ
  | 0 => 2^64-1
  | len+1 => len

/-- The body of both, over the byte in front of the string and those behind it -/
def parseScaled (scaleOf : UInt8 → Option ℕ) (before : UInt8) (line behind : List UInt8) : ℤ :=
  let unit := line.getLastD before
  let len := match scaleOf unit with
    | some _ => decrement line.length
    | none => line.length
  let scale := (scaleOf unit).getD 1
  let size := readNumber 10 decimalDigit ((line++behind).take len)
  if size = ngxError then ngxError else offT (size*scale)

def ngxParseSize (before : UInt8) (line behind : List UInt8) : ℤ :=
  parseScaled sizeScale before line behind

def ngxParseOffset (before : UInt8) (line behind : List UInt8) : ℤ :=
  parseScaled offsetScale before line behind

/-! Times -/

inductive Step where
  | start
  | year
  | month
  | week
  | day
  | hour
  | min
  | sec
  | msec
  | last
  deriving DecidableEq, Repr

def Step.rank : Step → ℕ
  | start => 0
  | year => 1
  | month => 2
  | week => 3
  | day => 4
  | hour => 5
  | min => 6
  | sec => 7
  | msec => 8
  | last => 9

/-- What a case of the switch assigns, and whether it takes a second byte -/
structure UnitCase where
  step : Step
  max : ℕ
  scale : ℤ
  two : Bool
  deriving DecidableEq, Repr

def unitCase (isSec : Bool) (step : Step) (ch next : UInt8) : Option UnitCase :=
  if ch = 121 then
    if step.rank > Step.start.rank then none
    else some ⟨.year,maxInt32/(60*60*24*365),60*60*24*365,false⟩
  else if ch = 77 then
    if step.rank ≥ Step.month.rank then none
    else some ⟨.month,maxInt32/(60*60*24*30),60*60*24*30,false⟩
  else if ch = 119 then
    if step.rank ≥ Step.week.rank then none
    else some ⟨.week,maxInt32/(60*60*24*7),60*60*24*7,false⟩
  else if ch = 100 then
    if step.rank ≥ Step.day.rank then none else some ⟨.day,maxInt32/(60*60*24),60*60*24,false⟩
  else if ch = 104 then
    if step.rank ≥ Step.hour.rank then none else some ⟨.hour,maxInt32/(60*60),60*60,false⟩
  else if ch = 109 then
    if next = 115 then
      if isSec = true ∨ step.rank ≥ Step.msec.rank then none else some ⟨.msec,maxInt32,1,true⟩
    else if step.rank ≥ Step.min.rank then none
    else some ⟨.min,maxInt32/60,60,false⟩
  else if ch = 115 then
    if step.rank ≥ Step.sec.rank then none else some ⟨.sec,maxInt32,1,false⟩
  else if ch = 32 then
    if step.rank ≥ Step.sec.rank then none else some ⟨.last,maxInt32,1,false⟩
  else none

structure TimeState where
  value : ℤ
  total : ℤ
  scale : ℤ
  valid : Bool
  step : Step
  deriving DecidableEq, Repr

def plainScale (isSec : Bool) : ℤ := if isSec then 1 else 1000

/-- The loop over the bytes that are left, `behind` being the one behind the string -/
def timeLoop (isSec : Bool) (behind : UInt8) (st : TimeState) : List UInt8 → ℤ
  | [] => if st.valid then offT (st.total+offT (st.value*st.scale)) else ngxError
  | ch::s =>
    if 48 ≤ ch ∧ ch ≤ 57 then
      timeLoop isSec behind
        { st with value := offT (st.value*10+(ch.toNat-48 : ℕ)), valid := true } s
    else
      match unitCase isSec st.step ch (s.headD behind) with
      | none => ngxError
      | some c =>
        let thousands := c.step ≠ .msec ∧ isSec = false
        let scale := if thousands then c.scale*1000 else c.scale
        let max := if thousands then c.max/1000 else c.max
        if unsigned st.value > max then ngxError
        else
          let total := offT (st.total+offT (st.value*scale))
          if unsigned total > maxInt32 then ngxError
          else
            timeLoop isSec behind ⟨0,total,plainScale isSec,st.valid,c.step⟩
              ((if c.two then s.tail else s).dropWhile (· = 32))
termination_by s => s.length
decreasing_by
  · exact Nat.lt_succ_self s.length
  · refine Nat.lt_succ_of_le (le_trans (List.dropWhile_suffix _).length_le ?_)
    split_ifs
    · exact (List.tail_suffix s).length_le
    · exact le_rfl

def ngxParseTime (line : List UInt8) (behind : UInt8) (isSec : Bool) : ℤ :=
  timeLoop isSec behind ⟨0,0,plainScale isSec,false,if isSec then .start else .month⟩ line

/-! What literals denote -/

/-- A returned value is an error or the number that the literal denotes. -/
def Meets (result : ℤ) (Denotes : ℕ → Prop) : Prop :=
  result = ngxError ∨ result = ngxParseLargeTime ∨ ∃ v, Denotes v ∧ result = v

def SizeText (scaleOf : UInt8 → Option ℕ) (s : List UInt8) (n m : ℕ) : Prop :=
  ∃ t ds, t ≠ [] ∧ digits decimalDigit t = some ds ∧ n = value 10 ds ∧
    (s = t ∧ m = 1 ∨ ∃ unit, scaleOf unit = some m ∧ s = t++[unit])

def SizeLiteral (s : List UInt8) (v : ℕ) : Prop := ∃ n m, SizeText offsetScale s n m ∧ v = n*m

/-- The numbers that one of the two readers takes are refused for their sign, or what is denoted
fits. -/
def ScaledFits (scaleOf : UInt8 → Option ℕ) (s : List UInt8) : Prop :=
  (∀ n m, SizeText scaleOf s n m → 2^63 ≤ n%2^64) ∨ ∃ v < 2^63, SizeLiteral s v

/-- What ends a number in a time: a unit, a blank in place of one, or nothing -/
inductive TimeUnit where
  | year
  | month
  | week
  | day
  | hour
  | min
  | sec
  | msec
  | blank
  | none
  deriving DecidableEq, Repr

namespace TimeUnit

def text : TimeUnit → List UInt8
  | year => [121]
  | month => [77]
  | week => [119]
  | day => [100]
  | hour => [104]
  | min => [109]
  | sec => [115]
  | msec => [109,115]
  | blank => [32]
  | none => []

def step : TimeUnit → Step
  | year => .year
  | month => .month
  | week => .week
  | day => .day
  | hour => .hour
  | min => .min
  | sec => .sec
  | msec => .msec
  | blank => .last
  | none => .last

def seconds : TimeUnit → ℕ
  | year => 60*60*24*365
  | month => 60*60*24*30
  | week => 60*60*24*7
  | day => 60*60*24
  | hour => 60*60
  | min => 60
  | _ => 1

def scale (isSec : Bool) (u : TimeUnit) : ℕ :=
  if u = msec ∨ isSec = true then u.seconds else u.seconds*1000

def limit (isSec : Bool) (u : TimeUnit) : ℕ :=
  if u = msec ∨ isSec = true then maxInt32/u.seconds else maxInt32/u.seconds/1000

def Admitted (isSec : Bool) (step : Step) : TimeUnit → Prop
  | year => step = .start
  | msec => isSec = false ∧ step.rank < Step.msec.rank
  | blank => step.rank < Step.sec.rank
  | none => True
  | u => step.rank < u.step.rank

end TimeUnit

structure Component where
  digits : List ℕ
  unit : TimeUnit
  deriving DecidableEq, Repr

def Component.number (c : Component) : ℕ := value 10 c.digits

/-- A string as numbers, each of any number of digits, with what ends them. Blanks may follow. -/
inductive Reads : List UInt8 → List Component → Prop
  | nil : Reads [] []
  | last {t : List UInt8} {ds : List ℕ} (hne : t ≠ []) (hd : digits decimalDigit t = some ds) :
    Reads t [⟨ds,.none⟩]
  | unit {t blanks rest : List UInt8} {ds : List ℕ} {u : TimeUnit} {cs : List Component}
    (hd : digits decimalDigit t = some ds) (hu : u ≠ .none)
    (hmin : u = .min → (blanks++rest).head? ≠ some 115)
    (hblanks : ∀ ch ∈ blanks, ch = 32) (hrest : rest.head? ≠ some 32) (h : Reads rest cs) :
    Reads (t++(u.text++(blanks++rest))) (⟨ds,u⟩::cs)

def denotes (isSec : Bool) (cs : List Component) : ℕ :=
  (cs.map fun c => c.number*c.unit.scale isSec).sum

/-- Every number has a digit, the units descend, a number without a unit is the last, and there are
no milliseconds where seconds are counted. -/
structure WellFormed (isSec : Bool) (cs : List Component) : Prop where
  some : cs ≠ []
  digits : ∀ c ∈ cs, c.digits ≠ []
  descending : cs.IsChain fun c c' => c.unit.step.rank < c'.unit.step.rank
  msec : isSec = true → ∀ c ∈ cs, c.unit ≠ .msec

def TimeLiteral (isSec : Bool) (s : List UInt8) (v : ℕ) : Prop :=
  ∃ cs, Reads s cs ∧ WellFormed isSec cs ∧ v = denotes isSec cs

/-- What is left of the numbers in 64 bits passes the checks from a step and a total on. -/
def Passes (isSec : Bool) : Step → ℕ → List Component → Prop
  | _, _, [] => True
  | step, total, c::cs => c.unit.Admitted isSec step ∧ (c.unit ≠ .none →
      c.number%2^64 ≤ c.unit.limit isSec ∧
      total+c.number%2^64*c.unit.scale isSec ≤ maxInt32 ∧
      Passes isSec c.unit.step (total+c.number%2^64*c.unit.scale isSec) cs)

def TimePasses (isSec : Bool) (s : List UInt8) : Prop :=
  ∃ cs, Reads s cs ∧ (∃ c ∈ cs, c.digits ≠ []) ∧
    Passes isSec (if isSec then .start else .month) 0 cs

/-- The string is refused, or it looks like an error when its number is cut to 64 bits, or it is a
literal that fits. -/
def TimeFits (isSec : Bool) (s : List UInt8) : Prop :=
  ¬TimePasses isSec s ∨
    (∃ cs, Reads s cs ∧ (denotes isSec cs%2^64 = 2^64-1 ∨ denotes isSec cs%2^64 = 2^64-2)) ∨
    ∃ v < 2^63, TimeLiteral isSec s v

/-! The readers of sizes -/

section Scaled

variable {scaleOf : UInt8 → Option ℕ} {before unit : UInt8} {line tail : List UInt8} {n m : ℕ}

theorem offset_scale_form (h : offsetScale unit = some m) :
    decimalDigit unit = none ∧ m%1024 = 0 := by
  rw [offsetScale] at h
  split_ifs at h with hk hm hg
  · obtain rfl := Option.some.inj h
    rcases hk with rfl|rfl <;> decide
  · obtain rfl := Option.some.inj h
    rcases hm with rfl|rfl <;> decide
  · obtain rfl := Option.some.inj h
    rcases hg with rfl|rfl <;> decide

theorem size_scale_offset (h : sizeScale unit = some m) : offsetScale unit = some m := by
  rw [sizeScale] at h
  rw [offsetScale]
  split_ifs at h ⊢
  · exact h
  · exact h

theorem digits_unit (t : List UInt8) (h : decimalDigit unit = none) :
    digits decimalDigit (t++[unit]) = none := by
  rw [digits_append, digits, h]
  cases digits decimalDigit t <;> rfl

theorem scaled_empty : parseScaled scaleOf before [] (0::tail) = ngxError := by
  rw [parseScaled]
  cases scaleOf ([].getLastD before) with
  | none => rfl
  | some m => rfl

theorem scaled_unit (h : scaleOf unit = some m) :
    parseScaled scaleOf before (line++[unit]) tail =
      if readNumber 10 decimalDigit line = ngxError then ngxError
      else offT (readNumber 10 decimalDigit line*m) := by
  have hunit : (line++[unit]).getLastD before = unit := by simp
  have htext : ((line++[unit])++tail).take line.length = line := by simp
  rw [parseScaled, hunit, h]
  simp only [List.length_append, List.length_singleton, decrement, htext, Option.getD_some]

theorem scaled_plain (h : scaleOf unit = none) :
    parseScaled scaleOf before (line++[unit]) tail =
      if readNumber 10 decimalDigit (line++[unit]) = ngxError then ngxError
      else offT (readNumber 10 decimalDigit (line++[unit])) := by
  have hunit : (line++[unit]).getLastD before = unit := by simp
  have htext : ((line++[unit])++tail).take (line++[unit]).length = line++[unit] :=
    List.take_left
  rw [parseScaled, hunit, h]
  simp only [htext, Option.getD_none, Nat.cast_one, mul_one]

theorem read_digits {ds : List ℕ} (hne : line ≠ []) (h : digits decimalDigit line = some ds) :
    readNumber 10 decimalDigit line =
      if 2^63 ≤ value 10 ds%2^64 then ngxError else offT (value 10 ds) := by
  rw [read_number, if_neg hne, h, Option.map_some, Option.elim_some]
  split_ifs with hlarge
  · exact (check_error _).mpr hlarge
  · have hsign := off_value (value 10 ds)
    rw [checkSign, if_neg (by omega)]

theorem read_none (h : digits decimalDigit line = none) :
    readNumber 10 decimalDigit line = ngxError := by
  rw [read_number, h]
  split_ifs <;> rfl

theorem read_scaled {ds : List ℕ} (hne : line ≠ []) (h : digits decimalDigit line = some ds) :
    (if readNumber 10 decimalDigit line = ngxError then ngxError
      else offT (readNumber 10 decimalDigit line*m)) =
      if 2^63 ≤ value 10 ds%2^64 then ngxError else offT ((value 10 ds*m : ℕ)) := by
  rw [read_digits hne h]
  by_cases hlarge : 2^63 ≤ value 10 ds%2^64
  · rw [if_pos hlarge, if_pos rfl, if_pos hlarge]
  have hsign := off_value (value 10 ds)
  have hne : offT (value 10 ds) ≠ ngxError := by
    rw [ngxError]
    omega
  rw [if_neg hlarge, if_neg hne, if_neg hlarge, mul_comm, off_mul_off, mul_comm]
  push_cast
  rfl

theorem scaled_text (hscale : ∀ u k, scaleOf u = some k → offsetScale u = some k)
    (h : SizeText scaleOf line n m) : parseScaled scaleOf before line tail =
      if 2^63 ≤ n%2^64 then ngxError else offT ((n*m : ℕ)) := by
  obtain ⟨t,ds,hne,hds,rfl,⟨rfl,rfl⟩|⟨u,hu,rfl⟩⟩ := h
  · obtain ⟨front,last,rfl⟩ := List.eq_nil_or_concat line |>.resolve_left hne
    rw [List.concat_eq_append] at hds hne ⊢
    have hlast : scaleOf last = none := by
      rw [Option.eq_none_iff_forall_ne_some]
      intro k hk
      rw [digits_unit front (offset_scale_form (hscale last k hk)).1] at hds
      cases hds
    have hread := read_scaled (m := 1) hne hds
    rw [Nat.cast_one, mul_one, mul_one] at hread
    rw [scaled_plain hlast, mul_one]
    exact hread
  · rw [scaled_unit hu]
    exact read_scaled hne hds

theorem scaled_none (h : ∀ n m, ¬SizeText scaleOf line n m) :
    parseScaled scaleOf before line (0::tail) = ngxError := by
  rcases List.eq_nil_or_concat line with rfl|⟨front,last,rfl⟩
  · exact scaled_empty
  rw [List.concat_eq_append] at h ⊢
  cases hlast : scaleOf last with
  | none =>
    rw [scaled_plain hlast, read_none, if_pos rfl]
    refine Option.eq_none_iff_forall_ne_some.mpr fun ds hds => ?_
    exact h _ _ ⟨_,ds,by simp,hds,rfl,Or.inl ⟨rfl,rfl⟩⟩
  | some k =>
    rw [scaled_unit hlast]
    have hread : readNumber 10 decimalDigit front = ngxError := by
      by_cases hfront : front = []
      · rw [hfront]
        rfl
      · refine read_none (Option.eq_none_iff_forall_ne_some.mpr fun ds hds => ?_)
        exact h _ _ ⟨front,ds,hfront,hds,rfl,Or.inr ⟨last,hlast,rfl⟩⟩
    rw [hread, if_pos rfl]

theorem text_scale (hscale : ∀ u k, scaleOf u = some k → offsetScale u = some k)
    (h : SizeText scaleOf line n m) : m = 1 ∨ m%1024 = 0 := by
  obtain ⟨t,ds,hne,hds,rfl,⟨rfl,rfl⟩|⟨u,hu,rfl⟩⟩ := h
  · exact Or.inl rfl
  · exact Or.inr (offset_scale_form (hscale u m hu)).2

theorem scaled_known (hscale : ∀ u k, scaleOf u = some k → offsetScale u = some k)
    (h : SizeText offsetScale line n m) : SizeText scaleOf line n m ∨
      parseScaled scaleOf before line tail = ngxError := by
  obtain ⟨t,ds,hne,hds,rfl,hplain|⟨u,hu,rfl⟩⟩ := h
  · exact Or.inl ⟨t,ds,hne,hds,rfl,Or.inl hplain⟩
  · cases hknown : scaleOf u with
    | none =>
      refine Or.inr ?_
      rw [scaled_plain hknown, read_none (digits_unit t (offset_scale_form hu).1), if_pos rfl]
    | some k =>
      have hk := hscale u k hknown
      rw [hu] at hk
      obtain rfl := Option.some.inj hk
      exact Or.inl ⟨t,ds,hne,hds,rfl,Or.inr ⟨u,hknown,rfl⟩⟩

theorem scaled_literal (hscale : ∀ u k, scaleOf u = some k → offsetScale u = some k) {v : ℕ}
    (hv : v < 2^63) (h : SizeLiteral line v) : parseScaled scaleOf before line tail = ngxError ∨
      parseScaled scaleOf before line tail = v := by
  obtain ⟨n,m,htext,rfl⟩ := h
  have hknown : SizeText scaleOf line n m ∨ parseScaled scaleOf before line tail = ngxError :=
    scaled_known hscale htext
  rcases hknown with htext|herror
  · rw [scaled_text hscale htext]
    split_ifs
    · exact Or.inl rfl
    · exact Or.inr (off_eq (by omega) (by omega))
  · exact Or.inl herror

theorem scaled_no_error (hm : m = 1 ∨ m%1024 = 0) (hn : n%2^64 < 2^63) :
    offT ((n*m : ℕ)) ≠ ngxError ∧ offT ((n*m : ℕ)) ≠ ngxParseLargeTime := by
  rw [ngxError, ngxParseLargeTime]
  rcases hm with rfl|hm
  · rw [mul_one]
    have hsign := off_value n
    omega
  have hmod := off_mod ((n*m : ℕ) : ℤ)
  have hdvd : n*m%1024 = 0 := Nat.mul_mod_mod n m 1024 ▸ by rw [hm, mul_zero, Nat.zero_mod]
  omega

theorem scaled_meets (hscale : ∀ u k, scaleOf u = some k → offsetScale u = some k) :
    Meets (parseScaled scaleOf before line (0::tail)) (SizeLiteral line) ↔
      ScaledFits scaleOf line := by
  constructor
  · intro h
    by_cases hpass : ∀ n m, SizeText scaleOf line n m → 2^63 ≤ n%2^64
    · exact Or.inl hpass
    push Not at hpass
    obtain ⟨n,m,htext,hn⟩ := hpass
    have hno := scaled_no_error (text_scale hscale htext) hn
    rw [Meets, scaled_text hscale htext, if_neg (by omega)] at h
    obtain ⟨v,hv,heq⟩ := (h.resolve_left hno.1).resolve_left hno.2
    have hrange := off_range ((n*m : ℕ) : ℤ)
    exact Or.inr ⟨v,by omega,hv⟩
  · rintro (hpass|⟨v,hv,hliteral⟩)
    · refine Or.inl ?_
      by_cases htext : ∃ n m, SizeText scaleOf line n m
      · obtain ⟨n,m,htext⟩ := htext
        rw [scaled_text hscale htext, if_pos (hpass n m htext)]
      · push Not at htext
        exact scaled_none htext
    · rcases scaled_literal hscale hv hliteral with h|h
      · exact Or.inl h
      · exact Or.inr (Or.inr ⟨v,hliteral,h⟩)

end Scaled

/-! The reader of times -/

section Times

variable {isSec : Bool} {behind : UInt8} {s t blanks rest : List UInt8} {ds : List ℕ}

theorem decimal_digit_some {ch : UInt8} {d : ℕ} (h : decimalDigit ch = some d) :
    (48 ≤ ch ∧ ch ≤ 57) ∧ d = ch.toNat-48 := by
  rw [decimalDigit] at h
  split_ifs at h with hrange
  obtain rfl := Option.some.inj h
  rw [not_or, UInt8.not_lt, UInt8.not_lt] at hrange
  exact ⟨hrange,rfl⟩

theorem time_digits (st : TimeState) (h : digits decimalDigit t = some ds) :
    timeLoop isSec behind st (t++s) = timeLoop isSec behind
      { st with value := accumulate 10 st.value ds, valid := st.valid || decide (ds ≠ []) } s := by
  induction t generalizing st ds with
  | nil =>
    obtain rfl := Option.some.inj h
    simp [accumulate]
  | cons ch t ih =>
    obtain ⟨d,hd,h⟩ := Option.bind_eq_some_iff.mp h
    obtain ⟨es,hes,rfl⟩ := Option.map_eq_some_iff.mp h
    obtain ⟨hrange,rfl⟩ := decimal_digit_some hd
    rw [List.cons_append, timeLoop, if_pos hrange, ih _ hes]
    simp [accumulate]

structure Switch (isSec : Bool) (step : Step) (u : TimeUnit) (x : List UInt8) (ch : UInt8)
    (more : List UInt8) : Prop where
  text : u.text = ch::more
  noDigit : ¬(48 ≤ ch ∧ ch ≤ 57)
  taken : u.Admitted isSec step → unitCase isSec step ch ((more++x).headD 0) =
    some ⟨u.step,maxInt32/u.seconds,u.seconds,decide (u = .msec)⟩
  refused : ¬u.Admitted isSec step → unitCase isSec step ch ((more++x).headD 0) = none
  left : (if decide (u = .msec) then (more++x).tail else more++x) = x

variable {step : Step} {u : TimeUnit} {n : ℕ}

theorem unit_compared {x : List UInt8} {ch : UInt8} {c : UnitCase} (htext : u.text = [ch])
    (hdigit : ¬(48 ≤ ch ∧ ch ≤ 57)) (hadmitted : u.Admitted isSec step ↔ step.rank < n)
    (hcase : unitCase isSec step ch (x.headD 0) = if step.rank ≥ n then none else some c)
    (hc : c = ⟨u.step,maxInt32/u.seconds,u.seconds,decide (u = .msec)⟩) (hu : u ≠ .msec) :
    Switch isSec step u x ch [] := by
  refine ⟨htext,hdigit,fun h => ?_,fun h => ?_,if_neg (by simpa using hu)⟩
  · rw [List.nil_append, hcase, if_neg (Nat.not_le.mpr (hadmitted.mp h)), hc]
  · rw [List.nil_append, hcase, if_pos (Nat.not_lt.mp fun hlt => h (hadmitted.mpr hlt))]

theorem unit_switch {x : List UInt8} (hu : u ≠ .none) (hmin : u = .min → x.head? ≠ some 115) :
    ∃ ch more, Switch isSec step u x ch more := by
  cases u with
  | none => exact absurd rfl hu
  | year =>
    refine ⟨121,[],unit_compared (n := 1) rfl (by decide) ?_ ?_ rfl (by decide)⟩
    · cases step <;> simp [TimeUnit.Admitted, Step.rank]
    · cases step <;> rfl
  | month => exact ⟨77,[],unit_compared rfl (by decide) Iff.rfl rfl rfl (by decide)⟩
  | week => exact ⟨119,[],unit_compared rfl (by decide) Iff.rfl rfl rfl (by decide)⟩
  | day => exact ⟨100,[],unit_compared rfl (by decide) Iff.rfl rfl rfl (by decide)⟩
  | hour => exact ⟨104,[],unit_compared rfl (by decide) Iff.rfl rfl rfl (by decide)⟩
  | min =>
    have hnext : ¬x.headD 0 = 115 := by
      cases x with
      | nil => decide
      | cons ch x => exact fun h => hmin rfl (congrArg some h)
    refine ⟨109,[],unit_compared rfl (by decide) Iff.rfl ?_ rfl (by decide)⟩
    exact if_neg hnext
  | sec => exact ⟨115,[],unit_compared rfl (by decide) Iff.rfl rfl rfl (by decide)⟩
  | msec =>
    have hcase : unitCase isSec step 109 (([115]++x).headD 0) =
        if isSec = true ∨ step.rank ≥ Step.msec.rank then none
        else some ⟨.msec,maxInt32,1,true⟩ := rfl
    refine ⟨109,[115],rfl,by decide,fun h => ?_,fun h => ?_,rfl⟩
    · rw [hcase, if_neg (not_or.mpr ⟨by simp [h.1],Nat.not_le.mpr h.2⟩)]
      rfl
    · rw [hcase, if_pos]
      by_contra hor
      rw [not_or] at hor
      exact h ⟨by simpa using hor.1,Nat.not_le.mp hor.2⟩
  | blank => exact ⟨32,[],unit_compared rfl (by decide) Iff.rfl rfl rfl (by decide)⟩

theorem limit_scale (isSec : Bool) (u : TimeUnit) : u.limit isSec*u.scale isSec ≤ maxInt32 := by
  cases u <;> cases isSec <;> decide

theorem blanks_dropped (hblanks : ∀ ch ∈ blanks, ch = 32) (hrest : rest.head? ≠ some 32) :
    (blanks++rest).dropWhile (· = 32) = rest := by
  rw [List.dropWhile_append_of_pos fun ch h => decide_eq_true (hblanks ch h)]
  cases rest with
  | nil => rfl
  | cons ch rest => exact List.dropWhile_cons_of_neg fun h => hrest (by simpa using h)

theorem thousands (isSec : Bool) (u : TimeUnit) :
    (if u.step ≠ .msec ∧ isSec = false then (u.seconds : ℤ)*1000 else u.seconds) =
      u.scale isSec ∧
    (if u.step ≠ .msec ∧ isSec = false then maxInt32/u.seconds/1000 else maxInt32/u.seconds) =
      u.limit isSec := by
  cases u <;> cases isSec <;> exact ⟨rfl,rfl⟩

theorem unsigned_off (n : ℕ) : unsigned (offT n) = n%2^64 := by
  rw [unsigned, off_mod]
  omega

theorem off_small (h : n%2^64 < 2^63) : offT n = (n%2^64 : ℕ) := by
  have hsign := off_value n
  omega

theorem number_small (h : n%2^64 ≤ u.limit isSec) : offT n = (n%2^64 : ℕ) := by
  refine off_small ?_
  have hle : u.limit isSec ≤ maxInt32 := by
    cases u <;> cases isSec <;> decide
  rw [maxInt32] at hle
  omega

theorem total_next {total r k : ℕ} (htotal : total ≤ maxInt32) (hproduct : r*k ≤ maxInt32) :
    offT (total+offT ((r : ℤ)*k)) = (total+r*k : ℕ) ∧
      unsigned ((total+r*k : ℕ) : ℤ) = total+r*k := by
  rw [maxInt32] at htotal hproduct
  rw [add_comm, off_off_add, add_comm, ← Nat.cast_mul, ← Nat.cast_add]
  refine ⟨off_eq (by omega) (by omega),?_⟩
  rw [unsigned]
  omega

theorem time_unit {valid : Bool} {n total : ℕ} (hu : u ≠ .none)
    (hmin : u = .min → (blanks++rest).head? ≠ some 115) (hblanks : ∀ ch ∈ blanks, ch = 32)
    (hrest : rest.head? ≠ some 32) (htotal : total ≤ maxInt32) {here : ℤ}
    (hhere : here = timeLoop isSec 0 ⟨offT n,total,plainScale isSec,valid,step⟩
      (u.text++(blanks++rest))) :
    (u.Admitted isSec step ∧ n%2^64 ≤ u.limit isSec ∧
        total+n%2^64*u.scale isSec ≤ maxInt32 →
      here = timeLoop isSec 0
        ⟨0,(total+n%2^64*u.scale isSec : ℕ),plainScale isSec,valid,u.step⟩ rest) ∧
    (¬(u.Admitted isSec step ∧ n%2^64 ≤ u.limit isSec ∧
        total+n%2^64*u.scale isSec ≤ maxInt32) → here = ngxError) := by
  have hswitch : ∃ ch more, Switch isSec step u (blanks++rest) ch more := unit_switch hu hmin
  obtain ⟨ch,more,hswitch⟩ := hswitch
  rw [hswitch.text, List.cons_append, timeLoop, if_neg hswitch.noDigit] at hhere
  by_cases hadmitted : u.Admitted isSec step
  · obtain ⟨hscale,hmax⟩ := thousands isSec u
    simp only [hswitch.taken hadmitted, hscale, hmax, hswitch.left,
      blanks_dropped hblanks hrest, unsigned_off] at hhere
    by_cases hlimit : n%2^64 ≤ u.limit isSec
    · rw [if_neg (Nat.not_lt.mpr hlimit)] at hhere
      have hproduct : n%2^64*u.scale isSec ≤ maxInt32 :=
        (Nat.mul_le_mul_right _ hlimit).trans (limit_scale isSec u)
      obtain ⟨hsum,hunsigned⟩ := total_next htotal hproduct
      rw [number_small hlimit, hsum, hunsigned] at hhere
      by_cases hle : total+n%2^64*u.scale isSec ≤ maxInt32
      · rw [if_neg (Nat.not_lt.mpr hle)] at hhere
        exact ⟨fun _ => hhere,fun h => absurd ⟨hadmitted,hlimit,hle⟩ h⟩
      · rw [if_pos (Nat.not_le.mp hle)] at hhere
        exact ⟨fun h => absurd h.2.2 hle,fun _ => hhere⟩
    · rw [if_pos (Nat.not_le.mp hlimit)] at hhere
      exact ⟨fun h => absurd h.2.1 hlimit,fun _ => hhere⟩
  · simp only [hswitch.refused hadmitted] at hhere
    exact ⟨fun h => absurd h.1 hadmitted,fun _ => hhere⟩

theorem off_cut (n k c e : ℕ) :
    offT ((c+n%2^64*k+e : ℕ)) = offT ((c+(n*k+e) : ℕ)) := by
  have hproduct : offT ((n%2^64*k : ℕ)) = offT ((n*k : ℕ)) := by
    push_cast
    exact Int.emod_mul_bmod n (2^64)
  have hsplit (m : ℕ) : ((c+m+e : ℕ) : ℤ) = m+((c+e : ℕ) : ℤ) := by
    push_cast
    ring
  rw [← Nat.add_assoc, hsplit, hsplit, ← off_off_add, hproduct, off_off_add]

theorem has_digit (ds : List ℕ) (u : TimeUnit) (cs : List Component)
    (valid : Bool) : (valid = true ∨ ∃ c ∈ ⟨ds,u⟩::cs, c.digits ≠ []) ↔
      ((valid || decide (ds ≠ [])) = true ∨ ∃ c ∈ cs, c.digits ≠ []) := by
  simp only [List.mem_cons, exists_eq_or_imp, Bool.or_eq_true, decide_eq_true_eq, or_assoc]

theorem denotes_cons (isSec : Bool) (c : Component) (cs : List Component) :
    denotes isSec (c::cs) = c.number*c.unit.scale isSec+denotes isSec cs :=
  List.sum_cons

theorem time_reads {cs : List Component} (h : Reads s cs) {valid : Bool} {total : ℕ}
    (htotal : total ≤ maxInt32) {here : ℤ}
    (hhere : here = timeLoop isSec 0 ⟨0,total,plainScale isSec,valid,step⟩ s) :
    ((valid = true ∨ ∃ c ∈ cs, c.digits ≠ []) ∧ Passes isSec step total cs →
      here = offT ((total+denotes isSec cs : ℕ))) ∧
    (¬((valid = true ∨ ∃ c ∈ cs, c.digits ≠ []) ∧ Passes isSec step total cs) →
      here = ngxError) := by
  induction h generalizing step valid total with
  | nil =>
    have hnone : ¬∃ c ∈ ([] : List Component), c.digits ≠ [] := by simp
    rw [timeLoop] at hhere
    by_cases hvalid : valid = true
    · rw [if_pos hvalid, zero_mul] at hhere
      exact ⟨fun _ => hhere,fun h => absurd ⟨Or.inl hvalid,trivial⟩ h⟩
    · rw [if_neg hvalid] at hhere
      exact ⟨fun h => absurd h.1 (not_or.mpr ⟨hvalid,hnone⟩),fun _ => hhere⟩
  | @last t ds hne hd =>
    have hvalid : ds ≠ [] := by
      intro hnil
      rw [hnil] at hd
      exact hne (List.length_eq_zero_iff.mp (digits_length hd).symm)
    refine ⟨fun _ => ?_,fun h => absurd ⟨Or.inr ⟨_,List.mem_singleton_self _,hvalid⟩,?_⟩ h⟩
    · rw [hhere, ← List.append_nil t, time_digits _ hd, timeLoop, if_pos (by simp [hvalid]),
        accumulate_value]
      have hscale : plainScale isSec = TimeUnit.none.scale isSec := by cases isSec <;> rfl
      rw [hscale, mul_comm, off_mul_off, add_comm, off_off_add, denotes_cons]
      congr 1
      rw [show denotes isSec [] = 0 from rfl, Component.number]
      push_cast
      ring
    · exact ⟨trivial,fun h => absurd rfl h⟩
  | @unit t blanks rest ds u cs hd hu hmin hblanks hrest h ih =>
    rw [time_digits _ hd, accumulate_value] at hhere
    rw [has_digit]
    obtain ⟨hpass,hfail⟩ := time_unit hu hmin hblanks hrest htotal hhere
    by_cases hchecks : u.Admitted isSec step ∧ value 10 ds%2^64 ≤ u.limit isSec ∧
        total+value 10 ds%2^64*u.scale isSec ≤ maxInt32
    · have hpasses : Passes isSec step total (⟨ds,u⟩::cs) ↔
          Passes isSec u.step (total+value 10 ds%2^64*u.scale isSec) cs :=
        ⟨fun h => (h.2 hu).2.2,fun h => ⟨hchecks.1,fun _ => ⟨hchecks.2.1,hchecks.2.2,h⟩⟩⟩
      obtain ⟨hvalue,herror⟩ := ih hchecks.2.2 (hpass hchecks)
      rw [hpasses]
      refine ⟨fun h => ?_,herror⟩
      rw [hvalue h, denotes_cons, Component.number]
      exact off_cut _ _ _ _
    · exact ⟨fun h => absurd ⟨h.2.1,(h.2.2 hu).1,(h.2.2 hu).2.1⟩ hchecks,fun _ => hfail hchecks⟩

theorem digits_range (h : ∀ ch ∈ t, 48 ≤ ch ∧ ch ≤ 57) :
    ∃ ds, digits decimalDigit t = some ds := by
  induction t with
  | nil => exact ⟨[],rfl⟩
  | cons ch t ih =>
    obtain ⟨ds,hds⟩ := ih fun x hx => h x (List.mem_cons_of_mem ch hx)
    obtain ⟨hl,hr⟩ := h ch List.mem_cons_self
    have hch : decimalDigit ch = some (ch.toNat-48) :=
      if_neg (not_or.mpr ⟨UInt8.not_lt.mpr hl,UInt8.not_lt.mpr hr⟩)
    exact ⟨_,by rw [digits, hch, hds]; rfl⟩

theorem unit_or_none (isSec : Bool) (ch : UInt8) (x : List UInt8) :
    (∃ (u : TimeUnit) (y : List UInt8), u ≠ .none ∧ ch::x = u.text++y ∧
      (u = .min → y.head? ≠ some 115)) ∨ ∀ step, unitCase isSec step ch (x.headD 0) = none := by
  by_cases hunit : ch ∈ ([121,77,119,100,104,109,115,32] : List UInt8)
  · left
    simp only [List.mem_cons, List.not_mem_nil, or_false] at hunit
    rcases hunit with rfl|rfl|rfl|rfl|rfl|rfl|rfl|rfl
    · exact ⟨.year,x,by decide,rfl,fun h => absurd h (by decide)⟩
    · exact ⟨.month,x,by decide,rfl,fun h => absurd h (by decide)⟩
    · exact ⟨.week,x,by decide,rfl,fun h => absurd h (by decide)⟩
    · exact ⟨.day,x,by decide,rfl,fun h => absurd h (by decide)⟩
    · exact ⟨.hour,x,by decide,rfl,fun h => absurd h (by decide)⟩
    · by_cases hmsec : x.head? = some 115
      · obtain ⟨y,rfl⟩ := List.head?_eq_some_iff.mp hmsec
        exact ⟨.msec,y,by decide,rfl,fun h => absurd h (by decide)⟩
      · exact ⟨.min,x,by decide,rfl,fun _ => hmsec⟩
    · exact ⟨.sec,x,by decide,rfl,fun h => absurd h (by decide)⟩
    · exact ⟨.blank,x,by decide,rfl,fun h => absurd h (by decide)⟩
  right
  intro step
  simp only [List.mem_cons, List.not_mem_nil, or_false, not_or] at hunit
  simp [unitCase, hunit]

theorem unit_error {y : List UInt8} (hu : u ≠ .none) (hmin : u = .min → y.head? ≠ some 115)
    (herror : ∀ st, timeLoop isSec 0 st (y.dropWhile (· = 32)) = ngxError) (st : TimeState) :
    timeLoop isSec 0 st (u.text++y) = ngxError := by
  have hswitch : ∃ ch more, Switch isSec st.step u y ch more := unit_switch hu hmin
  obtain ⟨ch,more,hswitch⟩ := hswitch
  rw [hswitch.text, List.cons_append, timeLoop, if_neg hswitch.noDigit]
  by_cases hadmitted : u.Admitted isSec st.step
  · simp only [hswitch.taken hadmitted, hswitch.left, herror, ite_self]
  · simp only [hswitch.refused hadmitted]

theorem head_dropped (p : UInt8 → Bool) (x : List UInt8) :
    ∀ ch ∈ (x.dropWhile p).head?, p ch = false := by
  have h := List.head?_dropWhile_not p x
  intro ch hch
  rw [Option.mem_def.mp hch] at h
  exact h

theorem time_unread (isSec : Bool) (s : List UInt8) :
    (∃ cs, Reads s cs) ∨ ∀ st, timeLoop isSec 0 st s = ngxError := by
  induction hn : s.length using Nat.strong_induction_on generalizing s with
  | _ n ih =>
    have hsplit := List.takeWhile_append_dropWhile (p := fun ch => 48 ≤ ch && ch ≤ 57) (l := s)
    have hrange : ∀ ch ∈ s.takeWhile fun ch => 48 ≤ ch && ch ≤ 57, 48 ≤ ch ∧ ch ≤ 57 := by
      intro ch hch
      simpa using List.mem_takeWhile_imp hch
    obtain ⟨ds,hds⟩ := digits_range hrange
    generalize s.takeWhile (fun ch => 48 ≤ ch && ch ≤ 57) = t at hsplit hds
    cases hrest : s.dropWhile fun ch => 48 ≤ ch && ch ≤ 57 with
    | nil =>
      rw [hrest, List.append_nil] at hsplit
      subst hsplit
      by_cases hnil : t = []
      · exact Or.inl ⟨[],hnil ▸ .nil⟩
      · exact Or.inl ⟨_,.last hnil hds⟩
    | cons ch x =>
      have hdigit : ¬(48 ≤ ch ∧ ch ≤ 57) := by
        have hhead := head_dropped (fun ch => 48 ≤ ch && ch ≤ 57) s ch (by rw [hrest]; rfl)
        simpa using hhead
      rw [hrest] at hsplit
      subst hsplit
      rcases unit_or_none isSec ch x with ⟨u,y,hu,htext,hmin⟩|hnone
      · rw [htext] at hn ⊢
        have hblanks : ∀ ch ∈ y.takeWhile (· = 32), ch = 32 := fun ch hch => by
          simpa using List.mem_takeWhile_imp hch
        have hhead : (y.dropWhile (· = 32)).head? ≠ some 32 := fun h =>
          absurd (head_dropped (· = 32) y 32 h) (by decide)
        have hy := List.takeWhile_append_dropWhile (p := (· = (32 : UInt8))) (l := y)
        have hlength : (y.dropWhile (· = 32)).length < n := by
          have hle := (List.dropWhile_suffix (l := y) (· = (32 : UInt8))).length_le
          have hx := congrArg List.length htext
          have htext : 0 < u.text.length := by
            cases u with
            | none => exact absurd rfl hu
            | _ => exact Nat.zero_lt_succ _
          rw [← hn, List.length_append, List.length_append]
          omega
        rcases ih _ hlength _ rfl with ⟨cs,hcs⟩|herror
        · refine Or.inl ⟨⟨ds,u⟩::cs,?_⟩
          rw [← hy] at hmin ⊢
          exact .unit hds hu hmin hblanks hhead hcs
        refine Or.inr fun st => ?_
        rw [time_digits st hds]
        exact unit_error hu hmin herror _
      refine Or.inr fun st => ?_
      rw [time_digits st hds, timeLoop, if_neg hdigit]
      simp only [hnone]

theorem time_value (isSec : Bool) {cs : List Component} (h : Reads s cs) :
    ngxParseTime s 0 isSec = ngxError ∨
      ngxParseTime s 0 isSec = offT (denotes isSec cs) := by
  obtain ⟨hvalue,herror⟩ := time_reads h (Nat.zero_le maxInt32)
    (show ngxParseTime s 0 isSec = _ from rfl)
  rw [zero_add] at hvalue
  by_cases hpass : (false = true ∨ ∃ c ∈ cs, c.digits ≠ []) ∧
      Passes isSec (if isSec then .start else .month) 0 cs
  · exact Or.inr (hvalue hpass)
  · exact Or.inl (herror hpass)

theorem time_refused (h : ¬TimePasses isSec s) : ngxParseTime s 0 isSec = ngxError := by
  rcases time_unread isSec s with ⟨cs,hcs⟩|herror
  · refine (time_reads hcs (Nat.zero_le maxInt32) rfl).2 fun hpass => h ⟨cs,hcs,?_,hpass.2⟩
    exact hpass.1.resolve_left (by decide)
  · exact herror _

theorem time_meets (s : List UInt8) (isSec : Bool) :
    Meets (ngxParseTime s 0 isSec) (TimeLiteral isSec s) ↔ TimeFits isSec s := by
  constructor
  · intro h
    by_cases hpass : TimePasses isSec s
    · obtain ⟨cs,hcs,hdigit,hpasses⟩ := hpass
      have hvalue : ngxParseTime s 0 isSec = offT (denotes isSec cs) := by
        rw [← zero_add (denotes isSec cs)]
        exact (time_reads hcs (Nat.zero_le maxInt32) rfl).1 ⟨Or.inr hdigit,hpasses⟩
      have hrange := off_range (denotes isSec cs)
      have hmod := off_mod (denotes isSec cs)
      rw [Meets, hvalue, ngxError, ngxParseLargeTime] at h
      rcases h with h|h|⟨v,hv,h⟩
      · exact Or.inr (Or.inl ⟨cs,hcs,Or.inl (by omega)⟩)
      · exact Or.inr (Or.inl ⟨cs,hcs,Or.inr (by omega)⟩)
      · exact Or.inr (Or.inr ⟨v,by omega,hv⟩)
    · exact Or.inl hpass
  · rintro (hrefused|⟨cs,hcs,hcut⟩|⟨v,hv,cs,hcs,hform,rfl⟩)
    · exact Or.inl (time_refused hrefused)
    · have hrange := off_range (denotes isSec cs)
      have hmod := off_mod (denotes isSec cs)
      rcases time_value isSec hcs with h|h
      · exact Or.inl h
      rw [Meets, h, ngxError, ngxParseLargeTime]
      rcases hcut with hcut|hcut
      · exact Or.inl (by omega)
      · exact Or.inr (Or.inl (by omega))
    · rcases time_value isSec hcs with h|h
      · exact Or.inl h
      · refine Or.inr (Or.inr ⟨_,⟨cs,hcs,hform,rfl⟩,?_⟩)
        rw [h, off_eq (by omega) (by omega)]

end Times

/-- Each reader gives an error or the number of the literal just when that number fits or is seen
not to. -/
theorem literals_exact (s : List UInt8) (before : UInt8) (tail : List UInt8) :
    (Meets (ngxParseSize before s (0::tail)) (SizeLiteral s) ↔ ScaledFits sizeScale s) ∧
    (Meets (ngxParseOffset before s (0::tail)) (SizeLiteral s) ↔ ScaledFits offsetScale s) ∧
    ∀ isSec, Meets (ngxParseTime s 0 isSec) (TimeLiteral isSec s) ↔ TimeFits isSec s :=
  ⟨scaled_meets fun _ _ => size_scale_offset,scaled_meets fun _ _ h => h,time_meets s⟩

/-- `18014398509481984`, which is 2^54 -/
def sizeDigits : List UInt8 :=
  [49,56,48,49,52,51,57,56,53,48,57,52,56,49,57,56,52]

/-- With the unit `k` it is 2^64, and read as nothing. -/
theorem size_wraps : ngxParseSize 0 (sizeDigits++[107]) [0] = 0 ∧
    ¬Meets (ngxParseSize 0 (sizeDigits++[107]) [0]) (SizeLiteral (sizeDigits++[107])) := by
  have hread : ngxParseSize 0 (sizeDigits++[107]) [0] = 0 := by decide +kernel
  refine ⟨hread,?_⟩
  rw [hread]
  rintro (h|h|⟨v,⟨n,m,⟨t,ds,hne,hds,rfl,⟨rfl,rfl⟩|⟨unit,hunit,htext⟩⟩,rfl⟩,h⟩)
  · exact absurd h (by decide)
  · exact absurd h (by decide)
  · rw [digits_unit sizeDigits (by decide)] at hds
    cases hds
  · obtain ⟨rfl,hlast⟩ := List.append_inj' htext rfl
    obtain rfl := List.singleton_inj.mp hlast
    obtain rfl := Option.some.inj hunit
    obtain rfl := Option.some.inj hds
    exact absurd h (by decide)

end Nginx.ParseUnits
