import Mathlib.Data.List.Basic
import Nginx.Gregorian
import Nginx.OffT

/-!
# Times in HTTP

`ngx_http_parse_time` reads three layouts of a date, and `ngx_http_time` writes
one of them. A pointer into the text is what stands from it to the end; the
checks of what is left keep every read before the end.
-/

set_option autoImplicit false

namespace Nginx.HttpTime
open Nginx.OffT

def byteAt (p : List UInt8) (n : ℕ) : UInt8 := p.getD n 0

def IsDigit (c : UInt8) : Prop := 48 ≤ c ∧ c ≤ 57

instance (c : UInt8) : Decidable (IsDigit c) := inferInstanceAs (Decidable (_ ∧ _))

def digit (c : UInt8) : ℕ := c.toNat-48

def number2 (p : List UInt8) : Option ℕ :=
  if IsDigit (byteAt p 0) ∧ IsDigit (byteAt p 1) then
    some (digit (byteAt p 0)*10+digit (byteAt p 1)) else none

def number4 (p : List UInt8) : Option ℕ :=
  if IsDigit (byteAt p 0) ∧ IsDigit (byteAt p 1) ∧ IsDigit (byteAt p 2) ∧ IsDigit (byteAt p 3) then
    some (digit (byteAt p 0)*1000+digit (byteAt p 1)*100+digit (byteAt p 2)*10+
      digit (byteAt p 3)) else none

inductive Fmt where
  | no
  | rfc822
  | rfc850
  | isoc
  deriving DecidableEq, Repr

/-- The first two loops: up to a comma or a space, and over the spaces behind it -/
@[grind =] def lead : List UInt8 → Fmt × List UInt8
  | [] => (.no, [])
  | c::p =>
    if c = 44 then (.no, p.dropWhile (· = 32))
    else if c = 32 then (.isoc, p.dropWhile (· = 32))
    else lead p

def dayFirst (fmt : Fmt) (p : List UInt8) : Option (Fmt × ℕ × List UInt8) :=
  if fmt = .isoc then some (fmt, 32, p)
  else (number2 p).bind fun day =>
    let p := p.drop 2
    if byteAt p 0 = 32 then
      if p.length < 18 then none else some (.rfc822, day, p.drop 1)
    else if byteAt p 0 = 45 then some (.rfc850, day, p.drop 1)
    else none

def monthOf (p : List UInt8) : Option ℕ :=
  if byteAt p 0 = 74 then some (if byteAt p 1 = 97 then 0 else if byteAt p 2 = 110 then 5 else 6)
  else if byteAt p 0 = 70 then some 1
  else if byteAt p 0 = 77 then some (if byteAt p 2 = 114 then 2 else 4)
  else if byteAt p 0 = 65 then some (if byteAt p 1 = 112 then 3 else 7)
  else if byteAt p 0 = 83 then some 8
  else if byteAt p 0 = 79 then some 9
  else if byteAt p 0 = 78 then some 10
  else if byteAt p 0 = 68 then some 11
  else none

def yearSecond (fmt : Fmt) (p : List UInt8) : Option (ℕ × List UInt8) :=
  if fmt = .rfc822 then (number4 p).map fun year => (year, p.drop 4)
  else if fmt = .rfc850 then
    (number2 p).map fun year => (year+(if year < 70 then 2000 else 1900), p.drop 2)
  else some (2038, p)

def daySecond (fmt : Fmt) (day : ℕ) (p : List UInt8) : Option (ℕ × List UInt8) :=
  if fmt = .isoc then
    let p := if byteAt p 0 = 32 then p.drop 1 else p
    if ¬IsDigit (byteAt p 0) then none
    else
      let day := digit (byteAt p 0)
      let p := p.drop 1
      (if byteAt p 0 ≠ 32 then
        if ¬IsDigit (byteAt p 0) then none
        else some (day*10+digit (byteAt p 0), p.drop 1)
      else some (day, p)).bind fun r => if r.2.length < 14 then none else some r
  else some (day, p)

def clock (p : List UInt8) : Option ((ℕ × ℕ × ℕ) × List UInt8) :=
  if byteAt p 0 ≠ 32 then none
  else
    let p := p.drop 1
    (number2 p).bind fun hour =>
      let p := p.drop 2
      if byteAt p 0 ≠ 58 then none
      else
        let p := p.drop 1
        (number2 p).bind fun min =>
          let p := p.drop 2
          if byteAt p 0 ≠ 58 then none
          else
            let p := p.drop 1
            (number2 p).map fun sec => ((hour, min, sec), p)

def yearLast (fmt : Fmt) (year : ℕ) (p : List UInt8) : Option ℕ :=
  if fmt = .isoc then
    let p := p.drop 2
    if byteAt p 0 ≠ 32 then none else number4 (p.drop 1)
  else some year

/-- What is read before anything is checked; months are numbered from zero. -/
structure Fields where
  day : ℕ
  month : ℕ
  year : ℕ
  hour : ℕ
  min : ℕ
  sec : ℕ
  deriving DecidableEq, Repr

def readFields (value : List UInt8) : Option Fields :=
  let (fmt, p) := lead value
  if p.length < 18 then none
  else (dayFirst fmt p).bind fun (fmt, day, p) =>
    (monthOf p).bind fun month =>
      let p := p.drop 3
      if fmt = .rfc822 ∧ byteAt p 0 ≠ 32 ∨ fmt = .rfc850 ∧ byteAt p 0 ≠ 45 then none
      else (yearSecond fmt (p.drop 1)).bind fun (year, p) =>
        (daySecond fmt day p).bind fun (day, p) =>
          (clock p).bind fun ((hour, min, sec), p) =>
            (yearLast fmt year p).map fun year => ⟨day,month,year,hour,min,sec⟩

def mday : List ℕ := [31,28,31,30,31,30,31,31,30,31,30,31]

def gauss (f : Fields) : ℤ :=
  let month : ℤ := if (f.month : ℤ)-1 ≤ 0 then f.month-1+12 else f.month-1
  let year : ℕ := if (f.month : ℤ)-1 ≤ 0 then unsigned (f.year-1) else f.year
  offT ((365*year+(year/4 : ℕ)-(year/100 : ℕ)+(year/400 : ℕ)+(367*month/12-30)+f.day-1-
    719527+31+28)*86400+f.hour*3600+f.min*60+f.sec)

def ngxHttpParseTime (value : List UInt8) : Option ℤ :=
  (readFields value).bind fun f =>
    if 23 < f.hour ∨ 59 < f.min ∨ 59 < f.sec then none
    else if f.day = 29 ∧ f.month = 1 then
      if f.year%4 ≠ 0 ∨ f.year%100 = 0 ∧ f.year%400 ≠ 0 then none else some (gauss f)
    else if mday.getD f.month 0 < f.day then none
    else some (gauss f)

/-! ## Writing -/

structure Tm where
  sec : ℕ
  min : ℕ
  hour : ℕ
  mday : ℕ
  mon : ℕ
  year : ℕ
  wday : ℕ
  deriving DecidableEq, Repr

/-- `ngx_gmtime` without the cast of the year to an `int`, which is `HttpTimeWidth.yearInt`. -/
def ngxGmtime (t : ℤ) : Tm :=
  let n := unsigned t
  let days := n/86400
  let wday := (4+days)%7
  let n := n%86400
  let hour := n/3600
  let n := n%3600
  let min := n/60
  let sec := n%60
  let days := unsigned ((days : ℤ)-(31+28)+719527)
  let year := (days+2)*400/(365*400+100-4+1)
  let yday : ℤ := offT (days-(365*year+(year/4 : ℕ)-(year/100 : ℕ)+(year/400 : ℕ)))
  let leap : ℤ := if year%4 = 0 ∧ (year%100 ≠ 0 ∨ year%400 = 0) then 1 else 0
  let (year, yday) := if yday < 0 then (year-1, 365+leap+yday) else (year, yday)
  let mon := unsigned (((yday+31)*10).tdiv 306)
  let mday := unsigned (yday-((367*mon/12 : ℕ)-30)+1)
  if 306 ≤ yday then ⟨sec,min,hour,mday,mon-10,year+1,wday⟩
  else ⟨sec,min,hour,mday,mon+2,year,wday⟩

def week : List (List UInt8) :=
  [[83,117,110], [77,111,110], [84,117,101], [87,101,100], [84,104,117], [70,114,105],
    [83,97,116]]

def months : List (List UInt8) :=
  [[74,97,110], [70,101,98], [77,97,114], [65,112,114], [77,97,121], [74,117,110],
    [74,117,108], [65,117,103], [83,101,112], [79,99,116], [78,111,118], [68,101,99]]

/-- The digits of `ngx_sprintf_num`, written from the end of a buffer of 20 bytes -/
@[grind =] def decimals : ℕ → ℕ → List UInt8 → List UInt8
  | 0, _, p => p
  | k+1, ui, p =>
    let p := UInt8.ofNat (ui%10+48)::p
    if ui/10 = 0 then p else decimals k (ui/10) p

/-- `%d` with a width, padded with zeros or spaces -/
def sprintfNum (zero : UInt8) (width ui : ℕ) : List UInt8 :=
  let p := decimals 20 ui []
  List.replicate (width-p.length) zero++p

/-- `"%s, %02d %s %4d %02d:%02d:%02d GMT"` -/
def ngxHttpTime (t : ℤ) : List UInt8 :=
  let tm := ngxGmtime t
  week.getD tm.wday []++[44,32]++sprintfNum 48 2 tm.mday++[32]++months.getD (tm.mon-1) []++[32]++
    sprintfNum 32 4 tm.year++[32]++sprintfNum 48 2 tm.hour++[58]++sprintfNum 48 2 tm.min++[58]++
    sprintfNum 48 2 tm.sec++[32,71,77,84]

end Nginx.HttpTime
