import Mathlib.Algebra.Order.BigOperators.Group.List
import Nginx.OffT

/-!
# Ranges of a request

A pointer into the header is what stands from it on; behind the last byte comes
the terminator, at which every loop and every path stops. Numbers are read into
`off_t`, whatever their length.
-/

set_option autoImplicit false

namespace Nginx.RangeParse
open Nginx.OffT

def head (p : List UInt8) : UInt8 := p.headD 0

def IsDigit (c : UInt8) : Prop := 48 ≤ c ∧ c ≤ 57

instance (c : UInt8) : Decidable (IsDigit c) := inferInstanceAs (Decidable (_ ∧ _))

def skipSpaces (p : List UInt8) : List UInt8 := p.dropWhile (· = 32)

/-- `while (*p >= '0' && *p <= '9')`, with the number so far -/
@[grind =] def number : ℤ → List UInt8 → ℤ × List UInt8
  | v, [] => (v, [])
  | v, c::p => if IsDigit c then number (offT (v*10+c.toNat-48)) p else (v, c::p)

/-- From the digits of the last position on; the result is the range and where the item ends. -/
def itemEnd (contentLength start : ℤ) (suffix : Bool) (p : List UInt8) :
    Option ((ℤ × ℤ) × List UInt8) :=
  if ¬IsDigit (head p) then none
  else
    let (last, p) := number 0 p
    let p := skipSpaces p
    if head p ≠ 44 ∧ head p ≠ 0 then none
    else
      let start := if suffix then offT (contentLength-last) else start
      let last := if suffix then offT (contentLength-1) else last
      some ((start, if contentLength ≤ last then contentLength else offT (last+1)), p)

/-- One item of the list up to the label `found`; `none` is not satisfiable. -/
def item (contentLength : ℤ) (p : List UInt8) : Option ((ℤ × ℤ) × List UInt8) :=
  let p := skipSpaces p
  if head p ≠ 45 then
    if ¬IsDigit (head p) then none
    else
      let (start, p) := number 0 p
      let p := skipSpaces p
      if head p ≠ 45 then none
      else
        let p := skipSpaces p.tail
        if head p = 44 ∨ head p = 0 then some ((start, contentLength), p)
        else itemEnd contentLength start false p
  else itemEnd contentLength 0 true p.tail

inductive Rc where
  | ok
  | declined
  | error
  | notSatisfiable
  deriving DecidableEq, Repr

def finish (contentLength size : ℤ) (stored : List (ℤ × ℤ)) : Rc :=
  if stored = [] then .notSatisfiable else if contentLength < size then .declined else .ok

/-- The loop over the items; `pushes` is how many ranges the array can still take. -/
@[grind =] def loop (contentLength : ℤ) : ℕ → ℕ → ℕ → List (ℤ × ℤ) → ℤ → List UInt8 →
    Option (Rc × List (ℤ × ℤ))
  | 0, _, _, _, _, _ => none
  | fuel+1, ranges, pushes, stored, size, p =>
    match item contentLength p with
    | none => some (.notSatisfiable, stored)
    | some (r, p) =>
      if r.1 < r.2 then
        match pushes with
        | 0 => some (.error, stored)
        | pushes+1 =>
          let stored := stored++[r]
          let size := offT (size+(r.2-r.1))
          if ranges = 0 then some (.declined, stored)
          else if head p = 44 then loop contentLength fuel (ranges-1) pushes stored size p.tail
          else some (finish contentLength size stored, stored)
      else if head p = 44 then loop contentLength fuel ranges pushes stored size p.tail
      else some (finish contentLength size stored, stored)

def ngxHttpRangeParse (contentLength : ℤ) (ranges pushes : ℕ) (value : List UInt8) :
    Option (Rc × List (ℤ × ℤ)) :=
  loop contentLength (value.length+1) ranges pushes [] 0 (value.drop 6)

/-! ## What a header says -/

inductive Item where
  | first (n : ℕ)
  | span (n m : ℕ)
  | suffix (n : ℕ)
  deriving DecidableEq, Repr

def Spaces (s : List UInt8) : Prop := ∀ c ∈ s, c = 32

def Digits (s : List UInt8) : Prop := s ≠ [] ∧ ∀ c ∈ s, IsDigit c

def decimal (s : List UInt8) : ℕ := s.foldl (fun v c => v*10+(c.toNat-48)) 0

inductive Written : List UInt8 → Item → Prop where
  | first (a ds b c : List UInt8) (ha : Spaces a) (hd : Digits ds) (hb : Spaces b)
      (hc : Spaces c) : Written (a++ds++b++45::c) (.first (decimal ds))
  | span (a ds b c es d : List UInt8) (ha : Spaces a) (hd : Digits ds) (hb : Spaces b)
      (hc : Spaces c) (he : Digits es) (hs : Spaces d) :
      Written (a++ds++b++45::(c++es++d)) (.span (decimal ds) (decimal es))
  | suffix (a es d : List UInt8) (ha : Spaces a) (he : Digits es) (hs : Spaces d) :
      Written (a++45::(es++d)) (.suffix (decimal es))

/-- Items with commas between them, up to the end of the value or a zero byte -/
inductive Listed : List UInt8 → List Item → Prop where
  | last (w rest : List UInt8) (i : Item) (h : Written w i) (hr : head rest = 0) :
      Listed (w++rest) [i]
  | more (w t : List UInt8) (i : Item) (is : List Item) (h : Written w i) (ht : Listed t is) :
      Listed (w++44::t) (i::is)

def lastBound (contentLength last : ℤ) : ℤ :=
  if contentLength ≤ last then contentLength else last+1

/-- The range of an item, its numbers taken as `off_t` -/
def bounds (contentLength : ℤ) : Item → ℤ × ℤ
  | .first n => (offT n, contentLength)
  | .span n m => (offT n, lastBound contentLength (offT m))
  | .suffix n => (offT (contentLength-n), contentLength)

def kept (contentLength : ℤ) (is : List Item) : List (ℤ × ℤ) :=
  (is.map (bounds contentLength)).filter fun r => r.1 < r.2

def total (rs : List (ℤ × ℤ)) : ℤ := (rs.map fun r => r.2-r.1).sum

/-- The first position is negative as `off_t`: the number is reduced to such a one, or the
suffix is longer than the content. -/
def Negative (contentLength : ℤ) : Item → Prop
  | .first n => 2^63 ≤ (n : ℤ)%2^64
  | .span n _ => 2^63 ≤ (n : ℤ)%2^64
  | .suffix n => 2^63 ≤ (contentLength-n)%2^64

/-- Nothing to serve, more ranges than allowed or than the array takes, or more bytes in
all than there are, counted in `off_t` -/
def Refused (contentLength : ℤ) (ranges pushes : ℕ) (is : List Item) : Prop :=
  kept contentLength is = [] ∨ ranges < (kept contentLength is).length ∨
    pushes < (kept contentLength is).length ∨
    contentLength < offT (total (kept contentLength is))

/-- No range of positive length begins below zero, and the sum of the lengths does not
overflow. -/
def Sound (contentLength : ℤ) (is : List Item) : Prop :=
  (∀ i ∈ is, (bounds contentLength i).1 < (bounds contentLength i).2 →
    ¬Negative contentLength i) ∧ total (kept contentLength is) < 2^63

/-- The ranges lie within the content and are no longer than it in all. -/
def Within (contentLength : ℤ) (rs : List (ℤ × ℤ)) : Prop :=
  (∀ r ∈ rs, 0 ≤ r.1 ∧ r.1 < r.2 ∧ r.2 ≤ contentLength) ∧ total rs ≤ contentLength

end Nginx.RangeParse
