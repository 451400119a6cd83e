import Nginx.HeaderHash

/-!
# Accept-Encoding negotiation

A pointer is what memory holds from it on, with the byte before it. A value is
followed by one terminating byte, and `none` is a read of anything beyond it.
The comparison `p < last` asks whether more than the terminator is left.
-/

set_option autoImplicit false

namespace Nginx.GzipAccept
open Nginx.HeaderHash

structure Pointer where
  back : Option UInt8
  rest : List UInt8
  deriving DecidableEq, Repr

def Pointer.add (p : Pointer) : ℕ → Pointer
  | 0 => p
  | n+1 => ⟨p.rest[n]?,p.rest.drop (n+1)⟩

/-- Whether `ngx_strncasecmp` finds the two equal; the bytes of `s2` that count are listed. -/
@[grind =] def ngxStrncasecmp : List UInt8 → List UInt8 → Option Bool
  | _, [] => some true
  | [], _::_ => none
  | c1::s1, c2::s2 =>
    if ngxTolower c1 = ngxTolower c2 then
      if c1 ≠ 0 then ngxStrncasecmp s1 s2 else some true
    else some false

/-- `some none` is the null pointer. -/
@[grind =] def ngxStrcasestrn (c2 : UInt8) (s2 : List UInt8) : Option UInt8 → List UInt8 →
    Option (Option Pointer)
  | _, [] => none
  | b, c1::s1 =>
    if c1 = 0 then some none
    else if ngxTolower c1 ≠ ngxTolower c2 then ngxStrcasestrn c2 s2 (some c1) s1
    else (ngxStrncasecmp s1 s2).bind fun equal =>
      if equal then some (some ⟨b,c1::s1⟩) else ngxStrcasestrn c2 s2 (some c1) s1

def ngxMemcmp (s1 s2 : List UInt8) : Option Bool :=
  if s1.length < s2.length then none else some (s1.take s2.length = s2)

/-- The digits behind the point; `none` for any other byte before a comma or a space. -/
@[grind =] def quantityDigits : ℕ → ℕ → List UInt8 → Option (ℕ × ℕ)
  | q, n, [] => some (q, n)
  | q, n, c::l =>
    if l = [] then some (q, n)
    else if c = 44 ∨ c = 32 then some (q, n)
    else if 48 ≤ c ∧ c ≤ 57 then quantityDigits (q+(c.toNat-48)) (n+1) l
    else none

def ngxHttpGzipQuantity : List UInt8 → Option ℕ
  | [] => none
  | c::l =>
    if c ≠ 48 ∧ c ≠ 49 then some 0
    else
      let q := (c.toNat-48)*100
      if l.length = 1 then some q
      else match l with
        | [] => none
        | c::l =>
          if c = 44 ∨ c = 32 then some q
          else if c ≠ 46 then some 0
          else match quantityDigits q 0 l with
            | none => some 0
            | some (q, n) => if 100 < q ∨ 3 < n then some 0 else some q

def equal : List UInt8 → Option Bool
  | [] => some false
  | c::l =>
    if l.length < 2 then some false
    else if c ≠ 61 then some false
    else (ngxHttpGzipQuantity l).map (· ≠ 0)

@[grind =] def quantity : List UInt8 → Option Bool
  | [] => some true
  | c::l =>
    if l = [] then some true
    else if c = 113 ∨ c = 81 then equal l
    else if c = 32 then quantity l
    else some false

@[grind =] def afterWord : List UInt8 → Option Bool
  | [] => some true
  | c::l =>
    if l = [] then some true
    else if c = 44 then some true
    else if c = 59 then quantity l
    else if c = 32 then afterWord l
    else some false

@[grind =] def searchWord : ℕ → Pointer → Option (Option Pointer)
  | 0, _ => none
  | fuel+1, start =>
    (ngxStrcasestrn 103 [122,105,112] start.back start.rest).bind fun
      | none => some none
      | some p =>
        if p.rest.length = start.rest.length then some (some (p.add 4))
        else p.back.bind fun c =>
          if c = 44 ∨ c = 32 then some (some (p.add 4)) else searchWord fuel (p.add 4)

def ngxHttpGzipAcceptEncoding (ae : List UInt8) : Option Bool :=
  (searchWord (ae.length+1) ⟨none,ae++[0]⟩).bind fun
    | none => some false
    | some p => afterWord p.rest

/-- What `ngx_http_gzip_ok` asks of the value of the header -/
def gzipAccepted (ae : List UInt8) : Option Bool :=
  if ae.length < 4 then some false
  else (ngxMemcmp (ae++[0]) [103,122,105,112,44]).bind fun same =>
    if same then some true else ngxHttpGzipAcceptEncoding ae

/-! ## What a value says -/

def IsGzip (word : List UInt8) : Prop := ngxStrlow word = [103,122,105,112]

instance (word : List UInt8) : Decidable (IsGzip word) :=
  inferInstanceAs (Decidable (_ = _))

def Spaces (s : List UInt8) : Prop := ∀ c ∈ s, c = 32

/-- Where the word may stand: in front of the value, or behind a comma or a space -/
def Bounded (front : List UInt8) : Prop :=
  front = [] ∨ front.getLast? = some 44 ∨ front.getLast? = some 32

instance (front : List UInt8) : Decidable (Bounded front) :=
  inferInstanceAs (Decidable (_ ∨ _))

def Digit (d : UInt8) : Prop := 48 ≤ d ∧ d ≤ 57

instance (d : UInt8) : Decidable (Digit d) := inferInstanceAs (Decidable (_ ∧ _))

/-- A quality of at most three decimals between zero and one, zero excluded -/
def Positive (w : List UInt8) : Prop :=
  w = [49] ∨ ∃ ds, (∀ d ∈ ds, Digit d) ∧ ds.length ≤ 3 ∧
    (w = 49::46::ds ∧ (∀ d ∈ ds, d = 48) ∨ w = 48::46::ds ∧ ∃ d ∈ ds, d ≠ 48)

def upTo (u : List UInt8) : List UInt8 := u.takeWhile fun c => c ≠ 44 ∧ c ≠ 32

def unspaced (t : List UInt8) : List UInt8 := t.dropWhile (· = 32)

/-- Behind a semicolon: nothing but spaces, or a quality that is not zero -/
def Qualified (t : List UInt8) : Prop :=
  unspaced t = [] ∨ ∃ k u, unspaced t = k::61::u ∧ (k = 113 ∨ k = 81) ∧ Positive (upTo u)

/-- Behind the word: the end, a comma, or a semicolon and what is allowed behind it -/
def Followed (rest : List UInt8) : Prop :=
  unspaced rest = [] ∨ ∃ c t, unspaced rest = c::t ∧ (c = 44 ∨ c = 59 ∧ Qualified t)

/-- The first word that stands where it may, with no zero byte before it -/
structure First (v front word rest : List UInt8) : Prop where
  text : v = front++word++rest
  word : IsGzip word
  bounded : Bounded front
  whole : 0 ∉ front
  least : ∀ f w r, v = f++w++r → IsGzip w → Bounded f → front.length ≤ f.length

def Accepted (v : List UInt8) : Prop :=
  ∃ front word rest, First v front word rest ∧ Followed rest

/-- Directly behind the word, where this one does not stand where it may, the word is not
there again. -/
def NotAgain (v : List UInt8) : Prop :=
  ∀ f w w' r, v = f++w++w'++r → IsGzip w → IsGzip w' → Bounded f

/-- The token with no quality or with one that is not zero, as an element between commas -/
def Element (e : List UInt8) : Prop :=
  ∃ a w r, e = a++w++r ∧ Spaces a ∧ IsGzip w ∧
    (Spaces r ∨ ∃ b d k u f, r = b++59::d++k::61::u++f ∧ Spaces b ∧ Spaces d ∧
      (k = 113 ∨ k = 81) ∧ Positive u ∧ Spaces f)

end Nginx.GzipAccept
