import Mathlib.Logic.Function.Basic
import Mathlib.Tactic.Common

/-!
# Addresses in text

IPv4 addresses are in host order; `INADDR_NONE` is the same in both. The parser of IPv6
addresses stores bytes and remembers where the zero groups stand, to open the gap at the end.
-/

set_option autoImplicit false

namespace Nginx.InetAddr

/-! The code -/

def inaddrNone : UInt32 := 0xffffffff

@[grind =] def inetLoop (addr : UInt32) (octet : UInt64) (n : ℕ) : List UInt8 → UInt32
  | [] =>
    if n ≠ 3 then inaddrNone
    else if octet < 256 then (addr <<< 8)+octet.toUInt32
    else inaddrNone
  | c::p =>
    if 48 ≤ c ∧ c ≤ 57 then inetLoop addr (octet*10+(c.toUInt64-48)) n p
    else if c = 46 ∧ octet < 256 then inetLoop ((addr <<< 8)+octet.toUInt32) 0 (n+1) p
    else inaddrNone

def ngxInetAddr (text : List UInt8) : UInt32 := inetLoop 0 0 0 text

/-- `out` is what has been stored, `zero` how much of it stood there when the zero groups came,
and `digit` the text from the group after the last colon on. -/
structure Scan where
  out : List UInt8
  zero : Option ℕ
  digit : Option (List UInt8)
  n : ℕ
  nibbles : ℕ
  word : ℕ
  deriving DecidableEq, Repr

def high (word : ℕ) : UInt8 := UInt8.ofNat (word / 256)

def low (word : ℕ) : UInt8 := UInt8.ofNat (word % 256)

def nibble (c : UInt8) : Option ℕ :=
  if 48 ≤ c ∧ c ≤ 57 then some (c.toNat-48)
  else if 97 ≤ c ||| 0x20 ∧ c ||| 0x20 ≤ 102 then some ((c ||| 0x20).toNat-97+10)
  else none

@[grind =] def inet6Loop (st : Scan) : List UInt8 → Option Scan
  | [] => some st
  | c::p =>
    if c = 58 then
      if st.nibbles ≠ 0 then
        if st.n-1 ≠ 0 then
          inet6Loop { st with
            digit := some p
            out := st.out++[high st.word, low st.word]
            n := st.n-1
            nibbles := 0
            word := 0 } p
        else none
      else if st.zero = none then
        inet6Loop { st with digit := some p, zero := some st.out.length } p
      else none
    else if c = 46 ∧ st.nibbles ≠ 0 then
      if st.n < 2 then none
      else st.digit.bind fun digit =>
        let word := ngxInetAddr digit
        if word = inaddrNone then none
        else some { st with
          word := word.toNat
          out := st.out++[high (word.toNat / 0x10000), low (word.toNat / 0x10000)]
          n := st.n-1 }
    else if st.nibbles+1 > 4 then none
    else (nibble c).bind fun d =>
      inet6Loop { st with nibbles := st.nibbles+1, word := st.word*16+d } p

def inet6End (st : Scan) : Option (List UInt8) :=
  if st.nibbles = 0 ∧ st.zero = none then none
  else
    let out := st.out++[high st.word, low st.word]
    match st.zero with
    | some zero =>
      if st.n-1 ≠ 0 then
        some (out.take zero++List.replicate ((st.n-1)*2) 0++out.drop zero)
      else none
    | none => if st.n-1 ≠ 0 then none else some out

def ngxInet6Addr (p : List UInt8) : Option (List UInt8) :=
  if p = [] then none
  else
    let p := if p.head? = some 58 then p.tail else p
    (inet6Loop ⟨[],none,none,8,0,0⟩ p).bind inet6End

inductive InAddr where
  | inet (addr : UInt32)
  | inet6 (addr : List UInt8)
  deriving DecidableEq, Repr

/-- `none` stands for `NGX_DECLINED`. -/
def ngxParseAddr (text : List UInt8) : Option InAddr :=
  if ngxInetAddr text ≠ inaddrNone then some (.inet (ngxInetAddr text))
  else (ngxInet6Addr text).map .inet6

end Nginx.InetAddr
