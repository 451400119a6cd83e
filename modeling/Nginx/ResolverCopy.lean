import Mathlib.Algebra.Order.BigOperators.Group.List
import Mathlib.Algebra.Order.Ring.Int

/-!
# A name of a response

A name is a walk over the response: labels, and pointers to where it goes on, up
to a zero byte. It is measured first and copied then, into a block of the
measured length. Pointers into the response are offsets; reads are listed.
-/

set_option autoImplicit false

namespace Nginx.ResolverCopy

def IsPointer (n : ℕ) : Prop := n &&& 0xc0 ≠ 0

instance (n : ℕ) : Decidable (IsPointer n) := inferInstanceAs (Decidable (_ ≠ _))

section Walk
variable (buf : ℕ → UInt8)

/-- Where a compression pointer points, by its first byte and the offset of its second -/
def target (n p : ℕ) : ℕ := ((n &&& 0x3f) <<< 8)+(buf p).toNat

inductive Failure where
  | outOfResponse
  | loop
  deriving DecidableEq, Repr

def Failure.err : Failure → String
  | .outOfResponse => "name is out of response"
  | .loop => "compression pointers loop"

/-- The loop that measures the name, with the number of turns left: what it read, and the
length or the error -/
@[grind =] def measureName (last : ℕ) : ℕ → ℕ → ℤ → List ℕ × Except Failure ℤ
  | 0, _, _ => ([], .error .loop)
  | i+1, p, len =>
    let n := (buf p).toNat
    let p' := p+1
    if n = 0 then ([p], .ok len)
    else if IsPointer n then
      if last ≤ target buf n p' then ([p, p'], .error .outOfResponse)
      else
        let rest := measureName last i (target buf n p') len
        ([p, p']++rest.1, rest.2)
    else if last ≤ p'+n then ([p], .error .outOfResponse)
    else
      let rest := measureName last i (p'+n) (len+1+n)
      ([p]++rest.1, rest.2)

@[grind =] def copyName : ℕ → ℕ → ℕ → Option (List ℕ × List UInt8)
  | 0, _, _ => none
  | fuel+1, n, src =>
    if IsPointer n then
      let src' := target buf n src
      let n' := (buf src').toNat
      if n' = 0 then some ([src, src'], [])
      else (copyName fuel n' (src'+1)).map fun rest => ([src, src']++rest.1, rest.2)
    else
      let label := (List.range' src n).map buf
      let src' := src+n
      let n' := (buf src').toNat
      if n' = 0 then some (List.range' src n++[src'], label)
      else (copyName fuel n' (src'+1)).map fun rest =>
        (List.range' src n++[src']++rest.1, label++[46]++rest.2)

end Walk

inductive Rc where
  | ok
  | error (err : Option String)
  deriving DecidableEq, Repr

/-- `alloc` is the length of the block and `data` what was written into it. -/
structure Outcome where
  rc : Rc
  reads : List ℕ
  alloc : Option ℤ
  data : List UInt8
  nameLen : Option ℕ
  deriving DecidableEq, Repr

/-- `named` tells whether there is a name to fill, `allocated` whether the allocator gives a
block. -/
def ngxResolverCopy (fuel : ℕ) (named allocated : Bool) (buf : ℕ → UInt8) (src last : ℕ) :
    Option Outcome :=
  match measureName buf last 128 src (-1) with
  | (reads, .error e) => some ⟨.error (some e.err),reads,none,[],none⟩
  | (reads, .ok len) =>
    if !named then some ⟨.ok,reads,none,[],none⟩
    else if len = -1 then some ⟨.ok,reads,none,[],some 0⟩
    else if !allocated then some ⟨.error none,reads,none,[],none⟩
    else (copyName buf fuel (buf src).toNat (src+1)).map fun r =>
      ⟨.ok,reads++[src]++r.1,some len,r.2,some r.2.length⟩

/-! ## The walk -/

def next (buf : ℕ → UInt8) (p : ℕ) : ℕ :=
  if IsPointer (buf p).toNat then target buf (buf p).toNat (p+1) else p+1+(buf p).toNat

/-- The offsets of the labels and pointers of a name, and of the zero byte at its end: as far
as they lie in the response, and at most 128 -/
@[grind =] def trail (buf : ℕ → UInt8) (last : ℕ) : ℕ → ℕ → List ℕ
  | 0, _ => []
  | i+1, p => p::if buf p = 0 ∨ last ≤ next buf p then [] else trail buf last i (next buf p)

def Whole (buf : ℕ → UInt8) (last src : ℕ) : Prop :=
  ∀ p ∈ trail buf last 128 src, IsPointer (buf p).toNat → p+1 < last

/-- The zero byte at the end stands behind a label, unless there is no label. -/
def Plain (buf : ℕ → UInt8) (last src : ℕ) : Prop :=
  ∀ front p z, trail buf last 128 src = front++[p, z] → buf z = 0 → IsPointer (buf p).toNat →
    ∀ q ∈ front, IsPointer (buf q).toNat

structure InBounds (last : ℕ) (o : Outcome) : Prop where
  reads : ∀ p ∈ o.reads, p < last
  data : o.rc = .ok → (o.data.length : ℤ) ≤ o.alloc.getD 0
  nameLen : o.rc = .ok → ∀ n, o.nameLen = some n → (n : ℤ) ≤ o.alloc.getD 0

end Nginx.ResolverCopy
