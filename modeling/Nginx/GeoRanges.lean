import Nginx.CellMove
import Mathlib.Algebra.Order.Ring.Int

/-!
# The ranges of a geo block

Addresses are in host order and below 2^32. The ranges that begin with the same
16 bits form one array, and a range over several such blocks is cut at their
borders. While the block is being parsed `low` holds arrays; afterwards every
array that holds something is packed behind its own terminator, and the others
stay as they are. Allocations succeed. The bit operations on addresses are written as division by
2^16 and remainder.
-/

set_option autoImplicit false

namespace Nginx.GeoRanges
open Nginx.CellMove

variable {α : Type*}

structure Range (α : Type*) where
  start : ℕ
  stop : ℕ
  value : α
  deriving DecidableEq, Repr

inductive Outcome (β : Type*) where
  | done (result : β)
  | error
  | endless
  deriving DecidableEq, Repr

abbrev Low (α : Type*) := ℕ → Option (List (Range α))

def unset (value : α) : Range α := ⟨0,0,value⟩

def ngxArrayPush (a : List (Range α)) (count : ℕ) (value : α) : List (Range α) :=
  a++List.replicate count (unset value)

def addAfter (a : List (Range α)) (i s e : ℕ) (value : α) : List (Range α) :=
  let a := ngxArrayPush a 1 value
  let a := memmove a (i+2) (i+1) (a.length-2-i)
  a.set (i+1) ⟨s,e,value⟩

def splitRange (a : List (Range α)) (i : ℕ) (range : Range α) (s e : ℕ) (value : α) :
    List (Range α) :=
  let a := ngxArrayPush a 2 value
  let a := memmove a (i+3) (i+1) (a.length-3-i)
  let a := a.set (i+2) ⟨e+1,range.stop,range.value⟩
  let a := a.set (i+1) ⟨s,e,value⟩
  a.set i { range with stop := s-1 }

def shiftStart (a : List (Range α)) (i : ℕ) (s e : ℕ) (value : α) : List (Range α) :=
  let a := ngxArrayPush a 1 value
  let a := memmove a (i+1) i (a.length-1-i)
  let a := a.modify (i+1) (fun moved => { moved with start := e+1 })
  a.set i ⟨s,e,value⟩

def shiftEnd (a : List (Range α)) (i : ℕ) (range : Range α) (s e : ℕ) (value : α) :
    List (Range α) :=
  let a := ngxArrayPush a 1 value
  let a := memmove a (i+2) (i+1) (a.length-2-i)
  let a := a.set (i+1) ⟨s,e,value⟩
  a.set i { range with stop := s-1 }

/-- The scan of one array, backwards from the range before `i`. -/
@[grind =] def addPiece (a : List (Range α)) (s e : ℕ) (value : α) : ℕ → Option (List (Range α))
  | 0 => some (a++[⟨s,e,value⟩])
  | i+1 =>
    match a[i]? with
    | none => none
    | some range =>
      if e < range.start then addPiece a s e value i
      else if range.stop < s then some (addAfter a i s e value)
      else if s = range.start ∧ e = range.stop then some (a.set i { range with value := value })
      else if range.start < s ∧ e < range.stop then some (splitRange a i range s e value)
      else if s = range.start ∧ e < range.stop then some (shiftStart a i s e value)
      else if range.start < s ∧ e = range.stop then some (shiftEnd a i range s e value)
      else none

def pieceStart (start n : ℕ) : ℕ := if n = start then n % 0x10000 else 0

def pieceEnd (stop n : ℕ) : ℕ :=
  if stop < n / 0x10000 * 0x10000 + 0xffff then stop % 0x10000 else 0xffff

/-- The loop over the blocks, from address `n`. -/
@[grind =] def addLoop (start stop : ℕ) (value : α) : ℕ → Low α → ℕ → Outcome (Low α)
  | 0, _, _ => .endless
  | fuel+1, low, n =>
    if n ≤ stop then
      let h := n / 0x10000
      let a := (low h).getD []
      match addPiece a (pieceStart start n) (pieceEnd stop n) value a.length with
      | none => .error
      | some a => addLoop start stop value fuel (Function.update low h (some a))
          ((n+0x10000) % 2^32 / 0x10000 * 0x10000)
    else .done low

def ngxHttpGeoAddRange (low : Low α) (start stop : ℕ) (value : α) : Outcome (Low α) :=
  addLoop start stop value 0x10001 low start

@[grind =] def deletePiece (a : List (Range α)) (s e : ℕ) : List (Range α) → ℕ → Bool →
    List (Range α) × Bool
  | [], _, warn => (a, warn)
  | range :: rest, i, warn =>
    if s = range.start ∧ e = range.stop then
      ((memmove a i (i+1) (a.length-1-i)).take (a.length-1), warn)
    else if s ≠ range.start ∧ e ≠ range.stop then deletePiece a s e rest (i+1) warn
    else deletePiece a s e rest (i+1) true

@[grind =] def deleteLoop (start stop : ℕ) : ℕ → Low α → Bool → ℕ → Outcome (Low α × Bool)
  | 0, _, _, _ => .endless
  | fuel+1, low, warn, n =>
    if n ≤ stop then
      let h := n / 0x10000
      match low h with
      | none => deleteLoop start stop fuel low true ((n+0x10000) % 2^32)
      | some a =>
        let (a, warn) := deletePiece a (pieceStart start n) (pieceEnd stop n) a 0 warn
        deleteLoop start stop fuel (Function.update low h (some a)) warn ((n+0x10000) % 2^32)
    else .done (low, warn)

def ngxHttpGeoDeleteRange (low : Low α) (start stop : ℕ) : Outcome (Low α × Bool) :=
  deleteLoop start stop 0x10001 low false start

/-- What `low` points to once the block has been parsed. An emptied array is
left in place of a packed one, and the pool it lives in is destroyed. -/
inductive Packed (α : Type*) where
  | null
  | ranges (packed : List (Range α))
  | stale
  deriving DecidableEq, Repr

def pack : Option (List (Range α)) → Packed α
  | none => .null
  | some [] => .stale
  | some (range :: rest) => .ranges (range :: rest)

@[grind =] def walkRanges (n : ℕ) : List (Range α) → Option α
  | [] => none
  | range :: rest =>
    if range.start ≤ n ∧ n ≤ range.stop then some range.value else walkRanges n rest

def ngxHttpGeoRangeVariable (low : ℕ → Packed α) (default : α) (addr : ℕ) : Option α :=
  match low (addr / 0x10000) with
  | .null => some default
  | .ranges packed => some ((walkRanges (addr % 0x10000) packed).getD default)
  | .stale => none

end Nginx.GeoRanges
