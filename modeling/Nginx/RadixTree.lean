import Nginx.PrefixMap
import Mathlib.Data.BitVec

/-!
# The radix tree of IPv4 networks

Nodes live at addresses of a heap and the null pointer is zero. A node is taken
from the list of recycled nodes, which is linked through their right pointers,
or cut from the last page of the pool. Every access to a node goes through
`node`, which faults on the null pointer; a loop that does not end within the
turns that a 32-bit key allows faults as well.
-/

set_option autoImplicit false

namespace Nginx.RadixTree

abbrev Key := BitVec 32

structure Node where
  right : ℕ
  left : ℕ
  parent : ℕ
  value : UInt64
  deriving DecidableEq, Repr

/-- `pool` is where the next page of the pool begins. -/
structure Tree where
  root : ℕ
  free : ℕ
  start : ℕ
  size : ℕ
  pool : ℕ
  nodes : ℕ → Node

inductive Fault where
  | nullPointer
  | endless
  deriving DecidableEq, Repr

inductive Code where
  | ok
  | busy
  | error
  deriving DecidableEq, Repr

def noValue : UInt64 := 0xffffffffffffffff

def nodeSize : ℕ := 32
def pagesize : ℕ := 4096

def Tree.node (t : Tree) (p : ℕ) : Except Fault Node :=
  if p = 0 then .error .nullPointer else .ok (t.nodes p)

def Tree.setNode (t : Tree) (p : ℕ) (n : Node) : Tree :=
  { t with nodes := Function.update t.nodes p n }

def Node.next (n : Node) (right : Bool) : ℕ := if right then n.right else n.left

def Node.setNext (n : Node) (right : Bool) (p : ℕ) : Node :=
  if right then { n with right := p } else { n with left := p }

def ngxRadixAlloc (t : Tree) : Tree × ℕ :=
  if t.free ≠ 0 then ({ t with free := (t.nodes t.free).right }, t.free)
  else
    let t := if t.size < nodeSize then
        { t with start := t.pool, pool := t.pool+pagesize, size := pagesize }
      else t
    ({ t with start := t.start+nodeSize, size := t.size-nodeSize }, t.start)

/-- The first loop of an insertion: down to the node of the prefix or to the
last node above it, then with a null `next`. -/
@[grind =] def insertDescend (t : Tree) (key mask : Key) :
    ℕ → Key → ℕ → ℕ → Except Fault (Key × ℕ × ℕ)
  | 0, _, _, _ => .error .endless
  | fuel+1, bit, node, next =>
    if bit &&& mask = 0 then .ok (bit, node, next)
    else
      (t.node node).bind fun cell =>
        let next := cell.next (key &&& bit ≠ 0)
        if next = 0 then .ok (bit, node, next)
        else insertDescend t key mask fuel (bit >>> 1) next next

@[grind =] def insertGrow (key mask : Key) : ℕ → Tree → Key → ℕ → Except Fault (Tree × ℕ)
  | 0, _, _, _ => .error .endless
  | fuel+1, t, bit, node =>
    if bit &&& mask = 0 then .ok (t, node)
    else
      let (t, next) := ngxRadixAlloc t
      let t := t.setNode next { right := 0, left := 0, parent := node, value := noValue }
      (t.node node).bind fun cell =>
        insertGrow key mask fuel (t.setNode node (cell.setNext (key &&& bit ≠ 0) next))
          (bit >>> 1) next

def firstBit : Key := 0x80000000#32

def ngxRadix32treeInsert (t : Tree) (key mask : Key) (value : UInt64) :
    Except Fault (Tree × Code) :=
  (insertDescend t key mask 33 firstBit t.root t.root).bind fun (bit, node, next) =>
    if next ≠ 0 then
      (t.node node).bind fun cell =>
        if cell.value ≠ noValue then .ok (t, .busy)
        else .ok (t.setNode node { cell with value := value }, .ok)
    else
      (insertGrow key mask 33 t bit node).bind fun (t, node) =>
        (t.node node).bind fun cell => .ok (t.setNode node { cell with value := value }, .ok)

@[grind =] def deleteDescend (t : Tree) (key mask : Key) : ℕ → Key → ℕ → Except Fault ℕ
  | 0, _, _ => .error .endless
  | fuel+1, bit, node =>
    if node ≠ 0 ∧ bit &&& mask ≠ 0 then
      (t.node node).bind fun cell =>
        deleteDescend t key mask fuel (bit >>> 1) (cell.next (key &&& bit ≠ 0))
    else .ok node

/-- The endless loop that recycles a childless node and then its ancestors as
far as they hold nothing. -/
@[grind =] def deletePrune : ℕ → Tree → ℕ → Except Fault Tree
  | 0, _, _ => .error .endless
  | fuel+1, t, node =>
    (t.node node).bind fun cell =>
      (t.node cell.parent).bind fun above =>
        let t := t.setNode cell.parent
          (if above.right = node then { above with right := 0 } else { above with left := 0 })
        (t.node node).bind fun cell =>
          let t := { t.setNode node { cell with right := t.free } with free := node }
          (t.node cell.parent).bind fun above =>
            if above.right ≠ 0 ∨ above.left ≠ 0 then .ok t
            else if above.value ≠ noValue then .ok t
            else if above.parent = 0 then .ok t
            else deletePrune fuel t cell.parent

def ngxRadix32treeDelete (t : Tree) (key mask : Key) : Except Fault (Tree × Code) :=
  (deleteDescend t key mask 33 firstBit t.root).bind fun node =>
    if node = 0 then .ok (t, .error)
    else
      (t.node node).bind fun cell =>
        if cell.right ≠ 0 ∨ cell.left ≠ 0 then
          if cell.value ≠ noValue then
            .ok (t.setNode node { cell with value := noValue }, .ok)
          else .ok (t, .error)
        else (deletePrune 33 t node).bind fun t => .ok (t, .ok)

@[grind =] def findLoop (t : Tree) (key : Key) : ℕ → Key → ℕ → UInt64 → Except Fault UInt64
  | 0, _, _, _ => .error .endless
  | fuel+1, bit, node, value =>
    if node = 0 then .ok value
    else
      (t.node node).bind fun cell =>
        findLoop t key fuel (bit >>> 1) (cell.next (key &&& bit ≠ 0))
          (if cell.value ≠ noValue then cell.value else value)

def ngxRadix32treeFind (t : Tree) (key : Key) : Except Fault UInt64 :=
  findLoop t key 34 firstBit t.root noValue

/-- The number of bits that are preallocated; -1 stands for a choice by the
number of tree headers in a page. -/
def preallocatedBits (headersInPage : ℕ) (preallocate : ℤ) : ℕ :=
  if preallocate = -1 then
    if headersInPage = 128 then 6 else if headersInPage = 256 then 7 else 8
  else preallocate.toNat

@[grind =] def preallocateKeys (mask inc : Key) : ℕ → Tree → Key → Except Fault (Tree × Code)
  | 0, _, _ => .error .endless
  | fuel+1, t, key =>
    (ngxRadix32treeInsert t key mask noValue).bind fun (t, code) =>
      if code ≠ .ok then .ok (t, .error)
      else if key+inc = 0 then .ok (t, .ok)
      else preallocateKeys mask inc fuel t (key+inc)

@[grind =] def preallocateLoop : ℕ → Tree → Key → Key → Except Fault (Tree × Code)
  | 0, t, _, _ => .ok (t, .ok)
  | left+1, t, mask, inc =>
    let mask := (mask >>> 1) ||| 0x80000000#32
    (preallocateKeys mask inc (2^32) t 0).bind fun (t, code) =>
      if code ≠ .ok then .ok (t, .error) else preallocateLoop left t mask (inc >>> 1)

/-- The pool hands out its pages in order, none of them at the null address. -/
def emptyTree : Tree where
  root := 0
  free := 0
  start := 0
  size := 0
  pool := pagesize
  nodes := fun _ => ⟨0,0,0,0⟩

def ngxRadixTreeCreate (headersInPage : ℕ) (preallocate : ℤ) : Except Fault (Tree × Code) :=
  let (t, root) := ngxRadixAlloc emptyTree
  let t := { t with root := root }
  let t := t.setNode root { right := 0, left := 0, parent := 0, value := noValue }
  preallocateLoop (preallocatedBits headersInPage preallocate) t 0 firstBit

end Nginx.RadixTree
