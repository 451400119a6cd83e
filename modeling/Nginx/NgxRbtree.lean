import Nginx.RedBlackTree
import Mathlib.Logic.Function.Basic

/-!
# The red-black tree of the core

Nodes live in a memory indexed by their addresses. The null pointer is the
address 0, and the tree takes no notice of what is there. The two
mirror images of each piece of code are one definition with a side. `link left`
and `link right` are the pointers `left` and `right`. A loop that has not ended
when its fuel is used up gives no result.
-/

set_option autoImplicit false

namespace Nginx.NgxRbtree
open Nginx.RedBlackTree

structure Node where
  key : ℕ
  link : Side → ℕ
  parent : ℕ
  red : Bool

structure Rbtree where
  root : ℕ
  sentinel : ℕ
  nodes : ℕ → Node

def Rbtree.set (t : Rbtree) (x : ℕ) (node : Node) : Rbtree :=
  { t with nodes := Function.update t.nodes x node }

def Rbtree.setLink (t : Rbtree) (x : ℕ) (s : Side) (p : ℕ) : Rbtree :=
  t.set x { t.nodes x with link := Function.update (t.nodes x).link s p }

def Rbtree.setParent (t : Rbtree) (x p : ℕ) : Rbtree := t.set x { t.nodes x with parent := p }

def Rbtree.setRed (t : Rbtree) (x : ℕ) (red : Bool) : Rbtree :=
  t.set x { t.nodes x with red := red }

def Rbtree.setKey (t : Rbtree) (x key : ℕ) : Rbtree := t.set x { t.nodes x with key := key }

def Rbtree.setRoot (t : Rbtree) (x : ℕ) : Rbtree := { t with root := x }

def Rbtree.link (t : Rbtree) (x : ℕ) (s : Side) : ℕ := (t.nodes x).link s

def Rbtree.parent (t : Rbtree) (x : ℕ) : ℕ := (t.nodes x).parent

def Rbtree.isRed (t : Rbtree) (x : ℕ) : Bool := (t.nodes x).red

def Rbtree.key (t : Rbtree) (x : ℕ) : ℕ := (t.nodes x).key

/-- `ngx_rbtree_init`, in a memory that holds anything. -/
def ngxRbtreeInit (nodes : ℕ → Node) (s : ℕ) : Rbtree :=
  Rbtree.setRed ⟨s,s,nodes⟩ s false

/-- A rotation that moves `node` down to the side `s`. -/
def rotate (s : Side) (t : Rbtree) (node : ℕ) : Rbtree :=
  let temp := t.link node s.other
  let t := t.setLink node s.other (t.link temp s)
  let t := if t.link temp s ≠ t.sentinel then t.setParent (t.link temp s) node else t
  let t := t.setParent temp (t.parent node)
  let t :=
    if node = t.root then t.setRoot temp
    else if node = t.link (t.parent node) s then t.setLink (t.parent node) s temp
    else t.setLink (t.parent node) s.other temp
  let t := t.setLink temp s node
  t.setParent node temp

def ngxRbtreeLeftRotate (t : Rbtree) (node : ℕ) : Rbtree := rotate .left t node

def ngxRbtreeRightRotate (t : Rbtree) (node : ℕ) : Rbtree := rotate .right t node

def sideRotate : Side → Rbtree → ℕ → Rbtree
  | .left => ngxRbtreeLeftRotate
  | .right => ngxRbtreeRightRotate

def attach (t : Rbtree) (temp : ℕ) (s : Side) (node : ℕ) : Rbtree :=
  let t := t.setLink temp s node
  let t := t.setParent node temp
  let t := t.setLink node .left t.sentinel
  let t := t.setLink node .right t.sentinel
  t.setRed node true

/-- The loop of the insert functions. `goesLeft` is the comparison of the new
node with the node at hand. -/
@[grind =] def insertLoop (goesLeft : Rbtree → ℕ → ℕ → Bool) (t : Rbtree) (node : ℕ) :
    ℕ → ℕ → Option Rbtree
  | 0, _ => none
  | fuel+1, temp =>
    let s : Side := if goesLeft t node temp then .left else .right
    if t.link temp s = t.sentinel then some (attach t temp s node)
    else insertLoop goesLeft t node fuel (t.link temp s)

def keyLess (t : Rbtree) (node temp : ℕ) : Bool := t.key node < t.key temp

def ngxRbtreeInsertValue (fuel : ℕ) (t : Rbtree) (temp node : ℕ) : Option Rbtree :=
  insertLoop keyLess t node fuel temp

/-- One round of the loop of `ngx_rbtree_insert` for a parent on the side `s`,
with the node that the next round looks at. -/
def insertRound (s : Side) (t : Rbtree) (node : ℕ) : Rbtree × ℕ :=
  let temp := t.link (t.parent (t.parent node)) s.other
  if t.isRed temp then
    let t := t.setRed (t.parent node) false
    let t := t.setRed temp false
    let t := t.setRed (t.parent (t.parent node)) true
    (t, t.parent (t.parent node))
  else
    let turned :=
      if node = t.link (t.parent node) s.other then
        (sideRotate s t (t.parent node), t.parent node)
      else (t, node)
    let t := turned.1
    let node := turned.2
    let t := t.setRed (t.parent node) false
    let t := t.setRed (t.parent (t.parent node)) true
    (sideRotate s.other t (t.parent (t.parent node)), node)

@[grind =] def insertFixup : ℕ → Rbtree → ℕ → Option Rbtree
  | 0, _, _ => none
  | fuel+1, t, node =>
    if node ≠ t.root ∧ t.isRed (t.parent node) then
      let s : Side :=
        if t.parent node = t.link (t.parent (t.parent node)) .left then .left else .right
      let next := insertRound s t node
      insertFixup fuel next.1 next.2
    else some (t.setRed t.root false)

/-- `ngx_rbtree_insert` with one of the insert functions. -/
def ngxRbtreeInsert (goesLeft : Rbtree → ℕ → ℕ → Bool) (fuel : ℕ) (t : Rbtree) (node : ℕ) :
    Option Rbtree :=
  if t.root = t.sentinel then
    let t := t.setParent node 0
    let t := t.setLink node .left t.sentinel
    let t := t.setLink node .right t.sentinel
    let t := t.setRed node false
    some (t.setRoot node)
  else (insertLoop goesLeft t node fuel t.root).bind (fun t => insertFixup fuel t node)

@[grind =] def ngxRbtreeMin (t : Rbtree) : ℕ → ℕ → Option ℕ
  | 0, _ => none
  | fuel+1, node =>
    if t.link node .left ≠ t.sentinel then ngxRbtreeMin t fuel (t.link node .left) else some node

/-- The repair of a red sibling of `temp`, which lies on the side `s` of its
parent. -/
def redSibling (s : Side) (t : Rbtree) (temp : ℕ) : Rbtree :=
  let w := t.link (t.parent temp) s.other
  if t.isRed w then
    let t := t.setRed w false
    let t := t.setRed (t.parent temp) true
    sideRotate s t (t.parent temp)
  else t

def blackOuter (s : Side) (t : Rbtree) (temp : ℕ) : Rbtree :=
  let w := t.link (t.parent temp) s.other
  if !t.isRed (t.link w s.other) then
    let t := t.setRed (t.link w s) false
    let t := t.setRed w true
    sideRotate s.other t w
  else t

def redOuter (s : Side) (t : Rbtree) (temp : ℕ) : Rbtree :=
  let w := t.link (t.parent temp) s.other
  let t := t.setRed w (t.isRed (t.parent temp))
  let t := t.setRed (t.parent temp) false
  let t := t.setRed (t.link w s.other) false
  sideRotate s t (t.parent temp)

/-- One round of the loop of `ngx_rbtree_delete`, with the node that the next round
looks at. -/
def deleteRound (s : Side) (t : Rbtree) (temp : ℕ) : Rbtree × ℕ :=
  let t := redSibling s t temp
  let w := t.link (t.parent temp) s.other
  if !t.isRed (t.link w .left) ∧ !t.isRed (t.link w .right) then
    let t := t.setRed w true
    (t, t.parent temp)
  else
    let t := redOuter s (blackOuter s t temp) temp
    (t, t.root)

@[grind =] def deleteFixup : ℕ → Rbtree → ℕ → Option Rbtree
  | 0, _, _ => none
  | fuel+1, t, temp =>
    if temp ≠ t.root ∧ !t.isRed temp then
      let s : Side := if temp = t.link (t.parent temp) .left then .left else .right
      let next := deleteRound s t temp
      deleteFixup fuel next.1 next.2
    else some (t.setRed temp false)

def clearNode (t : Rbtree) (node : ℕ) : Rbtree :=
  let t := t.setLink node .left 0
  let t := t.setLink node .right 0
  let t := t.setParent node 0
  t.setKey node 0

/-- The relinking in `ngx_rbtree_delete`: `subst` leaves its place to `temp` and
takes that of `node`. -/
def splice (t : Rbtree) (node subst temp : ℕ) : Rbtree :=
  let t :=
    if subst = t.link (t.parent subst) .left then t.setLink (t.parent subst) .left temp
    else t.setLink (t.parent subst) .right temp
  if subst = node then t.setParent temp (t.parent subst)
  else
    let t :=
      if t.parent subst = node then t.setParent temp subst
      else t.setParent temp (t.parent subst)
    let t := t.setLink subst .left (t.link node .left)
    let t := t.setLink subst .right (t.link node .right)
    let t := t.setParent subst (t.parent node)
    let t := t.setRed subst (t.isRed node)
    let t :=
      if node = t.root then t.setRoot subst
      else if node = t.link (t.parent node) .left then t.setLink (t.parent node) .left subst
      else t.setLink (t.parent node) .right subst
    let t := if t.link subst .left ≠ t.sentinel then t.setParent (t.link subst .left) subst else t
    if t.link subst .right ≠ t.sentinel then t.setParent (t.link subst .right) subst else t

def ngxRbtreeDelete (fuel : ℕ) (t : Rbtree) (node : ℕ) : Option Rbtree :=
  let chosen :=
    if t.link node .left = t.sentinel then some (t.link node .right, node)
    else if t.link node .right = t.sentinel then some (t.link node .left, node)
    else (ngxRbtreeMin t fuel (t.link node .right)).map (fun subst =>
      (if t.link subst .left ≠ t.sentinel then t.link subst .left else t.link subst .right, subst))
  chosen.bind (fun (temp, subst) =>
    if subst = t.root then
      let t := t.setRoot temp
      let t := t.setRed temp false
      some (clearNode t node)
    else
      let red := t.isRed subst
      let t := clearNode (splice t node subst temp) node
      if red then some t else deleteFixup fuel t temp)

end Nginx.NgxRbtree
