import Nginx.RbtreeKept
import Nginx.Runs
import Mathlib.Order.Basic
import Mathlib.Algebra.Order.Group.Nat

/-!
# What the red-black tree keeps

Read off the memory alone: the sequence of the nodes, the links, the colours and
the black nodes on the ways down. All of it holds after any run of insertions and
deletions, in a memory whose other nodes hold anything.
-/

set_option autoImplicit false

namespace Nginx.RbtreeLaw
open Nginx.RedBlackTree Nginx.RedBlackRepair Nginx.NgxRbtree Nginx.RbtreeShape Nginx.RbtreeLinks
open Nginx.RbtreeInsert Nginx.RbtreeAddition Nginx.RbtreeKept

/-- The nodes below `x` from left to right. -/
inductive InOrder (t : Rbtree) : ℕ → List ℕ → Prop where
  | sentinel : InOrder t t.sentinel []
  | node (x : ℕ) (xs ys : List ℕ) (hx : x ≠ t.sentinel) (hl : InOrder t (t.link x .left) xs)
      (hr : InOrder t (t.link x .right) ys) : InOrder t x (xs++x::ys)

/-- A way from `x` down to the sentinel over so many black nodes. -/
inductive Descends (t : Rbtree) : ℕ → ℕ → Prop where
  | sentinel : Descends t t.sentinel 0
  | node (x : ℕ) (s : Side) (n : ℕ) (hx : x ≠ t.sentinel) (h : Descends t (t.link x s) n) :
      Descends t x (if t.isRed x then n else n+1)

/-- The tree has the nodes `xs`, and is a red-black tree whose links agree. -/
structure Balanced (t : Rbtree) (xs : List ℕ) : Prop where
  inOrder : InOrder t t.root xs
  nodup : xs.Nodup
  root_black : t.isRed t.root = false
  sentinel_black : t.isRed t.sentinel = false
  red_black : ∀ x ∈ xs, t.isRed x = true → ∀ s, t.isRed (t.link x s) = false
  heights : ∀ m n, Descends t t.root m → Descends t t.root n → m = n
  child : ∀ x ∈ xs, ∀ s, t.link x s ≠ t.sentinel → t.parent (t.link x s) = x
  parent : ∀ x ∈ xs, x ≠ t.root → t.parent x ∈ xs ∧ ∃ s, t.link (t.parent x) s = x

/-- The trees that insertions and deletions lead to. Outside the tree the memory
may change in any way. -/
inductive Reached : Rbtree → Prop where
  | init (nodes : ℕ → Node) (s : ℕ) : Reached (ngxRbtreeInit nodes s)
  | write (t : Rbtree) (xs : List ℕ) (x : ℕ) (node : Node) (h : Reached t)
      (hxs : InOrder t t.root xs) (hx : x ∉ xs) (hs : x ≠ t.sentinel) : Reached (t.set x node)
  | insert (t t' : Rbtree) (xs : List ℕ) (x : ℕ) (h : Reached t) (hxs : InOrder t t.root xs)
      (hx : x ∉ xs) (hs : x ≠ t.sentinel) (hrun : Inserts keyLess t x t') : Reached t'
  | delete (t t' : Rbtree) (xs : List ℕ) (x : ℕ) (h : Reached t) (hxs : InOrder t t.root xs)
      (hx : x ∈ xs) (hrun : Deletes t x t') : Reached t'

theorem in_order_eq (t : Rbtree) (x : ℕ) (xs ys : List ℕ) (h : InOrder t x xs)
    (h' : InOrder t x ys) : xs = ys := by
  induction h generalizing ys with
  | sentinel =>
    cases h' with
    | sentinel => rfl
    | node _ _ _ hx => exact absurd rfl hx
  | node x ls rs hx _ _ ihl ihr =>
    cases h' with
    | sentinel => exact absurd rfl hx
    | node _ ls' rs' _ hl' hr' => rw [ihl ls' hl', ihr rs' hr']

theorem tree_in_order (t : Rbtree) (parent : ℕ) (T : RedBlackTree.Tree ℕ) (h : TreeAt t parent T) :
    InOrder t (ptr t.sentinel T) T.ids := by
  induction T generalizing parent with
  | leaf => exact InOrder.sentinel
  | node red l x r ihl ihr =>
    obtain ⟨hx,-,-,hl,hr,htl,htr⟩ := h
    refine InOrder.node x l.ids r.ids hx ?_ ?_
    · rw [hl]
      exact ihl x htl
    · rw [hr]
      exact ihr x htr

theorem tree_heights (t : Rbtree) (parent : ℕ) (T : RedBlackTree.Tree ℕ) (n m : ℕ) (h : TreeAt t parent T)
    (hrb : RedBlack T n) (hd : Descends t (ptr t.sentinel T) m) : m = n := by
  induction T generalizing parent n m with
  | leaf =>
    have hn : n = 0 := hrb
    rw [hn]
    generalize hp : ptr t.sentinel .leaf = p at hd
    cases hd with
    | sentinel => rfl
    | node _ _ _ hx => exact absurd hp.symm hx
  | node red l x r ihl ihr =>
    obtain ⟨hx,hred,-,hl,hr,htl,htr⟩ := h
    obtain ⟨-,k,hkl,hkr,hn⟩ := hrb
    rw [ptr] at hd
    cases hd with
    | sentinel => exact absurd rfl hx
    | node _ s j _ hd =>
      have hj : j = k := by
        cases s with
        | left => exact ihl x k j htl hkl (hl ▸ hd)
        | right => exact ihr x k j htr hkr (hr ▸ hd)
      rw [hn, hj, hred]

theorem holds_balanced (t : Rbtree) (above : ℕ) (T : RedBlackTree.Tree ℕ) (h : Holds t above [] T)
    (hsound : Sound T) : Balanced t T.ids := by
  have hroot : t.root = ptr t.sentinel T := h.path_at
  obtain ⟨⟨n,hrb⟩,hblack⟩ := hsound
  refine ⟨?_,h.nodup,?_,h.black,fun x hx hred s => ?_,fun m m' hm hm' => ?_,
    fun x hx s hc => (child_links t above T x s h hx hc).2.1,fun x hx hr => ?_⟩
  · rw [hroot]
    exact tree_in_order t _ T h.tree_at
  · rw [hroot, isRed_ptr t _ T h.black h.tree_at, hblack]
  · obtain ⟨path,red,a,b,rfl⟩ := fill_focus T x hx s
    have hat := (holds_fill t above path _).mpr h
    obtain ⟨k,hk,-⟩ := fill_fits path _ n hrb
    rw [redBlack_join] at hk
    obtain ⟨-,hc,-,hlink,-⟩ := holds_node t above path s red a x b hat
    have htree := hat.tree_at
    rw [tree_at_join] at htree
    rw [hlink, isRed_ptr t x a hat.black htree.2.2.2.2.2.1]
    exact (hk.1 (by rw [← hc, hred])).1
  · rw [hroot] at hm hm'
    rw [tree_heights t _ T n m h.tree_at hrb hm, tree_heights t _ T n m' h.tree_at hrb hm']
  · obtain ⟨hin,-,hs⟩ := parent_links t above T x h hx hr
    exact ⟨hin,hs⟩

theorem kept_eq (t : Rbtree) (T : RedBlackTree.Tree ℕ) (xs : List ℕ) (h : Kept t t.key T)
    (hxs : InOrder t t.root xs) : xs = T.ids := by
  obtain ⟨above,hat⟩ := h.holds
  exact in_order_eq t _ _ _ hxs (holds_balanced t above T hat h.sound).inOrder

theorem key_less (t : Rbtree) (node x : ℕ) : keyLess t node x = true ↔ t.key node < t.key x :=
  decide_eq_true_iff

theorem insert_sorted (t t' : Rbtree) (T : RedBlackTree.Tree ℕ) (node : ℕ) (h : Kept t t.key T)
    (hn : node ∉ T.ids) (hs : node ≠ t.sentinel) (hrun : Inserts keyLess t node t') :
    ∃ T' before after, Kept t' t'.key T' ∧ Between t.key node T.ids before after ∧
      T'.ids = before++node::after := by
  obtain ⟨hkeys,T',xs,ys,hT',hbetween,hids⟩ :=
    (insert_kept keyLess t t.key T node h hn hs (key_less t node)).2 t' hrun
  exact ⟨T',xs,ys,kept_congr t' t.key t'.key T' hT' (fun x _ => hkeys.2 x),hbetween,hids⟩

theorem delete_sorted (t t' : Rbtree) (T : RedBlackTree.Tree ℕ) (node : ℕ) (h : Kept t t.key T)
    (hn : node ∈ T.ids) (hrun : Deletes t node t') :
    ∃ T', Kept t' t'.key T' ∧ T'.ids = T.ids.erase node := by
  obtain ⟨-,hkeys,T',hT',hids⟩ := (delete_kept t t.key T node h hn).2 t' hrun
  refine ⟨T',kept_congr t' t.key t'.key T' hT' (fun x hx => hkeys x ?_),hids⟩
  rw [hids] at hx
  exact ((List.Nodup.mem_erase_iff (kept_nodup t t.key T h)).mp hx).1

theorem reached_kept (t : Rbtree) (h : Reached t) : ∃ T, Kept t t.key T := by
  induction h with
  | init nodes s => exact ⟨.leaf,kept_init nodes s _⟩
  | write t xs x node _ hxs hx hs ih =>
    obtain ⟨T,hT⟩ := ih
    rw [kept_eq t T xs hT hxs] at hx
    refine ⟨T,kept_congr _ t.key _ T (kept_write t t.key T x node hT hx hs) (fun y hy => ?_)⟩
    have hyx : y ≠ x := fun he => hx (he ▸ hy)
    simp [Rbtree.key, Rbtree.set, hyx]
  | insert t t' xs x _ hxs hx hs hrun ih =>
    obtain ⟨T,hT⟩ := ih
    rw [kept_eq t T xs hT hxs] at hx
    obtain ⟨T',-,-,hT',-⟩ := insert_sorted t t' T x hT hx hs hrun
    exact ⟨T',hT'⟩
  | delete t t' xs x _ hxs hx hrun ih =>
    obtain ⟨T,hT⟩ := ih
    rw [kept_eq t T xs hT hxs] at hx
    obtain ⟨T',hT',-⟩ := delete_sorted t t' T x hT hx hrun
    exact ⟨T',hT'⟩

theorem kept_balanced (t : Rbtree) (T : RedBlackTree.Tree ℕ) (h : Kept t t.key T) : Balanced t T.ids := by
  obtain ⟨⟨above,hat⟩,hsound,-⟩ := h
  exact holds_balanced t above T hat hsound

/-- Every reached tree is a red-black tree. An insertion ends and adds its node behind
the nodes with keys that are not greater, a deletion ends and takes its node out. -/
theorem rbtree_law (t : Rbtree) (h : Reached t) : ∃ xs, Balanced t xs ∧
    (∀ node, node ≠ t.sentinel → node ∉ xs → (∃ t', Inserts keyLess t node t') ∧
      ∀ t', Inserts keyLess t node t' → ∃ before after, Between t.key node xs before after ∧
        Balanced t' (before++node::after)) ∧
    ∀ node ∈ xs, (∃ t', Deletes t node t') ∧
      ∀ t', Deletes t node t' → Balanced t' (xs.erase node) := by
  obtain ⟨T,hT⟩ := reached_kept t h
  refine ⟨T.ids,kept_balanced t T hT,fun node hs hn => ⟨?_,fun t' hrun => ?_⟩,
    fun node hn => ⟨?_,fun t' hrun => ?_⟩⟩
  · exact (insert_kept keyLess t t.key T node hT hn hs (key_less t node)).1
  · obtain ⟨T',xs,ys,hT',hbetween,hids⟩ := insert_sorted t t' T node hT hn hs hrun
    exact ⟨xs,ys,hbetween,hids ▸ kept_balanced t' T' hT'⟩
  · exact (delete_kept t t.key T node hT hn).1
  · obtain ⟨T',hT',hids⟩ := delete_sorted t t' T node hT hn hrun
    exact hids ▸ kept_balanced t' T' hT'

/-- The list of the nodes below `x`, from so many levels. -/
def nodesBelow (t : Rbtree) : ℕ → ℕ → Option (List ℕ)
  | 0, _ => none
  | fuel+1, x =>
    if x = t.sentinel then some []
    else (nodesBelow t fuel (t.link x .left)).bind (fun xs =>
      (nodesBelow t fuel (t.link x .right)).map (fun ys => xs++x::ys))

theorem nodes_below_in_order (t : Rbtree) (fuel x : ℕ) (xs : List ℕ) (h : nodesBelow t fuel x = some xs) :
    InOrder t x xs := by
  induction fuel generalizing x xs with
  | zero => cases h
  | succ fuel ih =>
    rw [nodesBelow] at h
    by_cases hx : x = t.sentinel
    · rw [if_pos hx] at h
      cases h
      rw [hx]
      exact InOrder.sentinel
    rw [if_neg hx] at h
    obtain ⟨ls,hl,h⟩ := Option.bind_eq_some_iff.mp h
    obtain ⟨rs,hr,rfl⟩ := Option.map_eq_some_iff.mp h
    exact InOrder.node x ls rs hx (ih _ ls hl) (ih _ rs hr)

def runCheck (s : Rbtree × List ℕ) : Step → Bool
  | .insert x => (nodesBelow s.1 9 s.1.root).any fun xs => decide (x ∉ xs ∧ x ≠ s.1.sentinel)
  | .delete x => (nodesBelow s.1 9 s.1.root).any fun xs => decide (x ∈ xs)

theorem run_step_reached (s : Rbtree × List ℕ) (a : Step) (s' : Rbtree × List ℕ)
    (hs : Reached s.1) (ha : runCheck s a = true) (h : runStep keyLess s a = some s') :
    Reached s'.1 := by
  cases a with
  | insert x =>
    obtain ⟨t,hrun,rfl⟩ := Option.map_eq_some_iff.mp h
    obtain ⟨xs,hxs,hx⟩ := (Option.any_eq_true _ _).mp ha
    obtain ⟨hx,hsentinel⟩ := of_decide_eq_true hx
    exact hs.insert _ _ xs x (nodes_below_in_order _ _ _ _ hxs) hx hsentinel ⟨9,hrun⟩
  | delete x =>
    obtain ⟨t,hrun,rfl⟩ := Option.map_eq_some_iff.mp h
    obtain ⟨xs,hxs,hx⟩ := (Option.any_eq_true _ _).mp ha
    exact hs.delete _ _ xs x (nodes_below_in_order _ _ _ _ hxs) (of_decide_eq_true hx) ⟨9,hrun⟩

theorem growing_run : (Runs.run (runStep keyLess) runCheck (numbered, []) growing).any (fun s =>
    decide (s.1.root = 4 ∧ nodesBelow s.1 9 s.1.root = some [2,4,5,6])) = true := by
  decide +kernel

theorem rbtree_law_growing : ∃ t, (t.root = 4 ∧ nodesBelow t 9 t.root = some [2,4,5,6]) ∧
    ∃ xs, Balanced t xs ∧
    (∀ node, node ≠ t.sentinel → node ∉ xs → (∃ t', Inserts keyLess t node t') ∧
      ∀ t', Inserts keyLess t node t' → ∃ before after, Between t.key node xs before after ∧
        Balanced t' (before++node::after)) ∧
    ∀ node ∈ xs, (∃ t', Deletes t node t') ∧
      ∀ t', Deletes t node t' → Balanced t' (xs.erase node) := by
  obtain ⟨s,hs,hlast⟩ := Runs.run_reaches (runStep keyLess) runCheck (fun s => Reached s.1)
    run_step_reached growing (numbered, []) (Reached.init _ 1) _ growing_run
  exact ⟨s.1,of_decide_eq_true hlast,rbtree_law s.1 hs⟩

end Nginx.RbtreeLaw
