import Mathlib.Data.List.Perm.Basic
import Mathlib.Tactic.Common

/-!
# Red-black trees with a position

A path lists the ancestors of a position from the nearest on, each with the side
on which the position lies below it. A tree is red-black of height `n` when no red
node has a red child and every way down passes `n` black nodes. A path fits a
height when it completes every black-rooted tree of that height to a red-black
tree.
-/

set_option autoImplicit false

namespace Nginx.RedBlackTree

inductive Side where
  | left
  | right
  deriving DecidableEq, Repr

def Side.other : Side → Side
  | .left => .right
  | .right => .left

@[simp] theorem Side.other_other (s : Side) : s.other.other = s := by
  cases s <;> rfl

@[simp] theorem Side.other_ne (s : Side) : s.other ≠ s := by
  cases s <;> simp [Side.other]

theorem Side.eq_or_other (s s' : Side) : s' = s ∨ s' = s.other := by
  cases s <;> cases s' <;> simp [Side.other]

variable {α : Type*}

inductive Tree (α : Type*) where
  | leaf
  | node (red : Bool) (l : Tree α) (x : α) (r : Tree α)
  deriving DecidableEq, Repr

/-- A position below the node `id`, on the given side. -/
structure Frame (α : Type*) where
  side : Side
  red : Bool
  id : α
  far : Tree α
  deriving DecidableEq, Repr

@[grind =] def Tree.ids : Tree α → List α
  | .leaf => []
  | .node _ l x r => l.ids++x::r.ids

def Tree.isRed : Tree α → Bool
  | .leaf => false
  | .node red _ _ _ => red

def Tree.blacken : Tree α → Tree α
  | .leaf => .leaf
  | .node _ l x r => .node false l x r

@[grind =] def Tree.map {β : Type*} (f : α → β) : Tree α → Tree β
  | .leaf => .leaf
  | .node red l x r => .node red (l.map f) (f x) (r.map f)

def Frame.map {β : Type*} (f : α → β) (g : Frame α) : Frame β :=
  ⟨g.side,g.red,f g.id,g.far.map f⟩

/-- A node whose subtree on the side `s` is `near`. -/
def join (s : Side) (red : Bool) (near : Tree α) (x : α) (far : Tree α) : Tree α :=
  match s with
  | .left => .node red near x far
  | .right => .node red far x near

def plug (f : Frame α) (t : Tree α) : Tree α := join f.side f.red t f.id f.far

@[grind =] def fill : List (Frame α) → Tree α → Tree α
  | [], t => t
  | f::path, t => fill path (plug f t)

def pathIds (path : List (Frame α)) : List α := path.flatMap (fun f => f.id::f.far.ids)

@[grind =] def before : List (Frame α) → List α
  | [] => []
  | f::path => before path++if f.side = .left then [] else f.far.ids++[f.id]

@[grind =] def behind : List (Frame α) → List α
  | [] => []
  | f::path => (if f.side = .left then f.id::f.far.ids else [])++behind path

@[grind =] def RedBlack : Tree α → ℕ → Prop
  | .leaf, n => n = 0
  | .node red l _ r, n => (red = true → l.isRed = false ∧ r.isRed = false) ∧
      ∃ k, RedBlack l k ∧ RedBlack r k ∧ n = if red then k else k+1

/-- Below the path there is room for a tree of height `n`, which may be red if
`red` says so. -/
def Fits : List (Frame α) → ℕ → Bool → Prop
  | [], _, _ => True
  | f::path, n, red => (f.red = true → red = false ∧ f.far.isRed = false) ∧ RedBlack f.far n ∧
      Fits path (if f.red then n else n+1) f.red

theorem join_other (s : Side) (red : Bool) (a : Tree α) (x : α) (b : Tree α) :
    join s.other red a x b = join s red b x a := by
  cases s <;> rfl

theorem join_isRed (s : Side) (red : Bool) (a : Tree α) (x : α) (b : Tree α) :
    (join s red a x b).isRed = red := by
  cases s <;> rfl

theorem join_perm (s : Side) (red : Bool) (a : Tree α) (x : α) (b : Tree α) :
    (join s red a x b).ids.Perm (x::(a.ids++b.ids)) := by
  cases s with
  | left => exact List.perm_middle
  | right => exact List.perm_middle.trans (List.Perm.cons x List.perm_append_comm)

theorem tree_cases (t : Tree α) (s : Side) :
    t = .leaf ∨ ∃ red a x b, t = join s red a x b := by
  cases t with
  | leaf => exact Or.inl rfl
  | node red l x r =>
    cases s with
    | left => exact Or.inr ⟨red,l,x,r,rfl⟩
    | right => exact Or.inr ⟨red,r,x,l,rfl⟩

theorem redBlack_join (s : Side) (red : Bool) (a : Tree α) (x : α) (b : Tree α) (n : ℕ) :
    RedBlack (join s red a x b) n ↔ (red = true → a.isRed = false ∧ b.isRed = false) ∧
      ∃ k, RedBlack a k ∧ RedBlack b k ∧ n = if red then k else k+1 := by
  cases s with
  | left => rfl
  | right =>
    rw [join, RedBlack]
    exact and_congr (imp_congr_right fun _ => and_comm)
      (exists_congr fun k => and_left_comm)

theorem fill_ids (path : List (Frame α)) (t : Tree α) :
    (fill path t).ids = before path++t.ids++behind path := by
  induction path generalizing t with
  | nil => simp [fill, before, behind]
  | cons f path ih =>
    rw [fill, ih, plug, before, behind]
    cases f.side <;> simp [join, Tree.ids]

theorem fill_perm (path : List (Frame α)) (t : Tree α) :
    (fill path t).ids.Perm (pathIds path++t.ids) := by
  induction path generalizing t with
  | nil => exact List.Perm.refl _
  | cons f path ih =>
    refine (ih (plug f t)).trans ?_
    have hplug := (join_perm f.side f.red t f.id f.far).append_left (pathIds path)
    have hpath : pathIds (f::path) = (f.id::f.far.ids)++pathIds path := List.flatMap_cons
    rw [hpath]
    refine hplug.trans ?_
    refine List.perm_append_comm.trans ?_
    simp only [List.cons_append]
    refine List.Perm.cons _ ?_
    refine (List.perm_append_comm.append_right _).trans ?_
    simp only [List.append_assoc]
    exact List.Perm.append_left _ List.perm_append_comm

theorem join_ids (s : Side) (red red' : Bool) (a a' b b' : Tree α) (x : α) (ha : a'.ids = a.ids)
    (hb : b'.ids = b.ids) : (join s red' a' x b').ids = (join s red a x b).ids := by
  cases s <;> simp [join, Tree.ids, ha, hb]

theorem fill_ids_congr (path : List (Frame α)) (t t' : Tree α) (h : t'.ids = t.ids) :
    (fill path t').ids = (fill path t).ids := by
  rw [fill_ids, fill_ids, h]

theorem fits_black (path : List (Frame α)) (n : ℕ) (red : Bool) (h : Fits path n red) :
    Fits path n false := by
  cases path with
  | nil => trivial
  | cons f path => exact ⟨fun hr => ⟨rfl,(h.1 hr).2⟩,h.2⟩

theorem fits_fill (path : List (Frame α)) (t : Tree α) (n : ℕ) (hf : Fits path n t.isRed)
    (ht : RedBlack t n) : ∃ k, RedBlack (fill path t) k := by
  induction path generalizing t n with
  | nil => exact ⟨n,ht⟩
  | cons f path ih =>
    refine ih (plug f t) (if f.red then n else n+1) ?_ ?_
    · rw [plug, join_isRed]
      exact hf.2.2
    · rw [plug, redBlack_join]
      exact ⟨hf.1,n,ht,hf.2.1,rfl⟩

theorem fill_fits (path : List (Frame α)) (t : Tree α) (n : ℕ) (h : RedBlack (fill path t) n) :
    ∃ k, RedBlack t k ∧ Fits path k t.isRed := by
  induction path generalizing t with
  | nil => exact ⟨n,h,trivial⟩
  | cons f path ih =>
    obtain ⟨k,hk,hfits⟩ := ih (plug f t) h
    rw [plug, redBlack_join] at hk
    rw [plug, join_isRed] at hfits
    obtain ⟨hred,j,hj,hfar,rfl⟩ := hk
    exact ⟨j,hj,hred,hfar,hfits⟩

theorem fill_isRed (path : List (Frame α)) (t t' : Tree α) (h : path ≠ []) :
    (fill path t).isRed = (fill path t').isRed := by
  induction path generalizing t t' with
  | nil => exact absurd rfl h
  | cons f path ih =>
    cases path with
    | nil => rw [fill, fill, fill, fill, plug, plug, join_isRed, join_isRed]
    | cons g path => exact ih (plug f t) (plug f t') (List.cons_ne_nil g path)

theorem redBlack_blacken (t : Tree α) (n : ℕ) (h : RedBlack t n) :
    ∃ k, RedBlack t.blacken k ∧ k = if t.isRed then n+1 else n := by
  cases t with
  | leaf => exact ⟨n,h,rfl⟩
  | node red l x r =>
    obtain ⟨-,k,hl,hr,rfl⟩ := h
    refine ⟨k+1,⟨nofun,k,hl,hr,rfl⟩,?_⟩
    cases red <;> rfl

theorem blacken_isRed (t : Tree α) : t.blacken.isRed = false := by
  cases t <;> rfl

theorem blacken_ids (t : Tree α) : t.blacken.ids = t.ids := by
  cases t <;> rfl

theorem fill_append (path path' : List (Frame α)) (t : Tree α) :
    fill (path++path') t = fill path' (fill path t) := by
  induction path generalizing t with
  | nil => rfl
  | cons f path ih => exact ih (plug f t)

theorem before_append (path path' : List (Frame α)) :
    before (path++path') = before path'++before path := by
  induction path with
  | nil => simp [before]
  | cons f path ih => simp [before, ih]

theorem length_pathIds (path : List (Frame α)) : path.length ≤ (pathIds path).length := by
  induction path with
  | nil => exact Nat.le_refl _
  | cons f path ih =>
    have : pathIds (f::path) = (f.id::f.far.ids)++pathIds path := List.flatMap_cons
    rw [this, List.length_append, List.length_cons, List.length_cons]
    omega

theorem length_path (path : List (Frame α)) (t : Tree α) :
    path.length+t.ids.length ≤ (fill path t).ids.length := by
  have := length_pathIds path
  rw [(fill_perm path t).length_eq, List.length_append]
  omega

theorem fill_focus (t : Tree α) (x : α) (h : x ∈ t.ids) (s : Side) :
    ∃ path red a b, t = fill path (join s red a x b) := by
  induction t with
  | leaf => exact absurd h List.not_mem_nil
  | node red l y r ihl ihr =>
    rw [Tree.ids, List.mem_append, List.mem_cons] at h
    rcases h with h | rfl | h
    · obtain ⟨path,red',a,b,rfl⟩ := ihl h
      refine ⟨path++[⟨.left,red,y,r⟩],red',a,b,?_⟩
      rw [fill_append]
      rfl
    · cases s with
      | left => exact ⟨[],red,l,r,rfl⟩
      | right => exact ⟨[],red,r,l,rfl⟩
    obtain ⟨path,red',a,b,rfl⟩ := ihr h
    refine ⟨path++[⟨.right,red,y,l⟩],red',a,b,?_⟩
    rw [fill_append]
    rfl

section Map
variable {β : Type*} (f : α → β)

theorem map_join (s : Side) (red : Bool) (a : Tree α) (x : α) (b : Tree α) :
    (join s red a x b).map f = join s red (a.map f) (f x) (b.map f) := by
  cases s <;> rfl

theorem map_ids (t : Tree α) : (t.map f).ids = t.ids.map f := by
  induction t with
  | leaf => rfl
  | node red l x r ihl ihr => simp [Tree.map, Tree.ids, ihl, ihr]

theorem map_isRed (t : Tree α) : (t.map f).isRed = t.isRed := by
  cases t <;> rfl

theorem map_blacken (t : Tree α) : (t.map f).blacken = t.blacken.map f := by
  cases t <;> rfl

theorem map_fill (path : List (Frame α)) (t : Tree α) :
    (fill path t).map f = fill (path.map (Frame.map f)) (t.map f) := by
  induction path generalizing t with
  | nil => rfl
  | cons g path ih =>
    rw [fill, ih, plug, map_join]
    rfl

theorem redBlack_map (t : Tree α) (n : ℕ) (h : RedBlack t n) : RedBlack (t.map f) n := by
  induction t generalizing n with
  | leaf => exact h
  | node red l x r ihl ihr =>
    obtain ⟨hred,k,hl,hr,hn⟩ := h
    refine ⟨fun hc => ?_,k,ihl k hl,ihr k hr,hn⟩
    rw [map_isRed, map_isRed]
    exact hred hc

theorem fits_map (path : List (Frame α)) (n : ℕ) (red : Bool) (h : Fits path n red) :
    Fits (path.map (Frame.map f)) n red := by
  induction path generalizing n red with
  | nil => trivial
  | cons g path ih =>
    refine ⟨fun hg => ?_,redBlack_map f g.far n h.2.1,ih _ _ h.2.2⟩
    rw [Frame.map, map_isRed]
    exact h.1 hg

end Map

end Nginx.RedBlackTree
