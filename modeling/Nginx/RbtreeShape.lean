import Nginx.NgxRbtree
import Mathlib.Data.List.Nodup

/-!
# Trees in memory

The memory holds a tree when every node of it has its colour, its two links and a
link back to its parent there. The parent of the root is what it happens to be.
A tree is read and changed at a position: a path to the root and the subtree
below.
-/

set_option autoImplicit false

namespace Nginx.RbtreeShape
open Nginx.RedBlackTree Nginx.NgxRbtree

section Accessors
variable (t : Rbtree) (x y p key : ℕ) (s s' : Side) (red : Bool)

@[simp] theorem link_set_link :
    (t.setLink x s p).link y s' = if y = x ∧ s' = s then p else t.link y s' := by
  simp only [Rbtree.setLink, Rbtree.set, Rbtree.link, Function.update_apply]
  by_cases h : y = x <;> simp [h, Function.update_apply]

@[simp] theorem parent_set_link : (t.setLink x s p).parent y = t.parent y := by
  simp only [Rbtree.setLink, Rbtree.set, Rbtree.parent, Function.update_apply]
  split_ifs with h <;> simp [h]

@[simp] theorem isRed_set_link : (t.setLink x s p).isRed y = t.isRed y := by
  simp only [Rbtree.setLink, Rbtree.set, Rbtree.isRed, Function.update_apply]
  split_ifs with h <;> simp [h]

@[simp] theorem link_set_parent : (t.setParent x p).link y s' = t.link y s' := by
  simp only [Rbtree.setParent, Rbtree.set, Rbtree.link, Function.update_apply]
  split_ifs with h <;> simp [h]

@[simp] theorem parent_set_parent :
    (t.setParent x p).parent y = if y = x then p else t.parent y := by
  simp only [Rbtree.setParent, Rbtree.set, Rbtree.parent, Function.update_apply]
  split_ifs <;> rfl

@[simp] theorem isRed_set_parent : (t.setParent x p).isRed y = t.isRed y := by
  simp only [Rbtree.setParent, Rbtree.set, Rbtree.isRed, Function.update_apply]
  split_ifs with h <;> simp [h]

@[simp] theorem link_set_red : (t.setRed x red).link y s' = t.link y s' := by
  simp only [Rbtree.setRed, Rbtree.set, Rbtree.link, Function.update_apply]
  split_ifs with h <;> simp [h]

@[simp] theorem parent_set_red : (t.setRed x red).parent y = t.parent y := by
  simp only [Rbtree.setRed, Rbtree.set, Rbtree.parent, Function.update_apply]
  split_ifs with h <;> simp [h]

@[simp] theorem isRed_set_red :
    (t.setRed x red).isRed y = if y = x then red else t.isRed y := by
  simp only [Rbtree.setRed, Rbtree.set, Rbtree.isRed, Function.update_apply]
  split_ifs <;> rfl

@[simp] theorem link_set_key : (t.setKey x key).link y s' = t.link y s' := by
  simp only [Rbtree.setKey, Rbtree.set, Rbtree.link, Function.update_apply]
  split_ifs with h <;> simp [h]

@[simp] theorem parent_set_key : (t.setKey x key).parent y = t.parent y := by
  simp only [Rbtree.setKey, Rbtree.set, Rbtree.parent, Function.update_apply]
  split_ifs with h <;> simp [h]

@[simp] theorem isRed_set_key : (t.setKey x key).isRed y = t.isRed y := by
  simp only [Rbtree.setKey, Rbtree.set, Rbtree.isRed, Function.update_apply]
  split_ifs with h <;> simp [h]

@[simp] theorem key_set_link : (t.setLink x s p).key y = t.key y := by
  simp only [Rbtree.setLink, Rbtree.set, Rbtree.key, Function.update_apply]
  split_ifs with h <;> simp [h]

@[simp] theorem key_set_parent : (t.setParent x p).key y = t.key y := by
  simp only [Rbtree.setParent, Rbtree.set, Rbtree.key, Function.update_apply]
  split_ifs with h <;> simp [h]

@[simp] theorem key_set_red : (t.setRed x red).key y = t.key y := by
  simp only [Rbtree.setRed, Rbtree.set, Rbtree.key, Function.update_apply]
  split_ifs with h <;> simp [h]

@[simp] theorem key_set_key : (t.setKey x key).key y = if y = x then key else t.key y := by
  simp only [Rbtree.setKey, Rbtree.set, Rbtree.key, Function.update_apply]
  split_ifs <;> rfl

@[simp] theorem key_set_root : (t.setRoot x).key y = t.key y := rfl

@[simp] theorem root_set_link : (t.setLink x s p).root = t.root := rfl
@[simp] theorem root_set_parent : (t.setParent x p).root = t.root := rfl
@[simp] theorem root_set_red : (t.setRed x red).root = t.root := rfl
@[simp] theorem root_set_key : (t.setKey x key).root = t.root := rfl
@[simp] theorem root_set_root : (t.setRoot x).root = x := rfl
@[simp] theorem sentinel_set_link : (t.setLink x s p).sentinel = t.sentinel := rfl
@[simp] theorem sentinel_set_parent : (t.setParent x p).sentinel = t.sentinel := rfl
@[simp] theorem sentinel_set_red : (t.setRed x red).sentinel = t.sentinel := rfl
@[simp] theorem sentinel_set_key : (t.setKey x key).sentinel = t.sentinel := rfl
@[simp] theorem sentinel_set_root : (t.setRoot x).sentinel = t.sentinel := rfl
@[simp] theorem link_set_root : (t.setRoot x).link y s = t.link y s := rfl
@[simp] theorem parent_set_root : (t.setRoot x).parent y = t.parent y := rfl
@[simp] theorem isRed_set_root : (t.setRoot x).isRed y = t.isRed y := rfl

end Accessors

def ptr (sentinel : ℕ) : RedBlackTree.Tree ℕ → ℕ
  | .leaf => sentinel
  | .node _ _ x _ => x

@[grind =] def TreeAt (t : Rbtree) : ℕ → RedBlackTree.Tree ℕ → Prop
  | _, .leaf => True
  | parent, .node red l x r => x ≠ t.sentinel ∧ t.isRed x = red ∧ t.parent x = parent ∧
      t.link x .left = ptr t.sentinel l ∧ t.link x .right = ptr t.sentinel r ∧ TreeAt t x l ∧ TreeAt t x r

/-- The node above a position, `above` for the root. -/
def top (above : ℕ) : List (Frame ℕ) → ℕ
  | [] => above
  | f::_ => f.id

/-- The nodes of a path, over a subtree at `p`. -/
def PathAt (t : Rbtree) (above : ℕ) : ℕ → List (Frame ℕ) → Prop
  | p, [] => t.root = p
  | p, f::path => f.id ≠ t.sentinel ∧ t.isRed f.id = f.red ∧ t.parent f.id = top above path ∧
      t.link f.id f.side = p ∧ t.link f.id f.side.other = ptr t.sentinel f.far ∧ TreeAt t f.id f.far ∧
      PathAt t above f.id path

/-- The memory holds the tree that the path and the subtree make up. -/
structure Holds (t : Rbtree) (above : ℕ) (path : List (Frame ℕ)) (T : RedBlackTree.Tree ℕ) : Prop where
  path_at : PathAt t above (ptr t.sentinel T) path
  tree_at : TreeAt t (top above path) T
  nodup : (pathIds path++T.ids).Nodup
  black : t.isRed t.sentinel = false

def SameAt (t t' : Rbtree) (x : ℕ) : Prop :=
  (∀ s, t'.link x s = t.link x s) ∧ t'.parent x = t.parent x ∧ t'.isRed x = t.isRed x

variable (t : Rbtree)

theorem tree_at_congr (t' : Rbtree) (parent : ℕ) (T : RedBlackTree.Tree ℕ)
    (hs : t'.sentinel = t.sentinel) (h : ∀ x ∈ T.ids, SameAt t t' x) (ht : TreeAt t parent T) :
    TreeAt t' parent T := by
  induction T generalizing parent with
  | leaf => trivial
  | node red l x r ihl ihr =>
    obtain ⟨hx,hred,hpar,hl,hr,htl,htr⟩ := ht
    obtain ⟨hlink,hparent,hcolor⟩ := h x (by simp [RedBlackTree.Tree.ids])
    refine ⟨hs ▸ hx,hcolor.trans hred,hparent.trans hpar,?_,?_,?_,?_⟩
    · rw [hlink, hl, ← hs]
    · rw [hlink, hr, ← hs]
    · exact ihl x (fun y hy => h y (by simp [RedBlackTree.Tree.ids, hy])) htl
    · exact ihr x (fun y hy => h y (by simp [RedBlackTree.Tree.ids, hy])) htr

theorem path_at_congr (t' : Rbtree) (above p : ℕ) (path : List (Frame ℕ))
    (hs : t'.sentinel = t.sentinel) (hr : t'.root = t.root) (h : ∀ x ∈ pathIds path, SameAt t t' x)
    (ht : PathAt t above p path) : PathAt t' above p path := by
  induction path generalizing p with
  | nil => exact hr.trans ht
  | cons f path ih =>
    obtain ⟨hx,hred,hpar,hside,hfar,htree,hpath⟩ := ht
    obtain ⟨hlink,hparent,hcolor⟩ := h f.id (by simp [pathIds])
    refine ⟨hs ▸ hx,hcolor.trans hred,hparent.trans hpar,(hlink _).trans hside,?_,?_,?_⟩
    · rw [hlink, hfar, ← hs]
    · exact tree_at_congr t t' f.id f.far hs (fun y hy => h y (by simp [pathIds, hy])) htree
    · refine ih f.id (fun y hy => h y ?_) hpath
      rw [pathIds, List.flatMap_cons, List.mem_append]
      exact Or.inr hy

variable (parent : ℕ) (s : Side) (red : Bool) (a : RedBlackTree.Tree ℕ) (x : ℕ)
  (b : RedBlackTree.Tree ℕ)

theorem tree_at_join :
    TreeAt t parent (join s red a x b) ↔ x ≠ t.sentinel ∧ t.isRed x = red ∧
      t.parent x = parent ∧ t.link x s = ptr t.sentinel a ∧ t.link x s.other = ptr t.sentinel b ∧ TreeAt t x a ∧
      TreeAt t x b := by
  cases s with
  | left => rfl
  | right =>
    simp only [join, TreeAt, Side.other]
    tauto

theorem ptr_join (sentinel : ℕ) (s : Side) (red : Bool) (a : RedBlackTree.Tree ℕ) (x : ℕ) (b : RedBlackTree.Tree ℕ) :
    ptr sentinel (join s red a x b) = x := by
  cases s <;> rfl

theorem nodup_join (ids : List ℕ) (s : Side) (red : Bool) (a : RedBlackTree.Tree ℕ) (x : ℕ) (b : RedBlackTree.Tree ℕ) :
    (ids++(join s red a x b).ids).Nodup ↔ (ids++x::(a.ids++b.ids)).Nodup :=
  ((join_perm s red a x b).append_left ids).nodup_iff

theorem nodup_plug (f : Frame ℕ) (path : List (Frame ℕ)) (T : RedBlackTree.Tree ℕ) :
    (pathIds (f::path)++T.ids).Nodup ↔ (pathIds path++(plug f T).ids).Nodup := by
  have h := fill_perm (f::path) T
  rw [fill] at h
  exact (h.symm.trans (fill_perm path (plug f T))).nodup_iff

variable (above : ℕ)

theorem holds_plug (f : Frame ℕ) (path : List (Frame ℕ)) (T : RedBlackTree.Tree ℕ) :
    Holds t above (f::path) T ↔ Holds t above path (plug f T) := by
  constructor
  · rintro ⟨⟨hx,hred,hpar,hside,hfar,htree,hpath⟩,hT,hnodup,hblack⟩
    refine ⟨?_,?_,(nodup_plug f path T).mp hnodup,hblack⟩
    · rwa [plug, ptr_join]
    · rw [plug, tree_at_join]
      exact ⟨hx,hred,hpar,hside,hfar,hT,htree⟩
  · rintro ⟨hpath,hT,hnodup,hblack⟩
    rw [plug, ptr_join] at hpath
    rw [plug, tree_at_join] at hT
    obtain ⟨hx,hred,hpar,hside,hfar,hT,htree⟩ := hT
    exact ⟨⟨hx,hred,hpar,hside,hfar,htree,hpath⟩,hT,(nodup_plug f path T).mpr hnodup,hblack⟩

variable (path : List (Frame ℕ)) (T : RedBlackTree.Tree ℕ)

theorem holds_fill : Holds t above path T ↔ Holds t above [] (fill path T) := by
  induction path generalizing T with
  | nil => rfl
  | cons f path ih => rw [holds_plug, ih, fill]

theorem plug_far : plug ⟨s.other,red,x,a⟩ b = plug ⟨s,red,x,b⟩ a :=
  join_other s red b x a

theorem holds_far (s : Side) (red : Bool) (a : RedBlackTree.Tree ℕ) (x : ℕ)
    (b : RedBlackTree.Tree ℕ) :
    Holds t above (⟨s,red,x,b⟩::path) a ↔ Holds t above (⟨s.other,red,x,a⟩::path) b := by
  rw [holds_plug, holds_plug, plug_far]

theorem holds_node (s : Side) (red : Bool) (a : RedBlackTree.Tree ℕ) (x : ℕ)
    (b : RedBlackTree.Tree ℕ) (h : Holds t above path (join s red a x b)) :
    x ≠ t.sentinel ∧ t.isRed x = red ∧ t.parent x = top above path ∧ t.link x s = ptr t.sentinel a ∧
      t.link x s.other = ptr t.sentinel b := by
  obtain ⟨-,hT,-,-⟩ := h
  rw [tree_at_join] at hT
  exact ⟨hT.1,hT.2.1,hT.2.2.1,hT.2.2.2.1,hT.2.2.2.2.1⟩

theorem path_at_root (p : ℕ) (f : Frame ℕ) (path : List (Frame ℕ)) (h : PathAt t above p (f::path)) :
    t.root ∈ pathIds (f::path) := by
  induction path generalizing f p with
  | nil =>
    obtain ⟨-,-,-,-,-,-,hroot⟩ := h
    have hr : t.root = f.id := hroot
    simp [pathIds, hr]
  | cons g path ih =>
    obtain ⟨-,-,-,-,-,-,hpath⟩ := h
    have := ih _ g hpath
    rw [pathIds, List.flatMap_cons, List.mem_append]
    exact Or.inr this

theorem holds_root (s : Side) (red : Bool) (a : RedBlackTree.Tree ℕ) (x : ℕ)
    (b : RedBlackTree.Tree ℕ) (h : Holds t above path (join s red a x b)) :
    x = t.root ↔ path = [] := by
  obtain ⟨hpath,-,hnodup,-⟩ := h
  rw [nodup_join] at hnodup
  rw [ptr_join] at hpath
  cases path with
  | nil => exact iff_of_true hpath.symm rfl
  | cons f path =>
    refine iff_of_false (fun hx => ?_) (List.cons_ne_nil f path)
    have hmem := path_at_root t above x f path hpath
    rw [← hx] at hmem
    exact (List.nodup_append.mp hnodup).2.2 x hmem x List.mem_cons_self rfl

theorem path_kept (t' : Rbtree) (above p : ℕ) (path : List (Frame ℕ)) (ids : List ℕ)
    (hnodup : (pathIds path++ids).Nodup) (hs : t'.sentinel = t.sentinel) (hr : t'.root = t.root)
    (h : ∀ y, y ∉ ids → SameAt t t' y) (ht : PathAt t above p path) : PathAt t' above p path :=
  path_at_congr t t' above p path hs hr
    (fun y hy => h y (fun hmem => (List.nodup_append.mp hnodup).2.2 y hy y hmem rfl)) ht

theorem holds_paint (s : Side) (red red' : Bool) (a : RedBlackTree.Tree ℕ) (x : ℕ)
    (b : RedBlackTree.Tree ℕ) (h : Holds t above path (join s red a x b)) :
    Holds (t.setRed x red') above path (join s red' a x b) := by
  obtain ⟨hpath,hT,hnodup,hblack⟩ := h
  have hsame : ∀ y, y ≠ x → SameAt t (t.setRed x red') y := fun y hy => by simp [SameAt, hy]
  rw [tree_at_join] at hT
  obtain ⟨hx,hred,hpar,hside,hfar,ha,hb⟩ := hT
  rw [ptr_join] at hpath
  have hn := (nodup_join _ s red a x b).mp hnodup
  have hnx := (List.nodup_cons.mp (List.nodup_append.mp hn).2.1).1
  refine ⟨?_,?_,?_,?_⟩
  · rw [ptr_join]
    exact path_kept t _ above x path (x::(a.ids++b.ids)) hn rfl rfl
      (fun y hy => hsame y (fun hyx => hy (by simp [hyx]))) hpath
  · rw [tree_at_join]
    refine ⟨hx,by simp,by simpa using hpar,?_,?_,?_,?_⟩
    · simpa using hside
    · simpa using hfar
    · exact tree_at_congr t _ x a rfl
        (fun y hy => hsame y (fun hyx => hnx (by simp [← hyx, hy]))) ha
    · exact tree_at_congr t _ x b rfl
        (fun y hy => hsame y (fun hyx => hnx (by simp [← hyx, hy]))) hb
  · rwa [nodup_join] at hnodup ⊢
  · simpa [hx.symm] using hblack

theorem side_rotate_eq : sideRotate s = rotate s := by
  cases s <;> rfl

section Rotate
variable (s : Side) (t : Rbtree) (x y b q : ℕ)

def lifted : Rbtree :=
  let t := t.setLink x s.other b
  let t := if b ≠ t.sentinel then t.setParent b x else t
  t.setParent y q

/-- Then `y` becomes what `x` was to the root or to its parent `q`. -/
def relinked : Rbtree :=
  if x = t.root then t.setRoot y
  else if x = t.link q s then t.setLink q s y
  else t.setLink q s.other y

theorem rotate_eq (hy : t.link x s.other = y) (hb : t.link y s = b) (hq : t.parent x = q)
    (hyx : y ≠ x) (hbx : b ≠ x) :
    rotate s t x = ((relinked s (lifted s t x y b q) x y q).setLink y s x).setParent x y := by
  have hlink : (t.setLink x s.other b).link y s = b := by simp [hyx, hb]
  have hpar : ∀ u : Rbtree,
      (if b ≠ u.sentinel then u.setParent b x else u).parent x = u.parent x := by
    intro u
    split_ifs <;> simp [hbx.symm]
  simp only [rotate, relinked, lifted, hy, hb, hlink, hpar, parent_set_link, parent_set_parent,
    hyx.symm, if_false, hq]
  rfl

omit y b q in
@[simp] theorem sentinel_rotate : (sideRotate s t x).sentinel = t.sentinel := by
  rw [side_rotate_eq]
  simp only [rotate]
  split_ifs <;> simp

omit y b q in
@[simp] theorem key_rotate (z : ℕ) : (sideRotate s t x).key z = t.key z := by
  rw [side_rotate_eq]
  simp only [rotate]
  split_ifs <;> simp

theorem lifted_reads : (lifted s t x y b q).sentinel = t.sentinel ∧
    (lifted s t x y b q).root = t.root ∧ (∀ z, (lifted s t x y b q).isRed z = t.isRed z) ∧
    (∀ z s', (lifted s t x y b q).link z s' =
      if z = x ∧ s' = s.other then b else t.link z s') ∧
    (∀ z, (lifted s t x y b q).parent z =
      if z = y then q else if z = b ∧ b ≠ t.sentinel then x else t.parent z) := by
  by_cases hs : b = t.sentinel
  · simp [lifted, hs]
  · simp [lifted, hs]

theorem relinked_root (hroot : x = t.root) : relinked s t x y q = t.setRoot y :=
  if_pos hroot

theorem relinked_inner (hroot : x ≠ t.root) (sq : Side) (hsq : t.link q sq = x)
    (hfar : t.link q sq.other ≠ x) : relinked s t x y q = t.setLink q sq y := by
  rw [relinked, if_neg hroot]
  rcases Side.eq_or_other s sq with rfl | rfl
  · rw [if_pos hsq.symm]
  · rw [Side.other_other] at hfar
    rw [if_neg hfar.symm]

/-- What a rotation has done to the memory, but for the links of one node. -/
structure Turned (u : Rbtree) (except : Option ℕ) : Prop where
  sentinel : u.sentinel = t.sentinel
  isRed : ∀ z, u.isRed z = t.isRed z
  parent : ∀ z, u.parent z = if z = x then y else if z = y then q
    else if z = b ∧ b ≠ t.sentinel then x else t.parent z
  link : ∀ z s', some z ≠ except → u.link z s' = if z = y ∧ s' = s then x
    else if z = x ∧ s' = s.other then b else t.link z s'

theorem turned_same (u : Rbtree) (except : Option ℕ) (h : Turned s t x y b q u except) (z : ℕ)
    (hx : z ≠ x) (hy : z ≠ y) (hb : b ≠ t.sentinel → z ≠ b) (hq : some z ≠ except) :
    SameAt t u z := by
  refine ⟨fun s' => ?_,?_,h.isRed z⟩
  · rw [h.link z s' hq]
    simp [hx, hy]
  · rw [h.parent z, if_neg hx, if_neg hy, if_neg (fun hzb => hb hzb.2 hzb.1)]

end Rotate

theorem ptr_mem (sentinel : ℕ) (T : RedBlackTree.Tree ℕ) (h : ptr sentinel T ≠ sentinel) :
    ptr sentinel T ∈ T.ids := by
  cases T with
  | leaf => exact absurd rfl h
  | node red l x r => simp [ptr, RedBlackTree.Tree.ids]

theorem turned_moved (t u : Rbtree) (x y q : ℕ) (except : Option ℕ) (B : RedBlackTree.Tree ℕ)
    (h : Turned s t x y (ptr t.sentinel B) q u except) (hB : TreeAt t y B) (hn : B.ids.Nodup)
    (hx : x ∉ B.ids) (hy : y ∉ B.ids) (hq : ∀ z ∈ B.ids, some z ≠ except) : TreeAt u x B := by
  cases B with
  | leaf => trivial
  | node red l z r =>
    simp only [RedBlackTree.Tree.ids, List.mem_append, List.mem_cons, not_or] at hx hy hq
    have hsame : ∀ v ∈ l.ids++r.ids, SameAt t u v := by
      intro v hv
      rw [List.mem_append] at hv
      have hvz : v ≠ z := by
        rintro rfl
        rw [RedBlackTree.Tree.ids, List.nodup_middle, List.nodup_cons, List.mem_append] at hn
        exact hn.1 hv
      refine turned_same s t x y _ q u except h v ?_ ?_ (fun _ => hvz) (hq v (by tauto))
      · rintro rfl
        tauto
      · rintro rfl
        tauto
    obtain ⟨hz,hred,hpar,hl,hr,htl,htr⟩ := hB
    have hzx : z ≠ x := Ne.symm hx.2.1
    have hzy : z ≠ y := Ne.symm hy.2.1
    have hlink : ∀ s', u.link z s' = t.link z s' := fun s' => by
      rw [h.link z s' (hq z (by tauto))]
      simp [hzx, hzy]
    refine ⟨h.sentinel ▸ hz,(h.isRed z).trans hred,?_,?_,?_,?_,?_⟩
    · rw [h.parent z, if_neg hzx, if_neg hzy, if_pos ⟨rfl,hz⟩]
    · rw [hlink, h.sentinel, hl]
    · rw [hlink, h.sentinel, hr]
    · exact tree_at_congr t u z l h.sentinel (fun v hv => hsame v (by simp [hv])) htl
    · exact tree_at_congr t u z r h.sentinel (fun v hv => hsame v (by simp [hv])) htr

theorem turned_tree (t u : Rbtree) (x y q : ℕ) (except : Option ℕ) (cx cy : Bool)
    (a b c : RedBlackTree.Tree ℕ) (h : Turned s t x y (ptr t.sentinel b) q u except)
    (hT : TreeAt t q (join s cx a x (join s cy b y c))) (hn : (x::(a.ids++y::(b.ids++c.ids))).Nodup)
    (hq : ∀ z ∈ x::(a.ids++y::(b.ids++c.ids)), some z ≠ except) :
    TreeAt u q (join s cy (join s cx a x b) y c) := by
  simp only [tree_at_join, ptr_join] at hT ⊢
  obtain ⟨hxs,hxc,hxp,hxa,hxy,ha,hys,hyc,hyp,hyb,hyd,hb,hc⟩ := hT
  have hn' := hn
  simp only [List.nodup_cons, List.mem_append, List.mem_cons, not_or, List.nodup_append,
    List.nodup_append, ne_eq] at hn'
  obtain ⟨⟨hxa',hxy',hxb',hxc'⟩,hna,⟨⟨hyb',hyc'⟩,hnb,hnc,hbc⟩,hac⟩ := hn'
  have hyx : ¬ y = x := fun h => hxy' h.symm
  have hos : s.other ≠ s := Side.other_ne s
  have hlx : ∀ s', u.link x s' = if s' = s.other then ptr t.sentinel b else t.link x s' := fun s' => by
    rw [h.link x s' (hq x (by simp))]
    simp [hxy']
  have hly : ∀ s', u.link y s' = if s' = s then x else t.link y s' := fun s' => by
    rw [h.link y s' (hq y (by simp))]
    simp [hyx]
  have hsame : ∀ z, z ∈ a.ids ∨ z ∈ c.ids → SameAt t u z := by
    intro z hz
    refine turned_same s t x y _ q u except h z ?_ ?_ (fun hbs => ?_) (hq z ?_)
    · rintro rfl
      tauto
    · rintro rfl
      exact hz.elim (fun hz => hac z hz z (Or.inl rfl) rfl) hyc'
    · rintro rfl
      have hmem := ptr_mem t.sentinel b hbs
      exact hz.elim (fun hz => hac _ hz _ (Or.inr (Or.inl hmem)) rfl) (fun hz => hbc _ hmem _ hz rfl)
    · simp only [List.mem_cons, List.mem_append]
      tauto
  rw [h.sentinel, h.isRed, h.isRed, h.parent, h.parent, hly, hly, hlx, hlx]
  refine ⟨hys,hyc,by simp [hyx],by simp,?_,⟨hxs,hxc,by simp,?_,by simp,?_,?_⟩,?_⟩
  · rw [if_neg hos, hyd]
  · rw [if_neg hos.symm, hxa]
  · exact tree_at_congr t u x a h.sentinel (fun z hz => hsame z (Or.inl hz)) ha
  · refine turned_moved s t u x y q except b h hb hnb hxb' hyb' (fun z hz => hq z ?_)
    simp only [List.mem_cons, List.mem_append]
    tauto
  · exact tree_at_congr t u y c h.sentinel (fun z hz => hsame z (Or.inr hz)) hc

theorem tree_at_sentinel (h : TreeAt t parent T) : t.sentinel ∉ T.ids := by
  induction T generalizing parent with
  | leaf => exact List.not_mem_nil
  | node red l x r ihl ihr =>
    obtain ⟨hx,-,-,-,-,hl,hr⟩ := h
    simp only [RedBlackTree.Tree.ids, List.mem_append, List.mem_cons, not_or]
    exact ⟨ihl x hl,hx.symm,ihr x hr⟩

theorem rotation_perm (cx cy : Bool) (a b c : RedBlackTree.Tree ℕ) (x y : ℕ) :
    (join s cx a x (join s cy b y c)).ids.Perm (x::(a.ids++y::(b.ids++c.ids))) ∧
      (join s cy (join s cx a x b) y c).ids.Perm (x::(a.ids++y::(b.ids++c.ids))) := by
  constructor
  · exact (join_perm s cx a x _).trans
      (List.Perm.cons x ((join_perm s cy b y c).append_left a.ids))
  · refine (join_perm s cy _ y c).trans ?_
    refine (List.Perm.cons y ((join_perm s cx a x b).append_right c.ids)).trans ?_
    refine (List.Perm.swap x y _).trans (List.Perm.cons x ?_)
    show (y::(a.ids++b.ids++c.ids)).Perm _
    rw [List.append_assoc]
    exact List.perm_middle.symm

theorem holds_rotate (s : Side) (cx cy : Bool) (a b c : RedBlackTree.Tree ℕ) (x y : ℕ)
    (h : Holds t above path (join s cx a x (join s cy b y c))) :
    Holds (sideRotate s t x) above path (join s cy (join s cx a x b) y c) ∧
      (sideRotate s t x).parent t.sentinel = t.parent t.sentinel := by
  rw [side_rotate_eq]
  have hroot := holds_root t above path s cx a x _ h
  obtain ⟨hpath,hT,hnodup,hblack⟩ := h
  rw [ptr_join] at hpath
  obtain ⟨hperm,hperm'⟩ := rotation_perm s cx cy a b c x y
  have hn := (hperm.append_left (pathIds path)).nodup_iff.mp hnodup
  have hn' := (hperm'.append_left (pathIds path)).nodup_iff.mpr hn
  obtain ⟨-,hni,hdis⟩ := List.nodup_append.mp hn
  have hT' := hT
  simp only [tree_at_join, ptr_join] at hT'
  obtain ⟨hxs,-,hq,-,hy,-,hys,-,-,hb,-,htb,-⟩ := hT'
  have hni' := hni
  simp only [List.nodup_cons, List.mem_append, List.mem_cons, not_or, List.nodup_append,
    ne_eq] at hni'
  obtain ⟨⟨-,hxy,hxb,-⟩,-,⟨⟨hyb,-⟩,-⟩,-⟩ := hni'
  have hbx : ptr t.sentinel b ≠ x := fun he => by
    have := ptr_mem t.sentinel b (by rw [he]; exact hxs)
    rw [he] at this
    exact hxb this
  have hby : ptr t.sentinel b ≠ y := fun he => by
    have := ptr_mem t.sentinel b (by rw [he]; exact hys)
    rw [he] at this
    exact hyb this
  have hbm : ptr t.sentinel b ≠ t.sentinel →
      ptr t.sentinel b ∈ x::(a.ids++y::(b.ids++c.ids)) := fun hbs => by
    simp [ptr_mem t.sentinel b hbs]
  have hbs : ∀ z, z = t.sentinel → ¬ (z = ptr t.sentinel b ∧ ptr t.sentinel b ≠ t.sentinel) :=
    fun z hz hzb => hzb.2 (hzb.1 ▸ hz)
  rw [rotate_eq s t x y (ptr t.sentinel b) (top above path) hy hb hq (Ne.symm hxy) hbx]
  obtain ⟨hls,hlr,hlc,hll,hlp⟩ := lifted_reads s t x y (ptr t.sentinel b) (top above path)
  cases path with
  | nil =>
    have hxr : x = t.root := hroot.mpr rfl
    rw [relinked_root s _ x y _ (hxr.trans hlr.symm)]
    have hturned : Turned s t x y (ptr t.sentinel b) (top above [])
        ((((lifted s t x y (ptr t.sentinel b) (top above [])).setRoot y).setLink y s x).setParent
          x y) none := by
      refine ⟨hls,fun z => by simp [hlc],fun z => by simp [hlp],fun z s' _ => by simp [hll]⟩
    refine ⟨⟨?_,?_,hn',?_⟩,?_⟩
    · rw [ptr_join]
      rfl
    · exact turned_tree s t _ x y _ none cx cy a b c hturned hT hni (fun z _ => by simp)
    · rw [hturned.sentinel, hturned.isRed]
      exact hblack
    · rw [hturned.parent, if_neg hxs.symm, if_neg hys.symm, if_neg (hbs _ rfl)]
  | cons f path =>
    have hxr : x ≠ t.root := fun he => List.cons_ne_nil f path (hroot.mp he)
    obtain ⟨hfs,hfc,hfp,hside,hfar,hft,hrest⟩ := hpath
    have hfx : f.id ≠ x := hdis f.id (by simp [pathIds]) x (by simp)
    have hfy : f.id ≠ y := hdis f.id (by simp [pathIds]) y (by simp)
    have hfarx : t.link f.id f.side.other ≠ x := by
      rw [hfar]
      intro he
      have := ptr_mem t.sentinel f.far (by rw [he]; exact hxs)
      exact hdis _ (by simp [pathIds, this]) x (by simp) he
    have hq' : top above (f::path) = f.id := rfl
    rw [hq'] at hls hlr hlc hll hlp hT ⊢
    rw [relinked_inner s _ x y _ (by rw [hlr]; exact hxr) f.side (by rw [hll]; simp [hfx, hside])
      (by rw [hll]; simp [hfx, hfarx])]
    generalize hu : ((((lifted s t x y (ptr t.sentinel b) f.id).setLink
      f.id f.side y).setLink y s x).setParent x y) = u
    have hturned : Turned s t x y (ptr t.sentinel b) f.id u (some f.id) := by
      subst hu
      refine ⟨hls,fun z => by simp [hlc],fun z => by simp [hlp],fun z s' hz => ?_⟩
      have hzf : z ≠ f.id := fun he => hz (by rw [he])
      simp [hll, hzf]
    have hlinkf : ∀ s', u.link f.id s' = if s' = f.side then y else t.link f.id s' := by
      subst hu
      intro s'
      simp [hll, hfx, hfy]
    have hsame : ∀ z ∈ f.far.ids++pathIds path, SameAt t u z := by
      intro z hz
      have hz' : z ∈ pathIds (f::path) := by
        rw [pathIds, List.flatMap_cons, ← pathIds]
        simp only [List.mem_append, List.mem_cons] at hz ⊢
        tauto
      refine turned_same s t x y _ _ u _ hturned z (hdis z hz' x (by simp))
        (hdis z hz' y (by simp)) (fun hb => hdis z hz' _ (hbm hb)) (fun he => ?_)
      have hnf := (List.nodup_append.mp hn).1
      rw [pathIds, List.flatMap_cons, ← pathIds, List.cons_append, List.nodup_cons] at hnf
      rw [Option.some.inj he] at hz
      exact hnf.1 hz
    have hroot' : u.root = t.root := by
      subst hu
      exact hlr
    refine ⟨⟨?_,?_,hn',?_⟩,?_⟩
    · rw [ptr_join]
      refine ⟨hturned.sentinel ▸ hfs,(hturned.isRed _).trans hfc,?_,?_,?_,?_,?_⟩
      · rw [hturned.parent, if_neg hfx, if_neg hfy, if_neg ?_]
        · exact hfp
        · rintro ⟨he,hne⟩
          exact hdis f.id (by simp [pathIds]) _ (hbm hne) he
      · rw [hlinkf, if_pos rfl]
      · rw [hlinkf, if_neg (Side.other_ne f.side), hfar, hturned.sentinel]
      · exact tree_at_congr t u f.id f.far hturned.sentinel
          (fun z hz => hsame z (List.mem_append_left _ hz)) hft
      · exact path_at_congr t u above f.id path hturned.sentinel hroot'
          (fun z hz => hsame z (List.mem_append_right _ hz)) hrest
    · refine turned_tree s t u x y _ (some f.id) cx cy a b c hturned hT hni (fun z hz he => ?_)
      exact hdis f.id (by simp [pathIds]) z hz (Option.some.inj he).symm
    · rw [hturned.sentinel, hturned.isRed]
      exact hblack
    · rw [hturned.parent, if_neg hxs.symm, if_neg hys.symm, if_neg (hbs _ rfl)]

theorem isRed_ptr (hs : t.isRed t.sentinel = false) (h : TreeAt t parent T) :
    t.isRed (ptr t.sentinel T) = T.isRed := by
  cases T with
  | leaf => exact hs
  | node red l x r => exact h.2.1

theorem holds_blacken (h : Holds t above path T) :
    Holds (t.setRed (ptr t.sentinel T) false) above path T.blacken := by
  cases T with
  | leaf =>
    obtain ⟨hpath,hT,hnodup,hblack⟩ := h
    have hsame : ∀ y, SameAt t (t.setRed t.sentinel false) y := by
      intro y
      refine ⟨by simp,by simp,?_⟩
      rw [isRed_set_red]
      split_ifs with hy
      · rw [hy, hblack]
      · rfl
    exact ⟨path_at_congr t _ above _ path rfl rfl (fun y _ => hsame y) hpath,hT,hnodup,
      by simp [ptr]⟩
  | node red l x r => exact holds_paint t above path .left red false l x r h

end Nginx.RbtreeShape
