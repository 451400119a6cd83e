import Nginx.RbtreeShape

/-!
# Neighbours in the memory

What the links of a tree in the memory say about each other, and when another
memory holds the same tree, or the tree with its nodes renamed.
-/

set_option autoImplicit false

namespace Nginx.RbtreeLinks
open Nginx.RedBlackTree Nginx.NgxRbtree Nginx.RbtreeShape

variable (t : Rbtree) (above : ℕ) (path : List (Frame ℕ)) (T : RedBlackTree.Tree ℕ)

theorem holds_sentinel (h : Holds t above path T) :
    t.sentinel ∉ pathIds path ∧ t.sentinel ∉ T.ids := by
  have hs := tree_at_sentinel t above _ ((holds_fill t above _ _).mp h).tree_at
  rwa [(fill_perm _ _).mem_iff, List.mem_append, not_or] at hs

theorem ptr_root (h : Holds t above path T) : ptr t.sentinel T = t.root ↔ path = [] := by
  cases T with
  | node red l x r => exact holds_root t above path .left red l x r h
  | leaf =>
    constructor
    · intro hroot
      cases path with
      | nil => rfl
      | cons f path =>
        have hs := tree_at_sentinel t above _ ((holds_fill t above _ _).mp h).tree_at
        rw [(fill_perm _ _).mem_iff, List.mem_append, not_or] at hs
        have hmem := path_at_root t above _ f path h.path_at
        rw [← hroot] at hmem
        exact absurd hmem hs.1
    · rintro rfl
      exact h.path_at.symm

theorem ptr_ne_far (f : Frame ℕ) (path : List (Frame ℕ)) (T : RedBlackTree.Tree ℕ)
    (h : Holds t above (f::path) T) (hne : T.ids ≠ [] ∨ f.far.ids ≠ []) :
    ptr t.sentinel T ≠ ptr t.sentinel f.far := by
  intro he
  have hfill := (holds_fill t above _ _).mp h
  have hs := tree_at_sentinel t above _ hfill.tree_at
  rw [(fill_perm _ _).mem_iff, List.mem_append, not_or] at hs
  have hfar : ∀ y ∈ f.far.ids, y ∈ pathIds (f::path) := fun y hy => by simp [pathIds, hy]
  have hptr : ∀ S : RedBlackTree.Tree ℕ, S.ids ≠ [] → ptr t.sentinel S ∈ S.ids := by
    intro S hS
    cases S with
    | leaf => exact absurd rfl hS
    | node red l y r => simp [ptr, RedBlackTree.Tree.ids]
  have hin : ptr t.sentinel T ≠ t.sentinel := by
    rcases hne with hn | hn
    · exact fun heq => hs.2 (heq ▸ hptr T hn)
    · exact fun heq => hs.1 (hfar _ (heq ▸ he ▸ hptr f.far hn))
  have hT := ptr_mem t.sentinel T hin
  have hF := ptr_mem t.sentinel f.far (he ▸ hin)
  exact (List.nodup_append.mp h.nodup).2.2 _ (hfar _ hF) _ hT he.symm

theorem child_links (x : ℕ) (s : Side) (h : Holds t above [] T) (hx : x ∈ T.ids)
    (hc : t.link x s ≠ t.sentinel) :
    t.link x s ∈ T.ids ∧ t.parent (t.link x s) = x ∧ t.link x s ≠ t.root ∧
      t.link x s ≠ t.link x s.other := by
  obtain ⟨path,red,a,b,rfl⟩ := fill_focus T x hx s
  have hat := (holds_fill t above path _).mpr h
  obtain ⟨hxs,-,-,hside,hfar⟩ := holds_node t above path s red a x b hat
  have hdown := (holds_plug t above ⟨s,red,x,b⟩ path a).mpr hat
  rw [hside] at hc ⊢
  rw [hfar]
  have hmem := ptr_mem t.sentinel a hc
  have ha : a.ids ≠ [] := List.ne_nil_of_mem hmem
  refine ⟨?_,?_,fun hr => ?_,ptr_ne_far t above _ path a hdown (Or.inl ha)⟩
  · rw [fill_ids]
    refine List.mem_append_left _ (List.mem_append_right _ ?_)
    rw [(join_perm s red a x b).mem_iff]
    exact List.mem_cons_of_mem _ (List.mem_append_left _ hmem)
  · cases a with
    | leaf => exact absurd rfl ha
    | node red' l y r => exact hdown.tree_at.2.2.1
  · exact List.cons_ne_nil _ _ ((ptr_root t above _ a hdown).mp hr)

theorem parent_links (x : ℕ) (h : Holds t above [] T) (hx : x ∈ T.ids) (hr : x ≠ t.root) :
    t.parent x ∈ T.ids ∧ t.parent x ≠ x ∧ ∃ s, t.link (t.parent x) s = x := by
  obtain ⟨path,red,a,b,rfl⟩ := fill_focus T x hx .left
  have hat := (holds_fill t above path _).mpr h
  obtain ⟨-,-,hpar,-,-⟩ := holds_node t above path .left red a x b hat
  cases path with
  | nil => exact absurd ((holds_root t above [] .left red a x b hat).mpr rfl) hr
  | cons f path =>
    have hf : f.id ∈ pathIds (f::path) := by simp [pathIds]
    have hpf : t.parent x = f.id := hpar
    rw [hpf]
    refine ⟨?_,fun he => ?_,f.side,?_⟩
    · rw [(fill_perm _ _).mem_iff]
      exact List.mem_append_left _ hf
    · refine (List.nodup_append.mp hat.nodup).2.2 _ hf x ?_ he
      simp [join, RedBlackTree.Tree.ids]
    · have := hat.path_at.2.2.2.1
      rwa [ptr_join] at this

theorem holds_same (t' : Rbtree) (above : ℕ) (path : List (Frame ℕ)) (T : RedBlackTree.Tree ℕ)
    (h : Holds t above path T) (hs : t'.sentinel = t.sentinel) (hr : t'.root = t.root)
    (hb : t'.isRed t.sentinel = false) (hsame : ∀ z ∈ pathIds path++T.ids, SameAt t t' z) :
    Holds t' above path T := by
  obtain ⟨hpath,hT,hnodup,-⟩ := h
  refine ⟨?_,?_,hnodup,by rw [hs, hb]⟩
  · rw [hs]
    exact path_at_congr t t' above _ path hs hr
      (fun z hz => hsame z (List.mem_append_left _ hz)) hpath
  · exact tree_at_congr t t' _ T hs (fun z hz => hsame z (List.mem_append_right _ hz)) hT

/-- The memory `t` holds for `f z` what the memory `u` holds for `z`. The parent of
the root may be anything. -/
structure Renames (u t : Rbtree) (f : ℕ → ℕ) (ids : List ℕ) : Prop where
  sentinel : t.sentinel = u.sentinel
  kept : f u.sentinel = u.sentinel
  root : t.root = f u.root
  inj : ∀ z ∈ ids, ∀ z' ∈ ids, f z = f z' → z = z'
  inner : ∀ z ∈ ids, f z ≠ u.sentinel
  red : ∀ z ∈ ids, t.isRed (f z) = u.isRed z
  link : ∀ z ∈ ids, ∀ s, t.link (f z) s = f (u.link z s)
  parent : ∀ z ∈ ids, z ≠ u.root → t.parent (f z) = f (u.parent z)
  black : t.isRed u.sentinel = false

theorem ptr_map (sentinel : ℕ) (f : ℕ → ℕ) (T : RedBlackTree.Tree ℕ) (h : f sentinel = sentinel) :
    ptr sentinel (T.map f) = f (ptr sentinel T) := by
  cases T with
  | leaf => exact h.symm
  | node red l x r => rfl

theorem tree_at_renamed (u t : Rbtree) (f : ℕ → ℕ) (ids : List ℕ) (h : Renames u t f ids)
    (parent : ℕ) (T : RedBlackTree.Tree ℕ) (hids : ∀ z ∈ T.ids, z ∈ ids ∧ z ≠ u.root)
    (hT : TreeAt u parent T) : TreeAt t (f parent) (T.map f) := by
  induction T generalizing parent with
  | leaf => trivial
  | node red l x r ihl ihr =>
    obtain ⟨-,hred,hpar,hl,hr,htl,htr⟩ := hT
    obtain ⟨hx,hxr⟩ := hids x (by simp [RedBlackTree.Tree.ids])
    refine ⟨?_,?_,?_,?_,?_,ihl x (fun z hz => hids z (by simp [RedBlackTree.Tree.ids, hz])) htl,
      ihr x (fun z hz => hids z (by simp [RedBlackTree.Tree.ids, hz])) htr⟩
    · rw [h.sentinel]
      exact h.inner x hx
    · rw [h.red x hx, hred]
    · rw [h.parent x hx hxr, hpar]
    · rw [h.link x hx, hl, h.sentinel, ptr_map _ _ _ h.kept]
    · rw [h.link x hx, hr, h.sentinel, ptr_map _ _ _ h.kept]

theorem holds_renamed (u t : Rbtree) (f : ℕ → ℕ) (above : ℕ) (path : List (Frame ℕ)) (T : RedBlackTree.Tree ℕ)
    (hold : Holds u above path T) (h : Renames u t f (fill path T).ids) :
    ∃ above', Holds t above' (path.map (Frame.map f)) (T.map f) := by
  obtain ⟨hroot,hT,hnodup,-⟩ := (holds_fill u above path T).mp hold
  rw [show pathIds [] = ([] : List ℕ) from rfl, List.nil_append] at hnodup
  refine ⟨t.parent t.root,?_⟩
  rw [holds_fill, ← map_fill]
  generalize fill path T = W at hroot hT hnodup h ⊢
  have hroot' : u.root = ptr u.sentinel W := hroot
  refine ⟨?_,?_,?_,by rw [h.sentinel]; exact h.black⟩
  · show t.root = _
    rw [h.root, hroot', h.sentinel, ptr_map _ _ _ h.kept]
  · cases W with
    | leaf => trivial
    | node red l x r =>
      have hx : u.root = x := hroot'
      obtain ⟨-,hred,-,hl,hr,htl,htr⟩ := hT
      have hn := (List.nodup_middle.mp hnodup)
      have hnx := (List.nodup_cons.mp hn).1
      rw [List.mem_append, not_or] at hnx
      have hxm : x ∈ (RedBlackTree.Tree.node red l x r).ids := by simp [RedBlackTree.Tree.ids]
      refine ⟨?_,?_,?_,?_,?_,?_,?_⟩
      · rw [h.sentinel]
        exact h.inner x hxm
      · rw [h.red x hxm, hred]
      · rw [← hx, ← h.root]
        rfl
      · rw [h.link x hxm, hl, h.sentinel, ptr_map _ _ _ h.kept]
      · rw [h.link x hxm, hr, h.sentinel, ptr_map _ _ _ h.kept]
      · refine tree_at_renamed u t f _ h x l (fun z hz => ⟨by simp [RedBlackTree.Tree.ids, hz],?_⟩) htl
        rintro rfl
        exact hnx.1 (hx ▸ hz)
      · refine tree_at_renamed u t f _ h x r (fun z hz => ⟨by simp [RedBlackTree.Tree.ids, hz],?_⟩) htr
        rintro rfl
        exact hnx.2 (hx ▸ hz)
  · rw [show pathIds [] = ([] : List ℕ) from rfl, List.nil_append, map_ids]
    exact List.Nodup.map_on h.inj hnodup

end Nginx.RbtreeLinks
