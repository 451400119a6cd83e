import Nginx.RbtreeInsert
import Nginx.RbtreeLinks

/-!
# Deletion

The node that leaves its place has at most one child, which moves up. When it was
black the child's place is one black node short, and each round of the repair loop
moves this defect up by one or removes it. At a leaf the loop finds the parent in
the sentinel, which the deletion has set and no rotation changes.
-/

set_option autoImplicit false

namespace Nginx.RbtreeDelete
open Nginx.RedBlackTree Nginx.RedBlackRepair Nginx.NgxRbtree Nginx.RbtreeShape Nginx.RbtreeLinks
open Nginx.RbtreeInsert

/-- The memory holds a tree at a position, and the node there or the sentinel
points to the parent. -/
structure At (t : Rbtree) (above : ℕ) (f : Frame ℕ) (path : List (Frame ℕ)) (T : RedBlackTree.Tree ℕ) :
    Prop where
  holds : Holds t above (f::path) T
  parent : t.parent (ptr t.sentinel T) = f.id

theorem at_node (t : Rbtree) (above : ℕ) (f : Frame ℕ) (path : List (Frame ℕ)) (T : RedBlackTree.Tree ℕ)
    (h : Holds t above (f::path) T) (hT : T = .leaf → t.parent t.sentinel = f.id) :
    At t above f path T := by
  refine ⟨h,?_⟩
  cases T with
  | leaf => exact hT rfl
  | node red l x r => exact h.tree_at.2.2.1

section Round
variable (t : Rbtree) (above : ℕ) (s : Side) (c : Bool) (x w : ℕ) (a b : RedBlackTree.Tree ℕ)
  (path : List (Frame ℕ)) (T : RedBlackTree.Tree ℕ)

theorem sibling_reads (cw : Bool) (h : At t above ⟨s,c,x,join s cw a w b⟩ path T) :
    t.link (t.parent (ptr t.sentinel T)) s.other = w ∧ t.isRed w = cw ∧
      t.link w s = ptr t.sentinel a ∧ t.link w s.other = ptr t.sentinel b ∧
      t.isRed (ptr t.sentinel a) = a.isRed ∧ t.isRed (ptr t.sentinel b) = b.isRed ∧
      t.isRed x = c := by
  obtain ⟨⟨hx,hc,-,-,hfar,htree,-⟩,-,-,hblack⟩ := h.holds
  rw [tree_at_join] at htree
  obtain ⟨-,hw,-,hwa,hwb,ha,hb⟩ := htree
  rw [h.parent]
  refine ⟨hfar.trans (ptr_join ..),hw,hwa,hwb,isRed_ptr t w a hblack ha,
    isRed_ptr t w b hblack hb,hc⟩

theorem red_sibling (h : At t above ⟨s,false,x,join s true a w b⟩ path T) :
    At (redSibling s t (ptr t.sentinel T)) above ⟨s,true,x,a⟩ (⟨s,false,w,b⟩::path) T ∧
      KeysKept t (redSibling s t (ptr t.sentinel T)) := by
  obtain ⟨hw,hred,-⟩ := sibling_reads t above s false x w a b path T true h
  have h1 := holds_paint t above _ s true false a w b ((holds_far ..).mp h.holds)
  rw [holds_plug, plug, join_other] at h1
  have h2 := holds_paint _ above path s false true T x _ h1
  obtain ⟨h3,hpar⟩ := holds_rotate _ above path s true false T a b x w h2
  have hrun : redSibling s t (ptr t.sentinel T) =
      sideRotate s ((t.setRed w false).setRed x true) x := by
    simp only [redSibling]
    rw [hw, if_pos hred]
    simp only [parent_set_red, h.parent]
  rw [hrun]
  refine ⟨at_node _ above _ _ T ?_ (fun hT => ?_),by simp,fun y => by simp⟩
  · rw [holds_plug, holds_plug]
    exact h3
  · have hp := h.parent
    rw [hT] at hp
    simp only [sentinel_rotate, sentinel_set_red, parent_set_red] at hpar ⊢
    exact hpar.trans hp

theorem black_sibling (h : At t above ⟨s,c,x,join s false a w b⟩ path T) :
    redSibling s t (ptr t.sentinel T) = t := by
  obtain ⟨hw,hred,-⟩ := sibling_reads t above s c x w a b path T false h
  simp only [redSibling]
  rw [hw, if_neg (by rw [hred]; exact Bool.false_ne_true)]

theorem black_outer (n : ℕ) (d : RedBlackTree.Tree ℕ)
    (h : At t above ⟨s,c,x,join s false (join s true a n b) w d⟩ path T)
    (hd : d.isRed = false) :
    At (blackOuter s t (ptr t.sentinel T)) above
        ⟨s,c,x,join s false a n (join s true b w d)⟩ path T ∧
      KeysKept t (blackOuter s t (ptr t.sentinel T)) := by
  obtain ⟨hw,-,hnear,hfar,-,hdr,-⟩ := sibling_reads t above s c x w _ d path T false h
  rw [ptr_join] at hnear
  have hsib := (holds_far ..).mp h.holds
  have h1 := holds_paint t above _ s true false a n b
    ((holds_plug t above ⟨s,false,w,d⟩ _ _).mpr hsib)
  rw [holds_plug] at h1
  have h2 := holds_paint _ above _ s false true _ w d h1
  rw [← join_other s true d w, ← join_other s false b n] at h2
  obtain ⟨h3,hpar⟩ := holds_rotate _ above _ s.other true false d b a w n h2
  rw [join_other, join_other] at h3
  have hrun : blackOuter s t (ptr t.sentinel T) =
      sideRotate s.other ((t.setRed n false).setRed w true) w := by
    simp only [blackOuter]
    rw [hw, hfar, hdr, hd, hnear]
    rfl
  rw [hrun]
  refine ⟨at_node _ above _ _ T ((holds_far ..).mpr h3) (fun hT => ?_),by simp,fun y => by simp⟩
  have hp := h.parent
  rw [hT] at hp
  simp only [sentinel_rotate, sentinel_set_red, parent_set_red] at hpar ⊢
  exact hpar.trans hp

theorem red_outer (h : At t above ⟨s,c,x,join s false a w b⟩ path T) :
    Holds (redOuter s t (ptr t.sentinel T)) above path
        (join s c (join s false T x a) w b.blacken) ∧
      KeysKept t (redOuter s t (ptr t.sentinel T)) := by
  obtain ⟨hw,-,-,hfar,-,-,hc⟩ := sibling_reads t above s c x w a b path T false h
  have h1 := holds_paint t above _ s false c a w b ((holds_far ..).mp h.holds)
  rw [holds_plug, plug, join_other] at h1
  have h2 := holds_paint _ above path s c false T x _ h1
  rw [← join_other s false] at h2
  have h3 := (holds_plug _ above ⟨s.other,false,x,T⟩ path _).mpr h2
  rw [← join_other s c] at h3
  have h4 := holds_blacken _ above _ b ((holds_plug _ above ⟨s.other,c,w,a⟩ _ b).mpr h3)
  rw [holds_plug, holds_plug, plug, plug, join_other, join_other] at h4
  obtain ⟨h5,-⟩ := holds_rotate _ above path s false c T a _ x w h4
  have hrun : redOuter s t (ptr t.sentinel T) = sideRotate s
      (((t.setRed w c).setRed x false).setRed (ptr t.sentinel b) false) x := by
    simp only [redOuter, parent_set_red, link_set_red]
    rw [hw, h.parent, hc, hfar]
  rw [hrun]
  exact ⟨h5,by simp,fun y => by simp⟩

theorem red_outer_ends (h : At t above ⟨s,c,x,join s false a w b⟩ path T)
    (hshort : Short (⟨s,c,x,join s false a w b⟩::path) T) (hT : T.isRed = false)
    (hb : b.isRed = true) :
    ∃ T', (redOuter s t (ptr t.sentinel T)).root = ptr t.sentinel T' ∧
      KeysKept t (redOuter s t (ptr t.sentinel T)) ∧
      Holds (redOuter s t (ptr t.sentinel T)) above [] T' ∧ Short [] T' ∧ T'.ids ≠ [] ∧
      T'.ids = (fill path (join s c T x (join s false a w b))).ids := by
  obtain ⟨hrun,hkeys⟩ := red_outer t above s c x w a b path T h
  have hfill := (holds_fill _ above path _).mp hrun
  have hids : (fill path (join s c (join s false T x a) w b.blacken)).ids =
      (fill path (join s c T x (join s false a w b))).ids := by
    refine fill_ids_congr path _ _ ?_
    cases s <;> simp [join, RedBlackTree.Tree.ids, blacken_ids]
  refine ⟨_,?_,hkeys,hfill,short_sound _ (short_outer path T s c x w a b hshort hT hb),?_,
    hids⟩
  · have hroot := hfill.path_at
    rw [hkeys.1] at hroot
    exact hroot
  · rw [hids, fill_ids]
    cases s <;> simp [join, RedBlackTree.Tree.ids]

theorem round_black (h : At t above ⟨s,c,x,join s false a w b⟩ path T)
    (hshort : Short (⟨s,c,x,join s false a w b⟩::path) T) (hT : T.isRed = false) :
    ∃ t' path' T', deleteRound s t (ptr t.sentinel T) = (t', ptr t.sentinel T') ∧
      KeysKept t t' ∧ Holds t' above path' T' ∧ Short path' T' ∧ T'.ids ≠ [] ∧
      (fill path' T').ids = (fill path (join s c T x (join s false a w b))).ids ∧
      ((path' = path ∧ T'.isRed = c) ∨ path' = []) := by
  obtain ⟨hw,-,hnear,hfar,hra,hrb,-⟩ := sibling_reads t above s c x w a b path T false h
  have hsib := black_sibling t above s c x w a b path T h
  have hboth : (!t.isRed (t.link w .left) ∧ !t.isRed (t.link w .right)) ↔
      a.isRed = false ∧ b.isRed = false := by
    cases s with
    | left => simp [hnear, show t.link w .right = _ from hfar, hra, hrb]
    | right => simp [hnear, show t.link w .left = _ from hfar, hra, hrb, and_comm]
  have hrun : deleteRound s t (ptr t.sentinel T) =
      if a.isRed = false ∧ b.isRed = false then (t.setRed w true, x)
      else (redOuter s (blackOuter s t (ptr t.sentinel T)) (ptr t.sentinel T),
        (redOuter s (blackOuter s t (ptr t.sentinel T)) (ptr t.sentinel T)).root) := by
    rw [h.parent] at hw
    simp only [deleteRound, hsib, h.parent, hw, hboth, parent_set_red]
  have houter : blackOuter s t (ptr t.sentinel T) =
      if b.isRed then t else blackOuter s t (ptr t.sentinel T) := by
    split_ifs with hb
    · simp only [blackOuter]
      rw [hw, hfar, hrb, hb]
      rfl
    · rfl
  rw [hrun]
  by_cases hb : b.isRed = true
  · obtain ⟨T',hroot,hkeys,h',hshort',hne,hids⟩ :=
      red_outer_ends t above s c x w a b path T h hshort hT hb
    rw [if_neg (fun hab => by rw [hab.2] at hb; cases hb), houter, if_pos hb]
    exact ⟨_,[],T',by rw [hroot],hkeys,h',hshort',hne,hids,Or.inr rfl⟩
  rw [Bool.not_eq_true] at hb
  by_cases ha : a.isRed = true
  · rcases tree_cases a s with rfl | ⟨red,a,n,b',rfl⟩
    · cases ha
    rw [join_isRed] at ha
    subst ha
    obtain ⟨h1,hkeys1⟩ := black_outer t above s c x w a b' path T n b h hb
    have hshort1 := short_inner path T s c x w a b' b n hshort hb
    obtain ⟨T',hroot,hkeys,h',hshort',hne,hids⟩ :=
      red_outer_ends _ above s c x n a (join s true b' w b) path T h1 hshort1 hT (join_isRed ..)
    rw [hkeys1.1] at hroot h' hkeys
    rw [if_neg (fun hab => by rw [join_isRed] at hab; cases hab.1)]
    refine ⟨_,[],T',by rw [hroot],keys_kept_trans _ _ _ hkeys1 hkeys,h',hshort',hne,?_,
      Or.inr rfl⟩
    rw [fill, hids]
    refine fill_ids_congr path _ _ ?_
    cases s <;> simp [join, RedBlackTree.Tree.ids]
  rw [Bool.not_eq_true] at ha
  rw [if_pos ⟨ha,hb⟩]
  have h1 := holds_paint t above _ s false true a w b ((holds_far ..).mp h.holds)
  rw [holds_plug, plug, join_other] at h1
  refine ⟨_,path,_,by rw [ptr_join],keys_kept_red t w true,h1,
    short_up path T s c x w a b hshort hT ha hb,?_,?_,Or.inl ⟨rfl,join_isRed ..⟩⟩
  · cases s <;> simp [join, RedBlackTree.Tree.ids]
  · refine fill_ids_congr path _ _ ?_
    cases s <;> simp [join, RedBlackTree.Tree.ids]

end Round

theorem delete_round (t : Rbtree) (above : ℕ) (f : Frame ℕ) (path : List (Frame ℕ)) (T : RedBlackTree.Tree ℕ)
    (h : At t above f path T) (hshort : Short (f::path) T) (hT : T.isRed = false) :
    ∃ t' path' T', deleteRound f.side t (ptr t.sentinel T) = (t', ptr t.sentinel T') ∧
      KeysKept t t' ∧ Holds t' above path' T' ∧ Short path' T' ∧ T'.ids ≠ [] ∧
      (fill path' T').ids = (fill (f::path) T).ids ∧
      (T'.isRed = true ∨ path'.length ≤ path.length) := by
  obtain ⟨s,c,x,far⟩ := f
  obtain ⟨red,a,w,b,hfar⟩ := short_sibling path T _ hshort
  have hfar' : far = join s red a w b := hfar
  subst hfar'
  cases red with
  | false =>
    obtain ⟨t',path',T',hround,hkeys,h',hshort',hne,hids,hnext⟩ :=
      round_black t above s c x w a b path T h hshort hT
    refine ⟨t',path',T',hround,hkeys,h',hshort',hne,hids,Or.inr ?_⟩
    rcases hnext with ⟨rfl,-⟩ | rfl
    · exact Nat.le_refl _
    · exact Nat.zero_le _
  | true =>
    have hc : c = false := by
      by_contra hc
      have := short_far path T _ hshort (by simpa using hc)
      rw [join_isRed] at this
      cases this
    subst hc
    obtain ⟨h1,hkeys1⟩ := red_sibling t above s x w a b path T h
    have hshort1 := short_red path T s x w a b hshort
    obtain ⟨red,a1,w1,b1,ha⟩ := short_sibling _ T _ hshort1
    have ha' : a = join s red a1 w1 b1 := ha
    have hblack := short_far _ T _ hshort1 rfl
    subst ha'
    rw [join_isRed] at hblack
    subst hblack
    obtain ⟨t',path',T',hround,hkeys,h',hshort',hne,hids,hnext⟩ :=
      round_black _ above s true x w1 a1 b1 _ T h1 hshort1 hT
    have hsib := black_sibling _ above s true x w1 a1 b1 _ T h1
    rw [hkeys1.1] at hround hsib
    refine ⟨t',path',T',?_,keys_kept_trans _ _ _ hkeys1 hkeys,h',hshort',hne,?_,?_⟩
    · rw [← hround]
      simp only [deleteRound, hsib]
    · rw [hids]
      refine fill_ids_congr path _ _ ?_
      cases s <;> simp [plug, join, RedBlackTree.Tree.ids]
    · rcases hnext with ⟨-,hred⟩ | rfl
      · exact Or.inl hred
      · exact Or.inr (Nat.zero_le _)

theorem delete_fixup (fuel : ℕ) (t : Rbtree) (above : ℕ) (path : List (Frame ℕ)) (T : RedBlackTree.Tree ℕ)
    (h : Holds t above path T)
    (hpar : ∀ f rest, path = f::rest → t.parent (ptr t.sentinel T) = f.id)
    (hshort : Short path T) (hfuel : (T.isRed = true ∧ 0 < fuel) ∨ path.length < fuel) :
    ∃ t' T', deleteFixup fuel t (ptr t.sentinel T) = some t' ∧ KeysKept t t' ∧
      Holds t' above [] T' ∧ Sound T' ∧ T'.ids = (fill path T).ids := by
  induction fuel generalizing t path T with
  | zero => omega
  | succ fuel ih =>
    have hroot := ptr_root t above path T h
    have hred : t.isRed (ptr t.sentinel T) = T.isRed :=
      isRed_ptr t _ T h.black h.tree_at
    by_cases hd : path = [] ∨ T.isRed = true
    · refine ⟨_,_,if_neg ?_,keys_kept_red t _ _,
        (holds_fill _ above path _).mp (holds_blacken t above path T h),
        short_done path T hshort hd,fill_ids_congr path _ _ (blacken_ids T)⟩
      rintro ⟨hne,hblack⟩
      rcases hd with hp | hp
      · exact hne (hroot.mpr hp)
      · rw [hred, hp] at hblack
        cases hblack
    obtain ⟨hp,hT⟩ := not_or.mp hd
    rw [Bool.not_eq_true] at hT
    obtain ⟨f,path,rfl⟩ := List.exists_cons_of_ne_nil hp
    have hpf := hpar f path rfl
    have hside : (if ptr t.sentinel T = t.link (t.parent (ptr t.sentinel T)) .left then Side.left
        else Side.right) = f.side := by
      obtain ⟨red,a,w,b,hfar⟩ := short_sibling path T f hshort
      have hne := ptr_ne_far t above f path T h
        (Or.inr (by rw [hfar]; cases f.side <;> simp [join, RedBlackTree.Tree.ids]))
      obtain ⟨-,-,-,hnear,hlink,-,-⟩ := h.path_at
      rw [hpf]
      cases hs : f.side with
      | left =>
        rw [hs] at hnear
        exact if_pos hnear.symm
      | right =>
        rw [hs] at hlink
        have hlink' : t.link f.id .left = ptr t.sentinel f.far := hlink
        rw [hlink', if_neg hne]
    obtain ⟨t',path',T',hround,hkeys,h',hshort',hne,hids,hnext⟩ :=
      delete_round t above f path T ⟨h,hpf⟩ hshort hT
    have hpar' : ∀ f rest, path' = f::rest → t'.parent (ptr t'.sentinel T') = f.id := by
      rintro g rest rfl
      cases T' with
      | leaf => exact absurd rfl hne
      | node red l y r => exact h'.tree_at.2.2.1
    have hfuel' : (T'.isRed = true ∧ 0 < fuel) ∨ path'.length < fuel := by
      have hlen : path.length < fuel := by
        rcases hfuel with ⟨hr,-⟩ | hl
        · rw [hT] at hr
          cases hr
        · exact Nat.lt_of_succ_lt_succ hl
      rcases hnext with hr | hl
      · exact Or.inl ⟨hr,by omega⟩
      · exact Or.inr (by omega)
    obtain ⟨t'',T'',hrest,hkeys',h'',hsound,hids'⟩ := ih t' path' T' h' hpar' hshort' hfuel'
    refine ⟨t'',T'',?_,keys_kept_trans _ _ _ hkeys hkeys',h'',hsound,hids'.trans hids⟩
    rw [deleteFixup, if_pos ⟨fun he => hp (hroot.mp he),by rw [hred, hT]; rfl⟩]
    simp only [hside, hround]
    rw [← hrest, hkeys.1]

end Nginx.RbtreeDelete
