import Nginx.RbtreeDelete
import Nginx.RbtreeSplice

/-!
# Deletion as a whole

`ngx_rbtree_delete` ends, and takes its node out of the sequence of the nodes.
-/

set_option autoImplicit false

namespace Nginx.RbtreeRemoval
open Nginx.RedBlackTree Nginx.RedBlackRepair Nginx.NgxRbtree Nginx.RbtreeShape Nginx.RbtreeLinks
open Nginx.RbtreeInsert Nginx.RbtreeSplice Nginx.RbtreeDelete

theorem erase_middle (xs ys : List ℕ) (x : ℕ) (h : (xs++x::ys).Nodup) :
    (xs++x::ys).erase x = xs++ys := by
  have hx : x ∉ xs := fun hx => (List.nodup_append.mp h).2.2 x hx x List.mem_cons_self rfl
  rw [List.erase_append_right _ hx, List.erase_cons_head]

theorem rbtree_min (t : Rbtree) (parent : ℕ) (T : RedBlackTree.Tree ℕ) (fuel : ℕ) (h : TreeAt t parent T)
    (hT : T ≠ .leaf) (hfuel : T.ids.length ≤ fuel) :
    ∃ path c y k, T = fill path (.node c .leaf y k) ∧ before path = [] ∧
      ngxRbtreeMin t fuel (ptr t.sentinel T) = some y := by
  induction T generalizing parent fuel with
  | leaf => exact absurd rfl hT
  | node red l x r ihl ihr =>
    obtain ⟨-,-,-,hlink,-,hl,-⟩ := h
    obtain ⟨fuel,rfl⟩ : ∃ n, fuel = n+1 := by
      refine ⟨fuel-1,?_⟩
      simp only [RedBlackTree.Tree.ids, List.length_append, List.length_cons] at hfuel
      omega
    rw [ptr, ngxRbtreeMin, hlink]
    cases l with
    | leaf => exact ⟨[],red,x,r,rfl,rfl,if_neg (fun h => h rfl)⟩
    | node red' l' y r' =>
      have hlen : (RedBlackTree.Tree.node red' l' y r').ids.length ≤ fuel := by
        simp only [RedBlackTree.Tree.ids, List.length_append, List.length_cons] at hfuel ⊢
        omega
      obtain ⟨path,c,z,k,hfill,hbefore,hrun⟩ := ihl x fuel hl (by rintro ⟨⟩) hlen
      refine ⟨path++[⟨.left,red,x,r⟩],c,z,k,?_,?_,?_⟩
      · rw [fill_append, ← hfill]
        rfl
      · rw [before_append, hbefore]
        rfl
      · rw [← hrun]
        exact if_pos hl.1

/-- What follows once `subst` and `temp` are chosen. -/
def finish (fuel : ℕ) (t : Rbtree) (node temp subst : ℕ) : Option Rbtree :=
  if subst = t.root then some (clearNode ((t.setRoot temp).setRed temp false) node)
  else if t.isRed subst then some (clearNode (splice t node subst temp) node)
  else deleteFixup fuel (clearNode (splice t node subst temp) node) temp

theorem delete_chosen (fuel : ℕ) (t : Rbtree) (node temp subst : ℕ)
    (h : (if t.link node .left = t.sentinel then some (t.link node .right, node)
      else if t.link node .right = t.sentinel then some (t.link node .left, node)
      else (ngxRbtreeMin t fuel (t.link node .right)).map (fun subst =>
        (if t.link subst .left ≠ t.sentinel then t.link subst .left else t.link subst .right,
          subst))) = some (temp, subst)) :
    ngxRbtreeDelete fuel t node = finish fuel t node temp subst := by
  simp only [ngxRbtreeDelete, h]
  rfl

theorem finish_repair (fuel : ℕ) (t : Rbtree) (above : ℕ) (path : List (Frame ℕ)) (k : RedBlackTree.Tree ℕ)
    (red : Bool) (h : Holds t above path k)
    (hpar : ∀ f rest, path = f::rest → t.parent (ptr t.sentinel k) = f.id)
    (hred : red = true → Sound (fill path k)) (hblack : red = false → Short path k)
    (hfuel : path.length < fuel) :
    ∃ t' T', (if red then some t else deleteFixup fuel t (ptr t.sentinel k)) = some t' ∧
      KeysKept t t' ∧ Holds t' above [] T' ∧ Sound T' ∧ T'.ids = (fill path k).ids := by
  cases red with
  | true => exact ⟨t,_,rfl,keys_kept_refl t,(holds_fill t above path k).mp h,hred rfl,rfl⟩
  | false => exact delete_fixup fuel t above path k h hpar (hblack rfl) (Or.inr hfuel)

/-- The tree in `t'` is that in `t` without `node`. -/
def Removed (t : Rbtree) (T : RedBlackTree.Tree ℕ) (node : ℕ) (t' : Rbtree) : Prop :=
  t'.sentinel = t.sentinel ∧ (∀ z, z ≠ node → t'.key z = t.key z) ∧
    ∃ above T', Holds t' above [] T' ∧ Sound T' ∧ T'.ids = T.ids.erase node

theorem holds_clear (t : Rbtree) (above : ℕ) (path : List (Frame ℕ)) (T : RedBlackTree.Tree ℕ) (x : ℕ)
    (h : Holds t above path T) (hx : x ∉ pathIds path++T.ids) :
    Holds (clearNode t x) above path T := by
  obtain ⟨hr,hs,hc,hz⟩ := clear_reads t x
  refine holds_same t _ above path T h hs hr (by rw [hc]; exact h.black) (fun z hmem => ?_)
  exact (hz z (fun he => hx (he ▸ hmem))).1

section OneChild
variable (fuel : ℕ) (t : Rbtree) (above : ℕ) (s : Side) (c : Bool) (x : ℕ) (k : RedBlackTree.Tree ℕ)

theorem remove_ids (path : List (Frame ℕ)) (hn : (fill path (join s c .leaf x k)).ids.Nodup) :
    (fill path k).ids = (fill path (join s c .leaf x k)).ids.erase x := by
  have hsplit : ∃ xs ys, (fill path (join s c .leaf x k)).ids = xs++x::ys ∧
      (fill path k).ids = xs++ys := by
    rw [fill_ids, fill_ids]
    cases s with
    | left => exact ⟨before path,k.ids++behind path,by simp [join, RedBlackTree.Tree.ids],by simp⟩
    | right => exact ⟨before path++k.ids,behind path,by simp [join, RedBlackTree.Tree.ids],rfl⟩
  obtain ⟨xs,ys,hold,hnew⟩ := hsplit
  rw [hold] at hn ⊢
  rw [hnew, erase_middle xs ys x hn]

theorem remove_root (h : Holds t above [] (join s c .leaf x k)) (hsound : Sound (join s c .leaf x k)) :
    ∃ t', finish fuel t x (ptr t.sentinel k) x = some t' ∧ Removed t (join s c .leaf x k) x t' := by
  have hn : (join s c .leaf x k).ids.Nodup := h.nodup
  have hroot := (holds_root t above [] s c .leaf x k h).mpr rfl
  have hT := h.tree_at
  rw [tree_at_join] at hT
  have hxk : x ∉ k.ids ∧ k.ids.Nodup := by
    have := ((join_perm s c .leaf x k).nodup_iff).mp hn
    exact List.nodup_cons.mp this
  have h1 : Holds (t.setRoot (ptr t.sentinel k)) x [] k :=
    ⟨rfl,tree_at_congr t _ x k rfl (fun z _ => ⟨fun _ => rfl,rfl,rfl⟩) hT.2.2.2.2.2.2,hxk.2,
      h.black⟩
  have h2 := holds_blacken _ x [] k h1
  refine ⟨_,if_pos hroot,rfl,fun z hz => ?_,x,k.blacken,holds_clear _ x [] _ x h2 ?_,?_,?_⟩
  · rw [((clear_reads _ x).2.2.2 z hz).2]
    simp
  · rw [blacken_ids]
    exact hxk.1
  · obtain ⟨⟨n,hrb⟩,-⟩ := hsound
    rw [redBlack_join] at hrb
    obtain ⟨-,j,-,hk,-⟩ := hrb
    obtain ⟨i,hi,-⟩ := redBlack_blacken k j hk
    exact ⟨⟨i,hi⟩,blacken_isRed k⟩
  · rw [blacken_ids]
    exact remove_ids s c x k [] hn

theorem remove_inner (f : Frame ℕ) (path : List (Frame ℕ))
    (h : Holds t above (f::path) (join s c .leaf x k))
    (hsound : Sound (fill (f::path) (join s c .leaf x k))) (hfuel : (f::path).length < fuel) :
    ∃ t', finish fuel t x (ptr t.sentinel k) x = some t' ∧
      Removed t (fill (f::path) (join s c .leaf x k)) x t' := by
  have hn : (fill (f::path) (join s c .leaf x k)).ids.Nodup :=
    ((holds_fill t above _ _).mp h).nodup
  obtain ⟨hxs,hred,hpar,-,-⟩ := holds_node t above _ s c .leaf x k h
  have hlink := h.path_at.2.2.2.1
  have hne := ptr_ne_far t above f path _ h (Or.inl (by cases s <;> simp [join, RedBlackTree.Tree.ids]))
  rw [← h.path_at.2.2.2.2.1, ptr_join] at hne
  rw [ptr_join] at hlink
  have hnr : x ≠ t.root := fun he =>
    List.cons_ne_nil f path ((holds_root t above _ s c .leaf x k h).mp he)
  have hcut := holds_cut t above f path s c x k h
  have hx : x ∉ pathIds (f::path)++k.ids := by
    have := (nodup_join _ s c .leaf x k).mp h.nodup
    exact (List.nodup_cons.mp (List.nodup_middle.mp this)).1
  have hsplice : splice t x x (ptr t.sentinel k) = cut t f.id f.side (ptr t.sentinel k) := by
    rw [splice_def, if_pos rfl, unlinked_eq t x _ f.id f.side hpar hlink hne.symm,
      parent_set_link, show t.parent x = f.id from hpar]
    rfl
  have hxt : ptr t.sentinel k ≠ x := by
    intro he
    have := ptr_mem t.sentinel k (he ▸ hxs)
    rw [he] at this
    exact hx (List.mem_append_right _ this)
  have hparent : ∀ g rest, f::path = g::rest →
      (clearNode (cut t f.id f.side (ptr t.sentinel k)) x).parent (ptr t.sentinel k) = g.id := by
    intro g rest hg
    rw [← (List.cons.inj hg).1, ((clear_reads _ x).2.2.2 _ hxt).1.2.1]
    simp [cut]
  obtain ⟨t',T',hrun,hkeys,h',hsound',hids⟩ := finish_repair fuel _ above (f::path) k c
    (holds_clear _ above _ k x hcut hx) hparent
    (fun hc => sound_cut _ _ s x (hc ▸ hsound)) (fun hc => short_cut _ _ s x (hc ▸ hsound)) hfuel
  refine ⟨t',?_,hkeys.1,fun z hz => ?_,above,T',h',hsound',?_⟩
  · rw [← hrun, finish, if_neg hnr, hred, hsplice]
    rfl
  · rw [hkeys.2, ((clear_reads _ x).2.2.2 z hz).2]
    simp [cut]
  · rw [hids, remove_ids s c x k _ hn]

end OneChild

/-- The successor `y` leaves its place and takes that of `x`. -/
theorem remove_successor (fuel : ℕ) (t : Rbtree) (above : ℕ) (c : Bool) (x y : ℕ) (k : RedBlackTree.Tree ℕ)
    (f : Frame ℕ) (path : List (Frame ℕ)) (h : Holds t above (f::path) (join .left c .leaf y k))
    (hsound : Sound (fill (f::path) (join .left c .leaf y k))) (hx : x ∈ pathIds (f::path))
    (hfuel : (f::path).length < fuel) :
    ∃ t', finish fuel t x (ptr t.sentinel k) y = some t' ∧ t'.sentinel = t.sentinel ∧
      (∀ z, z ≠ x → t'.key z = t.key z) ∧
      ∃ above' T', Holds t' above' [] T' ∧ Sound T' ∧
        T'.ids = (fill (f::path) k).ids.map (inPlace x y) := by
  obtain ⟨temp,htemp⟩ : ∃ temp, ptr t.sentinel k = temp := ⟨_,rfl⟩
  have hn := (nodup_join _ .left c .leaf y k).mp h.nodup
  have hy : y ∉ pathIds (f::path)++k.ids := (List.nodup_cons.mp (List.nodup_middle.mp hn)).1
  have hxy : y ≠ x := fun he => hy (he ▸ List.mem_append_left _ hx)
  obtain ⟨hys,hred,hpar,-,-⟩ := holds_node t above _ .left c .leaf y k h
  have hpf : t.parent y = f.id := hpar
  have hlink := h.path_at.2.2.2.1
  have hne := ptr_ne_far t above f path _ h (Or.inl (by simp [join, RedBlackTree.Tree.ids]))
  rw [← h.path_at.2.2.2.2.1, ptr_join] at hne
  rw [ptr_join] at hlink
  have hnr : y ≠ t.root := fun he =>
    List.cons_ne_nil f path ((holds_root t above _ .left c .leaf y k h).mp he)
  have hxs : x ≠ t.sentinel := fun he => (holds_sentinel t above _ _ h).1 (he ▸ hx)
  have hxt : temp ≠ x := by
    intro he
    have hmem := ptr_mem t.sentinel k (by rw [htemp, he]; exact hxs)
    rw [htemp, he] at hmem
    have hall := (List.nodup_cons.mp (List.nodup_middle.mp hn)).2
    exact (List.nodup_append.mp hall).2.2 x hx x hmem rfl
  have hcut := holds_cut t above f path .left c y k h
  rw [htemp] at hcut
  have hW := (holds_fill _ above _ _).mp hcut
  have hmemx : x ∈ (fill (f::path) k).ids :=
    (fill_perm _ _).mem_iff.mpr (List.mem_append_left _ hx)
  have hmemy : y ∉ (fill (f::path) k).ids := fun he => hy ((fill_perm _ _).mem_iff.mp he)
  obtain ⟨hren,hleaf⟩ := succeeded_renames (t.setLink f.id f.side temp) f.id temp x y above _ hW hmemx hmemy
    hys hxt
  have hrun : clearNode (splice t x y temp) x = succeeded
      ((t.setLink f.id f.side temp).setParent temp (inPlace x y f.id)) x y := by
    rw [splice_def, if_neg hxy, unlinked_eq t y temp f.id f.side hpf hlink hne.symm,
      parent_set_link, hpf, succeeded, inPlace]
    split_ifs <;> rfl
  generalize hu : succeeded
    ((t.setLink f.id f.side temp).setParent temp (inPlace x y f.id)) x y = u at hren hrun hleaf
  obtain ⟨above',h1⟩ := holds_renamed _ u (inPlace x y) above (f::path) k hcut hren
  have hptr : ptr u.sentinel (k.map (inPlace x y)) = temp := by
    rw [hren.sentinel, ptr_map _ _ _ hren.kept]
    show inPlace x y (ptr t.sentinel k) = temp
    rw [htemp]
    exact if_neg hxt
  have hparent : ∀ g rest, (f::path).map (Frame.map (inPlace x y)) = g::rest →
      u.parent (ptr u.sentinel (k.map (inPlace x y))) = g.id := by
    intro g rest hg
    rw [← (List.cons.inj hg).1]
    cases k with
    | leaf =>
      rw [hptr]
      exact hleaf htemp.symm
    | node red l z r => exact h1.tree_at.2.2.1
  have hsound1 : c = true → Sound (fill ((f::path).map (Frame.map (inPlace x y)))
      (k.map (inPlace x y))) := by
    intro hc
    rw [← map_fill]
    exact sound_map _ _ (sound_cut _ _ .left y (hc ▸ hsound))
  have hshort : c = false → Short ((f::path).map (Frame.map (inPlace x y)))
      (k.map (inPlace x y)) :=
    fun hc => short_map _ _ _ (short_cut _ _ .left y (hc ▸ hsound))
  obtain ⟨t',T',hfix,hkeys,h',hsound',hids⟩ := finish_repair fuel u above' _ _ c h1 hparent
    hsound1 hshort (by rwa [List.length_map])
  refine ⟨t',?_,hkeys.1.trans hren.sentinel,fun z hz => ?_,above',T',h',hsound',?_⟩
  · rw [← hfix, finish, if_neg hnr, hred, htemp, hrun, hptr]
  · rw [hkeys.2, ← hrun, ((clear_reads _ x).2.2.2 z hz).2, key_splice]
  · rw [hids, ← map_fill, map_ids]

theorem map_in_place (xs ys : List ℕ) (x y : ℕ) (h : (xs++x::ys).Nodup) :
    (xs++x::ys).map (inPlace x y) = xs++y::ys := by
  have hx := (List.nodup_cons.mp (List.nodup_middle.mp h)).1
  have hfix : ∀ zs : List ℕ, x ∉ zs → zs.map (inPlace x y) = zs := by
    intro zs hz
    have hid : zs.map (inPlace x y) = zs.map id :=
      List.map_congr_left (fun z hm => if_neg (fun he : z = x => hz (he ▸ hm)))
    rw [hid, List.map_id]
  rw [List.mem_append, not_or] at hx
  rw [List.map_append, List.map_cons, hfix xs hx.1, hfix ys hx.2, inPlace, if_pos rfl]

theorem rbtree_delete (fuel : ℕ) (t : Rbtree) (above : ℕ) (T : RedBlackTree.Tree ℕ) (node : ℕ)
    (h : Holds t above [] T) (hsound : Sound T) (hnode : node ∈ T.ids)
    (hfuel : T.ids.length < fuel) :
    ∃ t', ngxRbtreeDelete fuel t node = some t' ∧ Removed t T node t' := by
  obtain ⟨path,c,l,r,rfl⟩ := fill_focus T node hnode .left
  have hn : (fill path (join .left c l node r)).ids.Nodup := h.nodup
  have hat := (holds_fill t above path _).mpr h
  obtain ⟨-,-,-,hl,hr⟩ := holds_node t above path .left c l node r hat
  have hr' : t.link node .right = ptr t.sentinel r := hr
  have hlen := length_path path (join .left c l node r)
  have one : ∀ (s : Side) (k : RedBlackTree.Tree ℕ), join .left c l node r = join s c .leaf node k →
      ∃ t', finish fuel t node (ptr t.sentinel k) node = some t' ∧
        Removed t (fill path (join .left c l node r)) node t' := by
    intro s k he
    rw [he] at hat hsound hlen hfuel ⊢
    cases path with
    | nil => exact remove_root fuel t above s c node k hat hsound
    | cons f path => exact remove_inner fuel t above s c node k f path hat hsound (by omega)
  cases l with
  | leaf =>
    obtain ⟨t',hrun,hrem⟩ := one .left r rfl
    refine ⟨t',?_,hrem⟩
    rw [← hrun]
    have hls : t.link node .left = t.sentinel := hl
    exact delete_chosen fuel t node _ node (by rw [if_pos hls, hr'])
  | node cl ll xl rl =>
    have hls : t.link node .left ≠ t.sentinel := by
      rw [hl]
      exact (hat.tree_at.2.2.2.2.2.1).1
    cases r with
    | leaf =>
      obtain ⟨t',hrun,hrem⟩ := one .right _ rfl
      refine ⟨t',?_,hrem⟩
      rw [← hrun]
      have hrs : t.link node .right = t.sentinel := hr'
      exact delete_chosen fuel t node _ node (by rw [if_neg hls, if_pos hrs, hl])
    | node cr lr xr rr =>
      have hrs : t.link node .right ≠ t.sentinel := by
        rw [hr']
        exact (hat.tree_at.2.2.2.2.2.2).1
      have hsub : (RedBlackTree.Tree.node cr lr xr rr).ids.length ≤
          (join .left c (.node cl ll xl rl) node (.node cr lr xr rr)).ids.length := by
        rw [(join_perm ..).length_eq, List.length_cons, List.length_append]
        omega
      obtain ⟨near,cy,y,k,hfill,hbefore,hmin⟩ := rbtree_min t node (.node cr lr xr rr) fuel
        hat.tree_at.2.2.2.2.2.2 nofun (by omega)
      obtain ⟨f,rest,hpath⟩ := List.exists_cons_of_ne_nil
        (List.append_ne_nil_of_right_ne_nil near
          (List.cons_ne_nil (⟨.right,c,node,.node cl ll xl rl⟩ : Frame ℕ) path))
      have hwhole : fill path (join .left c (.node cl ll xl rl) node (.node cr lr xr rr)) =
          fill (f::rest) (join .left cy .leaf y k) := by
        rw [← hpath, fill_append, hfill]
        rfl
      have hids : (fill (f::rest) k).ids.map (inPlace node y) =
          (fill path (join .left c (.node cl ll xl rl) node (.node cr lr xr rr))).ids.erase node := by
        obtain ⟨as,has⟩ : ∃ as, before path++(RedBlackTree.Tree.node cl ll xl rl).ids = as := ⟨_,rfl⟩
        obtain ⟨bs,hbs⟩ : ∃ bs, k.ids++behind near++behind path = bs := ⟨_,rfl⟩
        have hold : (fill path (join .left c (.node cl ll xl rl) node
            (.node cr lr xr rr))).ids = as++node::y::bs := by
          rw [fill_ids, hfill, join, RedBlackTree.Tree.ids, fill_ids, hbefore, ← has, ← hbs]
          simp [RedBlackTree.Tree.ids]
        have hnew : (fill (f::rest) k).ids = as++node::bs := by
          rw [← hpath, fill_append, fill, plug, join, fill_ids, RedBlackTree.Tree.ids, fill_ids, hbefore, ← has,
            ← hbs]
          simp
        rw [hold] at hn ⊢
        have hn' : (as++node::bs).Nodup := by
          refine hn.sublist ?_
          simp
        rw [hnew, map_in_place as bs node y hn', erase_middle as (y::bs) node hn]
      rw [hwhole] at h hsound hfuel
      have hnode' : node ∈ pathIds (f::rest) := by
        rw [← hpath]
        simp [pathIds]
      have hlen' := length_path (f::rest) (join .left cy .leaf y k)
      have haty := (holds_fill t above (f::rest) _).mpr h
      obtain ⟨-,-,-,hyl,hyr⟩ := holds_node t above _ .left cy .leaf y k haty
      have hyl' : ¬ t.link y .left ≠ t.sentinel := fun hc => hc hyl
      have hyr' : t.link y .right = ptr t.sentinel k := hyr
      obtain ⟨t',hrun,hs,hkeys,above',T',h',hsound',hids'⟩ := remove_successor fuel t above cy
        node y k f rest haty hsound hnode' (by omega)
      refine ⟨t',?_,hs,hkeys,above',T',h',hsound',hids'.trans hids⟩
      rw [← hrun]
      refine delete_chosen fuel t node _ y ?_
      rw [if_neg hls, if_neg hrs, hr', hmin, Option.map_some, if_neg hyl', hyr']

end Nginx.RbtreeRemoval
