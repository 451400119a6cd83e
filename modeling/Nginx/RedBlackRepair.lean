import Nginx.RedBlackTree

/-!
# Repairing a red-black tree at one position

After an insertion the tree at the position fits but for its red root, after a
deletion it is one black node too low. Each repair step moves the defect towards
the root or removes it.
-/

set_option autoImplicit false

namespace Nginx.RedBlackRepair
open Nginx.RedBlackTree

variable {α : Type*}

def Rooted (path : List (Frame α)) : Prop := path ≠ [] → (fill path .leaf).isRed = false

def Intrudes (path : List (Frame α)) (t : RedBlackTree.Tree α) : Prop :=
  (∃ n, RedBlack t n ∧ Fits path n false) ∧ Rooted path

/-- A tree that fits if it were higher by one black node. Its root, when red, may
have red children. -/
def Short (path : List (Frame α)) (t : RedBlackTree.Tree α) : Prop :=
  (∃ n, RedBlack t.blacken (if t.isRed then n+1 else n) ∧ Fits path (n+1) false) ∧ Rooted path

def Sound (t : RedBlackTree.Tree α) : Prop := (∃ n, RedBlack t n) ∧ t.isRed = false

theorem rooted_tail (f : Frame α) (path : List (Frame α)) (h : Rooted (f::path)) : Rooted path := by
  intro hp
  rw [← h (List.cons_ne_nil f path)]
  exact fill_isRed path _ _ hp

theorem rooted_last (f : Frame α) (h : Rooted [f]) : f.red = false := by
  have := h (List.cons_ne_nil f [])
  rwa [fill, fill, plug, join_isRed] at this

theorem rooted_cons (f : Frame α) (path : List (Frame α)) (h : Rooted path)
    (hf : path = [] → f.red = false) : Rooted (f::path) := by
  intro _
  cases path with
  | nil => rw [fill, fill, plug, join_isRed, hf rfl]
  | cons g path =>
    rw [← h (List.cons_ne_nil g path)]
    exact fill_isRed (g::path) _ _ (List.cons_ne_nil g path)

theorem rooted_fill (path : List (Frame α)) (t : RedBlackTree.Tree α) (h : Rooted path)
    (ht : path = [] → t.isRed = false) : (fill path t).isRed = false := by
  cases path with
  | nil => exact ht rfl
  | cons f path =>
    rw [← h (List.cons_ne_nil f path)]
    exact fill_isRed _ _ _ (List.cons_ne_nil f path)

theorem rooted_nil : Rooted ([] : List (Frame α)) := fun h => absurd rfl h

theorem blacken_black (t : RedBlackTree.Tree α) (h : t.isRed = false) : t.blacken = t := by
  cases t with
  | leaf => rfl
  | node red l x r =>
    have hr : red = false := h
    rw [hr]
    rfl

section Insert
variable (f g : Frame α) (path : List (Frame α)) (t : RedBlackTree.Tree α)

theorem intrudes_done (h : Intrudes path t)
    (hd : path = [] ∨ ∃ f rest, path = f::rest ∧ f.red = false) : Sound (fill path t).blacken := by
  refine ⟨?_,blacken_isRed _⟩
  obtain ⟨⟨n,ht,hf⟩,hroot⟩ := h
  rcases hd with rfl | ⟨f,rest,rfl,hred⟩
  · obtain ⟨k,hk,-⟩ := redBlack_blacken t n ht
    exact ⟨k,hk⟩
  have hfits : Fits (f::rest) n t.isRed :=
    ⟨fun h => absurd (hred.symm.trans h) Bool.false_ne_true,hf.2⟩
  have hb := rooted_fill _ t hroot (fun h => absurd h (List.cons_ne_nil f rest))
  rw [blacken_black _ hb]
  exact fits_fill _ t n hfits ht

theorem intrudes_grand (h : Intrudes (f::path) t) (hf : f.red = true) :
    ∃ g rest, path = g::rest ∧ g.red = false := by
  obtain ⟨⟨n,-,-,-,hfit⟩,hroot⟩ := h
  cases path with
  | nil =>
    rw [rooted_last f hroot] at hf
    cases hf
  | cons g rest =>
    refine ⟨g,rest,rfl,?_⟩
    by_contra hg
    have := (hfit.1 (by simpa using hg)).1
    rw [hf] at this
    cases this

theorem intrudes_recolor (h : Intrudes (f::g::path) t) (hf : f.red = true)
    (hg : g.red = false) (hu : g.far.isRed = true) :
    Intrudes path (join g.side true (join f.side false t f.id f.far) g.id g.far.blacken) := by
  obtain ⟨⟨n,ht,-,hfar,-,hgfar,hfit⟩,hroot⟩ := h
  rw [hf, if_pos rfl] at hgfar hfit
  rw [hg, if_neg Bool.false_ne_true] at hfit
  obtain ⟨k,hk,hkn⟩ := redBlack_blacken g.far n hgfar
  rw [hu, if_pos rfl] at hkn
  subst hkn
  refine ⟨⟨n+1,?_,hfit⟩,rooted_tail g path (rooted_tail f _ hroot)⟩
  rw [redBlack_join, join_isRed, blacken_isRed]
  refine ⟨fun _ => ⟨rfl,rfl⟩,n+1,?_,hk,rfl⟩
  rw [redBlack_join]
  exact ⟨nofun,n,ht,hfar,rfl⟩

theorem intrudes_outer (s : Side) (p x : α) (b c : RedBlackTree.Tree α)
    (h : Intrudes (⟨s,true,p,b⟩::⟨s,false,x,c⟩::path) t) (hc : c.isRed = false) :
    Intrudes (⟨s,false,p,join s true b x c⟩::path) t := by
  obtain ⟨⟨n,ht,hb,hbn,-,hcn,hfit⟩,hroot⟩ := h
  refine ⟨⟨n,ht,nofun,?_,fits_black path _ _ hfit⟩,?_⟩
  · rw [redBlack_join]
    exact ⟨fun _ => ⟨(hb rfl).2,hc⟩,n,hbn,hcn,rfl⟩
  · exact rooted_cons _ path (rooted_tail _ path (rooted_tail _ _ hroot)) (fun _ => rfl)

theorem intrudes_inner (s : Side) (p x : α) (a b d : RedBlackTree.Tree α)
    (h : Intrudes (⟨s.other,true,p,d⟩::g::path) (join s true a x b)) :
    Intrudes (⟨s,true,x,b⟩::g::path) (join s true d p a) := by
  obtain ⟨⟨n,ht,hd,hdn,hfit⟩,hroot⟩ := h
  rw [redBlack_join] at ht
  obtain ⟨hab,k,ha,hb,hk⟩ := ht
  rw [if_pos rfl] at hk
  subst hk
  obtain ⟨hra,hrb⟩ := hab rfl
  have hrd : d.isRed = false := (hd rfl).2
  refine ⟨⟨n,?_,fun _ => ⟨rfl,hrb⟩,hb,hfit⟩,?_⟩
  · rw [redBlack_join]
    exact ⟨fun _ => ⟨hrd,hra⟩,n,hdn,ha,rfl⟩
  · exact rooted_cons _ _ (rooted_tail _ _ hroot) (fun h => absurd h (List.cons_ne_nil g path))

end Insert

section Delete
variable (path : List (Frame α)) (t : RedBlackTree.Tree α) (s : Side) (c : Bool) (x w : α) (a b d : RedBlackTree.Tree α)

theorem short_done (h : Short path t) (hd : path = [] ∨ t.isRed = true) :
    Sound (fill path t.blacken) := by
  obtain ⟨⟨n,ht,hf⟩,hroot⟩ := h
  refine ⟨?_,rooted_fill path _ hroot (fun _ => blacken_isRed t)⟩
  rcases hd with rfl | hred
  · exact ⟨_,ht⟩
  · rw [hred, if_pos rfl] at ht
    exact fits_fill path _ _ (by rwa [blacken_isRed]) ht

theorem short_sibling (f : Frame α) (h : Short (f::path) t) :
    ∃ red a w b, f.far = join f.side red a w b := by
  obtain ⟨⟨n,-,-,hfar,-⟩,-⟩ := h
  rcases tree_cases f.far f.side with hl | hj
  · rw [hl] at hfar
    exact absurd hfar (Nat.succ_ne_zero n)
  · exact hj

theorem short_far (f : Frame α) (h : Short (f::path) t) (hf : f.red = true) :
    f.far.isRed = false := by
  obtain ⟨⟨n,-,hred,-⟩,-⟩ := h
  exact (hred hf).2

theorem short_sound (h : Sound t) : Short [] t := by
  obtain ⟨⟨n,ht⟩,hb⟩ := h
  refine ⟨⟨n,?_,trivial⟩,rooted_nil⟩
  rwa [blacken_black t hb, hb, if_neg Bool.false_ne_true]

theorem short_red (h : Short (⟨s,false,x,join s true a w b⟩::path) t) :
    Short (⟨s,true,x,a⟩::⟨s,false,w,b⟩::path) t := by
  obtain ⟨⟨n,ht,-,hfar,hfit⟩,hroot⟩ := h
  rw [redBlack_join] at hfar
  obtain ⟨hab,k,ha,hb,hk⟩ := hfar
  rw [if_pos rfl] at hk
  subst hk
  refine ⟨⟨n,ht,fun _ => ⟨rfl,(hab rfl).1⟩,ha,nofun,hb,hfit⟩,?_⟩
  exact rooted_cons _ _ (rooted_cons _ _ (rooted_tail _ _ hroot) (fun _ => rfl)) nofun

theorem short_up (h : Short (⟨s,c,x,join s false a w b⟩::path) t) (ht : t.isRed = false)
    (ha : a.isRed = false) (hb : b.isRed = false) :
    Short path (join s c t x (join s true a w b)) := by
  obtain ⟨⟨n,hn,-,hfar,hfit⟩,hroot⟩ := h
  rw [redBlack_join] at hfar
  obtain ⟨-,k,hka,hkb,hk⟩ := hfar
  rw [if_neg Bool.false_ne_true, Nat.add_right_cancel_iff] at hk
  subst hk
  have hblack : (join s c t x (join s true a w b)).blacken =
      join s false t x (join s true a w b) := by
    cases s <;> rfl
  rw [ht, if_neg Bool.false_ne_true, blacken_black t ht] at hn
  refine ⟨⟨if c then n else n+1,?_,?_⟩,rooted_tail _ path hroot⟩
  · rw [hblack, redBlack_join, join_isRed]
    refine ⟨nofun,n,hn,?_,by rw [join_isRed]; cases c <;> rfl⟩
    rw [redBlack_join]
    exact ⟨fun _ => ⟨ha,hb⟩,n,hka,hkb,rfl⟩
  · have := fits_black path _ _ hfit
    cases c <;> exact this

theorem short_inner (n : α)
    (h : Short (⟨s,c,x,join s false (join s true a n b) w d⟩::path) t) (hd : d.isRed = false) :
    Short (⟨s,c,x,join s false a n (join s true b w d)⟩::path) t := by
  obtain ⟨⟨k,hk,hc,hfar,hfit⟩,hroot⟩ := h
  rw [redBlack_join] at hfar
  obtain ⟨-,j,hnear,hdj,hj⟩ := hfar
  rw [redBlack_join] at hnear
  obtain ⟨hab,i,ha,hb,hi⟩ := hnear
  rw [if_pos rfl] at hi
  subst hi
  refine ⟨⟨k,hk,fun hr => ⟨rfl,by rw [join_isRed]⟩,?_,hfit⟩,?_⟩
  · rw [redBlack_join]
    refine ⟨nofun,j,ha,?_,hj⟩
    rw [redBlack_join]
    exact ⟨fun _ => ⟨(hab rfl).2,hd⟩,j,hb,hdj,rfl⟩
  · refine rooted_cons _ _ (rooted_tail _ _ hroot) ?_
    rintro rfl
    exact rooted_last ⟨s,c,x,join s false (join s true a n b) w d⟩ hroot

theorem short_outer (h : Short (⟨s,c,x,join s false a w b⟩::path) t) (ht : t.isRed = false)
    (hb : b.isRed = true) : Sound (fill path (join s c (join s false t x a) w b.blacken)) := by
  obtain ⟨⟨n,hn,-,hfar,hfit⟩,hroot⟩ := h
  rw [redBlack_join] at hfar
  obtain ⟨-,k,hka,hkb,hk⟩ := hfar
  rw [if_neg Bool.false_ne_true, Nat.add_right_cancel_iff] at hk
  subst hk
  rw [ht, if_neg Bool.false_ne_true, blacken_black t ht] at hn
  obtain ⟨j,hj,hjn⟩ := redBlack_blacken b n hkb
  rw [hb, if_pos rfl] at hjn
  subst hjn
  refine ⟨fits_fill path _ (if c then n+1 else n+1+1) ?_ ?_,?_⟩
  · rwa [join_isRed]
  · rw [redBlack_join, join_isRed, blacken_isRed]
    refine ⟨fun _ => ⟨rfl,rfl⟩,n+1,?_,hj,rfl⟩
    rw [redBlack_join]
    exact ⟨nofun,n,hn,hka,rfl⟩
  · refine rooted_fill path _ (rooted_tail _ path hroot) (fun hp => ?_)
    subst hp
    rw [join_isRed]
    exact rooted_last ⟨s,c,x,join s false a w b⟩ hroot

theorem short_cut (h : Sound (fill path (join s false .leaf x t))) : Short path t := by
  obtain ⟨⟨n,hn⟩,hroot⟩ := h
  obtain ⟨k,hk,hfit⟩ := fill_fits path _ n hn
  rw [redBlack_join] at hk
  obtain ⟨-,j,hleaf,ht,rfl⟩ := hk
  have hj : j = 0 := hleaf
  subst hj
  obtain ⟨i,hi,hin⟩ := redBlack_blacken t 0 ht
  subst hin
  rw [join_isRed] at hfit
  refine ⟨⟨0,hi,hfit⟩,fun hp => ?_⟩
  rw [← hroot]
  exact fill_isRed path _ _ hp

theorem sound_cut (h : Sound (fill path (join s true .leaf x t))) : Sound (fill path t) := by
  obtain ⟨⟨n,hn⟩,hroot⟩ := h
  obtain ⟨k,hk,hfit⟩ := fill_fits path _ n hn
  rw [redBlack_join] at hk
  obtain ⟨hred,j,-,ht,hj⟩ := hk
  rw [if_pos rfl] at hj
  subst hj
  have htr : t.isRed = false := (hred rfl).2
  refine ⟨fits_fill path t k ?_ ht,?_⟩
  · rw [htr]
    exact fits_black path _ _ hfit
  · cases path with
    | nil => exact htr
    | cons f path =>
      rw [← hroot]
      exact fill_isRed _ _ _ (List.cons_ne_nil f path)

theorem sound_map {β : Type*} (f : α → β) (h : Sound t) : Sound (t.map f) := by
  obtain ⟨⟨n,hn⟩,hroot⟩ := h
  exact ⟨⟨n,redBlack_map f t n hn⟩,by rw [map_isRed, hroot]⟩

theorem short_map {β : Type*} (f : α → β) (h : Short path t) :
    Short (path.map (Frame.map f)) (t.map f) := by
  obtain ⟨⟨n,hn,hfit⟩,hroot⟩ := h
  refine ⟨⟨n,?_,fits_map f path _ _ hfit⟩,fun hp => ?_⟩
  · rw [map_blacken, map_isRed]
    exact redBlack_map f _ _ hn
  · have hleaf : (RedBlackTree.Tree.leaf : RedBlackTree.Tree β) = RedBlackTree.Tree.map f .leaf := rfl
    rw [hleaf, ← map_fill, map_isRed]
    exact hroot (fun he => hp (by rw [he]; rfl))

end Delete

end Nginx.RedBlackRepair
