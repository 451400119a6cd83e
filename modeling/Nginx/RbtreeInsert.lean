import Nginx.RbtreeShape
import Nginx.RedBlackRepair

/-!
# Insertion

The insert function walks down to a leaf and puts a red node there. Each round of
the repair loop moves the red node that may have a red parent up by two, or ends
with a black parent.
-/

set_option autoImplicit false

namespace Nginx.RbtreeInsert
open Nginx.RedBlackTree Nginx.RedBlackRepair Nginx.NgxRbtree Nginx.RbtreeShape

def KeysKept (t t' : Rbtree) : Prop := t'.sentinel = t.sentinel ∧ ∀ x, t'.key x = t.key x

theorem keys_kept_refl (t : Rbtree) : KeysKept t t := ⟨rfl,fun _ => rfl⟩

theorem keys_kept_trans (t t' t'' : Rbtree) (h : KeysKept t t') (h' : KeysKept t' t'') :
    KeysKept t t'' :=
  ⟨h'.1.trans h.1,fun x => (h'.2 x).trans (h.2 x)⟩

theorem keys_kept_red (t : Rbtree) (x : ℕ) (red : Bool) : KeysKept t (t.setRed x red) :=
  ⟨rfl,fun y => by simp⟩

section Round
variable (t : Rbtree) (above : ℕ) (s fs : Side) (p x : ℕ) (b c : RedBlackTree.Tree ℕ)
  (path : List (Frame ℕ)) (T : RedBlackTree.Tree ℕ)

theorem round_reads (h : Holds t above (⟨fs,true,p,b⟩::⟨s,false,x,c⟩::path) T)
    (hT : T.isRed = true) : t.parent (ptr t.sentinel T) = p ∧ t.parent p = x ∧
      t.link x s.other = ptr t.sentinel c ∧ t.isRed (ptr t.sentinel c) = c.isRed := by
  have hp := (holds_plug t above _ _ T).mp h
  have hx := (holds_plug t above _ _ _).mp hp
  obtain ⟨-,-,hpx,-,-⟩ := holds_node t above _ fs true T p b hp
  obtain ⟨-,-,-,-,hlc⟩ := holds_node t above path s false _ x c hx
  have htree := hx.tree_at
  rw [plug, tree_at_join] at htree
  refine ⟨?_,hpx,hlc,isRed_ptr t x c hx.black htree.2.2.2.2.2.2⟩
  cases T with
  | leaf => cases hT
  | node red l y r =>
    obtain ⟨-,-,hy,-,-⟩ := holds_node t above _ .left red l y r h
    exact hy

theorem round_recolor (h : Holds t above (⟨fs,true,p,b⟩::⟨s,false,x,c⟩::path) T)
    (hT : T.isRed = true) (hc : c.isRed = true) :
    ∃ t', insertRound s t (ptr t.sentinel T) = (t', x) ∧ KeysKept t t' ∧
      Holds t' above path (join s true (join fs false T p b) x c.blacken) := by
  obtain ⟨hp,hx,hl,hcr⟩ := round_reads t above s fs p x b c path T h hT
  have hred : t.isRed (t.link (t.parent (t.parent (ptr t.sentinel T))) s.other) = true := by
    rw [hp, hx, hl, hcr, hc]
  have h1 := holds_paint t above _ fs true false T p b ((holds_plug t above _ _ T).mp h)
  rw [holds_plug, plug, ← join_other] at h1
  have h2 := holds_blacken _ above _ c ((holds_plug _ above ⟨s.other,false,x,_⟩ path c).mpr h1)
  rw [holds_plug, plug, join_other] at h2
  have h3 := holds_paint _ above path s false true _ x _ h2
  refine ⟨_,?_,?_,h3⟩
  · simp only [insertRound]
    rw [if_pos hred]
    simp only [parent_set_red, hp, hx, hl]
    rfl
  · exact ⟨rfl,fun y => by simp⟩

theorem outer_end (h : Holds t above (⟨s,true,p,b⟩::⟨s,false,x,c⟩::path) T) :
    Holds (sideRotate s.other ((t.setRed p false).setRed x true) x) above
      (⟨s,false,p,join s true b x c⟩::path) T := by
  have h1 := holds_paint t above _ s true false T p b ((holds_plug t above _ _ T).mp h)
  rw [holds_plug] at h1
  have h2 := holds_paint _ above path s false true _ x c h1
  rw [← join_other s false, ← join_other s true] at h2
  have h3 := (holds_rotate _ above path s.other true false c b T x p h2).1
  rw [join_other, join_other] at h3
  exact (holds_plug _ above ⟨s,false,p,join s true b x c⟩ path T).mpr h3

theorem link_ne_ptr (f : Frame ℕ) (h : Holds t above (f::path) T) (hT : T.isRed = true) :
    ptr t.sentinel T ≠ t.link f.id f.side.other := by
  obtain ⟨⟨-,-,-,-,hfar,-,-⟩,htree,hnodup,-⟩ := h
  rw [hfar]
  intro he
  cases T with
  | leaf => cases hT
  | node red l y r =>
    have hmem := ptr_mem t.sentinel f.far (by rw [← he]; exact htree.1)
    refine (List.nodup_append.mp hnodup).2.2 _ ?_ y (by simp [RedBlackTree.Tree.ids]) (Eq.symm he)
    simp [pathIds, hmem]

theorem round_outer (h : Holds t above (⟨s,true,p,b⟩::⟨s,false,x,c⟩::path) T)
    (hT : T.isRed = true) (hc : c.isRed = false) :
    ∃ t', insertRound s t (ptr t.sentinel T) = (t', ptr t.sentinel T) ∧ KeysKept t t' ∧
      Holds t' above (⟨s,false,p,join s true b x c⟩::path) T := by
  obtain ⟨hp,hx,hl,hcr⟩ := round_reads t above s s p x b c path T h hT
  have hred : ¬ t.isRed (t.link (t.parent (t.parent (ptr t.sentinel T))) s.other) = true := by
    rw [hp, hx, hl, hcr, hc]
    exact Bool.false_ne_true
  have hne : ¬ ptr t.sentinel T = t.link (t.parent (ptr t.sentinel T)) s.other := by
    rw [hp]
    exact link_ne_ptr t above _ T _ h hT
  refine ⟨_,?_,?_,outer_end t above s p x b c path T h⟩
  · simp only [insertRound]
    rw [if_neg hred, if_neg hne]
    simp only [parent_set_red, hp, hx]
  · exact ⟨by simp,fun y => by simp⟩

theorem round_inner (a d : RedBlackTree.Tree ℕ) (y : ℕ)
    (h : Holds t above (⟨s.other,true,p,b⟩::⟨s,false,x,c⟩::path) (join s true a y d))
    (hc : c.isRed = false) :
    ∃ t', insertRound s t y = (t', p) ∧ KeysKept t t' ∧
      Holds t' above (⟨s,false,y,join s true d x c⟩::path) (join s true b p a) := by
  obtain ⟨hp,hx,hl,hcr⟩ := round_reads t above s s.other p x b c path _ h (join_isRed ..)
  rw [ptr_join] at hp
  have hred : ¬ t.isRed (t.link (t.parent (t.parent y)) s.other) = true := by
    rw [hp, hx, hl, hcr, hc]
    exact Bool.false_ne_true
  have heq : y = t.link (t.parent y) s.other := by
    rw [hp]
    have := h.path_at.2.2.2.1
    rw [ptr_join] at this
    exact this.symm
  have h1 := (holds_plug t above _ _ _).mp h
  rw [plug, join_other] at h1
  obtain ⟨h2,-⟩ := holds_rotate t above _ s true true b a d p y h1
  have h3 := outer_end _ above s y x d c path _ ((holds_plug _ above ⟨s,true,y,d⟩ _ _).mpr h2)
  refine ⟨_,?_,?_,h3⟩
  · simp only [insertRound]
    rw [if_neg hred, if_pos heq]
    obtain ⟨-,-,hy,-,-⟩ := holds_node _ above _ s true _ y d h2
    have hpy := ((tree_at_join _ _ s true _ y d).mp h2.tree_at).2.2.2.2.2.1
    rw [tree_at_join] at hpy
    have hxy : top above (⟨s,false,x,c⟩::path) = x := rfl
    rw [hxy] at hy
    simp only [parent_set_red, hp, hpy.2.2.1, hy]
  · exact ⟨by simp,fun y => by simp⟩

end Round

theorem insert_round (t : Rbtree) (above : ℕ) (f g : Frame ℕ) (path : List (Frame ℕ)) (T : RedBlackTree.Tree ℕ)
    (h : Holds t above (f::g::path) T) (hint : Intrudes (f::g::path) T) (hT : T.isRed = true)
    (hf : f.red = true) (hg : g.red = false) :
    ∃ t' path' T', insertRound g.side t (ptr t.sentinel T) = (t', ptr t.sentinel T') ∧
      KeysKept t t' ∧ Holds t' above path' T' ∧ Intrudes path' T' ∧ T'.isRed = true ∧
      (fill path' T').ids = (fill (f::g::path) T).ids ∧
      path'.length < (f::g::path).length := by
  obtain ⟨fs,fred,p,b⟩ := f
  obtain ⟨s,gred,x,c⟩ := g
  have hfr : fred = true := hf
  have hgr : gred = false := hg
  subst hfr
  subst hgr
  by_cases hc : c.isRed = true
  · obtain ⟨t',hround,hkeys,h'⟩ := round_recolor t above s fs p x b c path T h hT hc
    refine ⟨t',path,_,?_,hkeys,h',intrudes_recolor _ _ path T hint rfl rfl hc,
      join_isRed ..,?_,?_⟩
    · rw [hround, ptr_join]
    · refine fill_ids_congr path _ _ ?_
      exact join_ids s _ _ _ _ _ _ x (join_ids fs _ _ _ _ _ _ p rfl rfl) (blacken_ids c)
    · simp only [List.length_cons]
      omega
  rw [Bool.not_eq_true] at hc
  rcases Side.eq_or_other s fs with rfl | rfl
  · obtain ⟨t',hround,hkeys,h'⟩ := round_outer t above fs p x b c path T h hT hc
    refine ⟨t',_,T,hround,hkeys,h',intrudes_outer path T fs p x b c hint hc,hT,?_,?_⟩
    · refine fill_ids_congr path _ _ ?_
      cases fs <;> simp [plug, join, RedBlackTree.Tree.ids]
    · simp only [List.length_cons]
      omega
  rcases tree_cases T s with rfl | ⟨red,a,y,d,rfl⟩
  · cases hT
  rw [join_isRed] at hT
  subst hT
  obtain ⟨t',hround,hkeys,h'⟩ := round_inner t above s p x b c path a d y h hc
  have hinner := intrudes_inner ⟨s,false,x,c⟩ path s p y a d b hint
  refine ⟨t',_,_,?_,hkeys,h',intrudes_outer path _ s y x d c hinner hc,
    join_isRed ..,?_,?_⟩
  · rw [ptr_join, ptr_join]
    exact hround
  · refine fill_ids_congr path _ _ ?_
    cases s <;> simp [plug, join, RedBlackTree.Tree.ids, Side.other]
  · simp only [List.length_cons]
    omega

theorem holds_root_black (t : Rbtree) (above : ℕ) (path : List (Frame ℕ)) (T : RedBlackTree.Tree ℕ)
    (h : Holds t above path T) :
    Holds (t.setRed t.root false) above [] (fill path T).blacken := by
  have hfill := (holds_fill t above path T).mp h
  have hroot : t.root = ptr t.sentinel (fill path T) := hfill.path_at
  rw [hroot]
  exact holds_blacken t above [] _ hfill

theorem insert_fixup (fuel : ℕ) (t : Rbtree) (above : ℕ) (path : List (Frame ℕ)) (T : RedBlackTree.Tree ℕ)
    (h : Holds t above path T) (hint : Intrudes path T) (hT : T.isRed = true)
    (hfuel : path.length < fuel) :
    ∃ t' T', insertFixup fuel t (ptr t.sentinel T) = some t' ∧ KeysKept t t' ∧
      Holds t' above [] T' ∧ Sound T' ∧ T'.ids = (fill path T).ids := by
  induction fuel generalizing t path T with
  | zero => exact absurd hfuel (Nat.not_lt_zero _)
  | succ fuel ih =>
    have hdone : (path = [] ∨ ∃ f rest, path = f::rest ∧ f.red = false) →
        ¬ (ptr t.sentinel T ≠ t.root ∧ t.isRed (t.parent (ptr t.sentinel T)) = true) →
        ∃ t' T', insertFixup (fuel+1) t (ptr t.sentinel T) = some t' ∧ KeysKept t t' ∧
          Holds t' above [] T' ∧ Sound T' ∧ T'.ids = (fill path T).ids := by
      intro hd hc
      refine ⟨_,_,if_neg hc,keys_kept_red t _ _,holds_root_black t above path T h,
        intrudes_done path T hint hd,blacken_ids _⟩
    obtain ⟨a,x,b,rfl⟩ : ∃ a x b, T = .node true a x b := by
      cases T with
      | leaf => cases hT
      | node red a x b =>
        have hr : red = true := hT
        exact ⟨a,x,b,by rw [hr]⟩
    have hroot := holds_root t above path .left true a x b h
    obtain ⟨hxs,-,hpar,-,-⟩ := holds_node t above path .left true a x b h
    cases path with
    | nil => exact hdone (Or.inl rfl) (fun hc => hc.1 (hroot.mpr rfl))
    | cons f path =>
      have hplug := (holds_plug t above f path _).mp h
      obtain ⟨hfs,hfred,hfpar,-,-⟩ := holds_node t above path f.side f.red _ f.id f.far hplug
      have hpar' : t.parent x = f.id := hpar
      by_cases hf : f.red = true
      · obtain ⟨g,path,rfl,hg⟩ := intrudes_grand f path _ hint hf
        have hne : x ≠ t.root := fun he => List.cons_ne_nil _ _ (hroot.mp he)
        have hside : (if t.parent x = t.link (t.parent (t.parent x)) .left then Side.left
            else Side.right) = g.side := by
          have hgl := hplug.path_at.2.2.2.1
          have hgf := link_ne_ptr t above path _ g hplug (by rw [plug, join_isRed, hf])
          rw [plug, ptr_join] at hgl hgf
          have hgpar : t.parent f.id = g.id := hfpar
          rw [hpar', hgpar]
          cases hgs : g.side with
          | left =>
            rw [hgs] at hgl
            rw [if_pos hgl.symm]
          | right =>
            rw [hgs] at hgf
            exact if_neg hgf
        obtain ⟨t',path',T',hround,hkeys,h',hint',hT',hids,hlen⟩ :=
          insert_round t above f g path _ h hint hT hf hg
        obtain ⟨t'',T'',hrest,hkeys',h'',hsound,hids'⟩ := ih t' path' T' h' hint' hT'
          (by omega)
        refine ⟨t'',T'',?_,keys_kept_trans _ _ _ hkeys hkeys',h'',hsound,hids'.trans hids⟩
        have hround' : insertRound g.side t x = (t', ptr t.sentinel T') := hround
        show insertFixup (fuel+1) t x = some t''
        rw [insertFixup, if_pos ⟨hne,by rw [hpar', hfred, hf]⟩]
        simp only [hside, hround']
        rw [← hrest, hkeys.1]
      rw [Bool.not_eq_true] at hf
      refine hdone (Or.inr ⟨f,path,rfl,hf⟩) (fun hc => ?_)
      have := hc.2
      rw [ptr, hpar', hfred, hf] at this
      exact Bool.false_ne_true this

theorem attach_reads (t : Rbtree) (x node : ℕ) (s : Side) :
    (∀ z s', (attach t x s node).link z s' =
      if z = node then t.sentinel else if z = x ∧ s' = s then node else t.link z s') ∧
    (∀ z, (attach t x s node).parent z = if z = node then x else t.parent z) ∧
    (∀ z, (attach t x s node).isRed z = if z = node then true else t.isRed z) ∧
    KeysKept t (attach t x s node) := by
  refine ⟨fun z s' => ?_,fun z => ?_,fun z => ?_,rfl,fun z => ?_⟩
  · by_cases hz : z = node <;> cases s' <;> simp [attach, hz]
  · simp [attach]
  · simp [attach]
  · simp [attach]

theorem holds_attach (t : Rbtree) (above : ℕ) (f : Frame ℕ) (path : List (Frame ℕ)) (node : ℕ)
    (h : Holds t above (f::path) .leaf) (hs : node ≠ t.sentinel) (hn : node ∉ pathIds (f::path)) :
    Holds (attach t f.id f.side node) above (f::path) (.node true .leaf node .leaf) := by
  obtain ⟨⟨hfs,hfc,hfp,hside,hfar,hft,hrest⟩,-,hnodup,hblack⟩ := h
  obtain ⟨hl,hp,hr,-,-⟩ := attach_reads t f.id node f.side
  rw [pathIds, List.flatMap_cons, ← pathIds, List.cons_append] at hn hnodup
  have hfn : f.id ≠ node := fun he => hn (by simp [he])
  have hsame : ∀ z ∈ f.far.ids++pathIds path, SameAt t (attach t f.id f.side node) z := by
    intro z hz
    have hzn : z ≠ node := by
      rintro rfl
      exact hn (List.mem_cons_of_mem _ hz)
    have hzf : z ≠ f.id := by
      rintro rfl
      rw [RedBlackTree.Tree.ids, List.append_nil] at hnodup
      exact (List.nodup_cons.mp hnodup).1 hz
    refine ⟨fun s' => ?_,?_,?_⟩
    · rw [hl, if_neg hzn, if_neg (fun h => hzf h.1)]
    · rw [hp, if_neg hzn]
    · rw [hr, if_neg hzn]
  refine ⟨⟨hfs,?_,?_,?_,?_,?_,?_⟩,⟨hs,?_,?_,?_,?_,trivial,trivial⟩,?_,?_⟩
  · rw [hr, if_neg hfn, hfc]
  · rw [hp, if_neg hfn, hfp]
  · rw [hl, if_neg hfn, if_pos ⟨rfl,rfl⟩]
    rfl
  · rw [hl, if_neg hfn, if_neg (fun h => Side.other_ne f.side h.2), hfar]
    rfl
  · exact tree_at_congr t _ f.id f.far rfl (fun z hz => hsame z (List.mem_append_left _ hz)) hft
  · exact path_at_congr t _ above f.id path rfl rfl
      (fun z hz => hsame z (List.mem_append_right _ hz)) hrest
  · rw [hr, if_pos rfl]
  · rw [hp, if_pos rfl]
    rfl
  · rw [hl, if_pos rfl]
    rfl
  · rw [hl, if_pos rfl]
    rfl
  · rw [pathIds, List.flatMap_cons, ← pathIds, List.cons_append]
    rw [RedBlackTree.Tree.ids, List.append_nil] at hnodup
    refine List.nodup_append.mpr ⟨hnodup,by simp [RedBlackTree.Tree.ids],?_⟩
    rintro z hz w hw rfl
    have hzn : z = node := by simpa [RedBlackTree.Tree.ids] using hw
    rw [hzn] at hz
    exact hn hz
  · have hsn : t.sentinel ≠ node := hs.symm
    show (attach t f.id f.side node).isRed t.sentinel = false
    rw [hr, if_neg hsn, hblack]

/-- The walk to a leaf. It turns left exactly where `goesLeft` says so. -/
theorem insert_loop (goesLeft : Rbtree → ℕ → ℕ → Bool) (fuel : ℕ) (t : Rbtree) (above node : ℕ)
    (path : List (Frame ℕ)) (T : RedBlackTree.Tree ℕ) (h : Holds t above path T) (hT : T ≠ .leaf)
    (hs : node ≠ t.sentinel) (hn : node ∉ (fill path T).ids)
    (hchosen : ∀ f ∈ path, f.side = .left ↔ goesLeft t node f.id = true)
    (hfuel : T.ids.length ≤ fuel) :
    ∃ t' path', insertLoop goesLeft t node fuel (ptr t.sentinel T) = some t' ∧ KeysKept t t' ∧
      Holds t' above path' (.node true .leaf node .leaf) ∧ fill path' .leaf = fill path T ∧
      path' ≠ [] ∧ ∀ f ∈ path', f.side = .left ↔ goesLeft t node f.id = true := by
  induction fuel generalizing path T with
  | zero =>
    cases T with
    | leaf => exact absurd rfl hT
    | node red l x r =>
      simp [RedBlackTree.Tree.ids] at hfuel
  | succ fuel ih =>
    obtain ⟨x,hx⟩ : ∃ x, ptr t.sentinel T = x := ⟨_,rfl⟩
    obtain ⟨s,hside⟩ : ∃ s : Side, (if goesLeft t node x then Side.left else Side.right) = s :=
      ⟨_,rfl⟩
    rcases tree_cases T s with rfl | ⟨red,a,y,b,rfl⟩
    · exact absurd rfl hT
    rw [ptr_join] at hx ⊢
    subst hx
    have hdown : Holds t above (⟨s,red,y,b⟩::path) a := (holds_plug t above _ path a).mpr h
    obtain ⟨hys,-,-,hlink,-⟩ := holds_node t above path s red a y b h
    have hchosen' : ∀ f ∈ (⟨s,red,y,b⟩ : Frame ℕ)::path,
        f.side = .left ↔ goesLeft t node f.id = true := by
      intro f hf
      rcases List.mem_cons.mp hf with rfl | hf
      · show s = .left ↔ _
        rw [← hside]
        by_cases hg : goesLeft t node y = true
        · simp [hg]
        · simp [hg]
      · exact hchosen f hf
    rw [insertLoop]
    simp only [hside, hlink]
    cases a with
    | leaf =>
      have hn' : node ∉ pathIds ((⟨s,red,y,b⟩ : Frame ℕ)::path) := by
        intro hmem
        refine hn ((fill_perm (⟨s,red,y,b⟩::path) .leaf).mem_iff.mpr ?_)
        exact List.mem_append_left _ hmem
      refine ⟨_,_,if_pos rfl,(attach_reads t y node s).2.2.2,?_,rfl,List.cons_ne_nil _ _,
        hchosen'⟩
      exact holds_attach t above ⟨s,red,y,b⟩ path node hdown hs hn'
    | node red' l z r =>
      have hz : z ≠ t.sentinel := hdown.tree_at.1
      have hlen : (RedBlackTree.Tree.node red' l z r).ids.length ≤ fuel := by
        have := (join_perm s red (.node red' l z r) y b).length_eq
        rw [List.length_cons, List.length_append] at this
        omega
      obtain ⟨t',path',hrun,hkeys,h',hfill,hne,hch⟩ :=
        ih _ _ hdown (by rintro ⟨⟩) hn hchosen' hlen
      refine ⟨t',path',?_,hkeys,h',hfill,hne,hch⟩
      rw [← hrun]
      exact if_neg hz

end Nginx.RbtreeInsert
