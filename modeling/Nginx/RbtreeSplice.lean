import Nginx.RbtreeLinks
import Nginx.RbtreeInsert

/-!
# The relinking of a deletion

A node with at most one child is cut out. When the node to delete has two children
its successor is cut out instead, and then takes over its links and its colour. The
memory then holds the tree of the cut with the one node renamed to the other.
-/

set_option autoImplicit false

namespace Nginx.RbtreeSplice
open Nginx.RedBlackTree Nginx.RedBlackRepair Nginx.NgxRbtree Nginx.RbtreeShape Nginx.RbtreeLinks
open Nginx.RbtreeInsert

/-- A node leaves its place below `q` to `temp`. -/
def cut (t : Rbtree) (q : ℕ) (s : Side) (temp : ℕ) : Rbtree :=
  (t.setLink q s temp).setParent temp q

theorem holds_cut (t : Rbtree) (above : ℕ) (f : Frame ℕ) (path : List (Frame ℕ)) (s : Side)
    (c : Bool) (x : ℕ) (k : RedBlackTree.Tree ℕ) (h : Holds t above (f::path) (join s c .leaf x k)) :
    Holds (cut t f.id f.side (ptr t.sentinel k)) above (f::path) k := by
  have hn := (nodup_join _ s c .leaf x k).mp h.nodup
  obtain ⟨hfar_s,-⟩ := holds_sentinel t above _ _ h
  obtain ⟨⟨hfs,hfc,hfp,-,hfar,hfarT,hrest⟩,hT,-,hblack⟩ := h
  rw [tree_at_join] at hT
  obtain ⟨-,-,-,-,-,-,hk⟩ := hT
  obtain ⟨temp,htemp⟩ : ∃ temp, ptr t.sentinel k = temp := ⟨_,rfl⟩
  rw [htemp]
  have hnodup : (pathIds (f::path)++k.ids).Nodup := by
    rw [RedBlackTree.Tree.ids, List.nil_append] at hn
    exact (List.nodup_cons.mp (List.nodup_middle.mp hn)).2
  have hpath : pathIds (f::path) = f.id::(f.far.ids++pathIds path) := by
    rw [pathIds, List.flatMap_cons, ← pathIds, List.cons_append]
  have hnf := (List.nodup_append.mp hnodup).1
  rw [hpath] at hnf hfar_s
  have hsame : ∀ z ∈ f.far.ids++pathIds path, SameAt t (cut t f.id f.side temp) z := by
    intro z hz
    have hzf : z ≠ f.id := by
      rintro rfl
      exact (List.nodup_cons.mp hnf).1 hz
    have hzt : z ≠ temp := by
      rintro rfl
      have hzs : ptr t.sentinel k ≠ t.sentinel := by
        rw [htemp]
        rintro rfl
        exact hfar_s (List.mem_cons_of_mem _ hz)
      refine (List.nodup_append.mp hnodup).2.2 z ?_ z (htemp ▸ ptr_mem _ k hzs) rfl
      rw [hpath]
      exact List.mem_cons_of_mem _ hz
    exact ⟨fun s' => by simp [cut, hzf],by simp [cut, hzt],by simp [cut]⟩
  have hft : f.id ≠ temp := by
    rintro rfl
    have hkf := ptr_mem t.sentinel k (by rw [htemp]; exact hfs)
    rw [htemp] at hkf
    exact (List.nodup_append.mp hnodup).2.2 f.id (by simp [hpath]) f.id hkf rfl
  refine ⟨⟨hfs,?_,?_,?_,?_,?_,?_⟩,?_,hnodup,by simpa [cut] using hblack⟩
  · simpa [cut] using hfc
  · simpa [cut, hft] using hfp
  · simp [cut, htemp]
  · simpa [cut] using hfar
  · exact tree_at_congr t _ f.id f.far rfl (fun z hz => hsame z (List.mem_append_left _ hz)) hfarT
  · exact path_at_congr t _ above f.id path rfl rfl
      (fun z hz => hsame z (List.mem_append_right _ hz)) hrest
  · cases k with
    | leaf => trivial
    | node red l y r =>
      have hy : y = temp := htemp
      subst hy
      obtain ⟨hys,hyc,-,hl,hr,htl,htr⟩ := hk
      have hny := (List.nodup_append.mp hnodup).2.1
      rw [RedBlackTree.Tree.ids, List.nodup_middle, List.nodup_cons, List.mem_append, not_or] at hny
      have hin : ∀ z ∈ l.ids++r.ids, SameAt t (cut t f.id f.side y) z := by
        intro z hz
        have hzy : z ≠ y := by
          rintro rfl
          exact (List.mem_append.mp hz).elim hny.1.1 hny.1.2
        have hzf : z ≠ f.id := by
          rintro rfl
          have hmem : f.id ∈ (RedBlackTree.Tree.node red l y r).ids := by
            rw [RedBlackTree.Tree.ids]
            exact List.perm_middle.mem_iff.mpr (List.mem_cons_of_mem _ hz)
          exact (List.nodup_append.mp hnodup).2.2 f.id (by simp [hpath]) _ hmem rfl
        exact ⟨fun s' => by simp [cut, hzf],by simp [cut, hzy],by simp [cut]⟩
      refine ⟨hys,by simpa [cut] using hyc,by simp [cut, top],?_,?_,?_,?_⟩
      · simpa [cut, hft.symm] using hl
      · simpa [cut, hft.symm] using hr
      · exact tree_at_congr t _ y l rfl (fun z hz => hin z (List.mem_append_left _ hz)) htl
      · exact tree_at_congr t _ y r rfl (fun z hz => hin z (List.mem_append_right _ hz)) htr

section Reads
variable (t : Rbtree) (node subst : ℕ)

/-- `subst` takes over the links and the colour of `node`. -/
def adopted : Rbtree :=
  let t := t.setLink subst .left (t.link node .left)
  let t := t.setLink subst .right (t.link node .right)
  let t := t.setParent subst (t.parent node)
  t.setRed subst (t.isRed node)

def reseated : Rbtree :=
  if node = t.root then t.setRoot subst
  else if node = t.link (t.parent node) .left then t.setLink (t.parent node) .left subst
  else t.setLink (t.parent node) .right subst

/-- The child of `subst` on a side gets it as its parent. -/
def greeted (s : Side) : Rbtree :=
  if t.link subst s ≠ t.sentinel then t.setParent (t.link subst s) subst else t

theorem adopted_reads (h : node ≠ subst) :
    (adopted t node subst).root = t.root ∧ (adopted t node subst).sentinel = t.sentinel ∧
    (∀ z, (adopted t node subst).isRed z = if z = subst then t.isRed node else t.isRed z) ∧
    (∀ z s, (adopted t node subst).link z s =
      if z = subst then t.link node s else t.link z s) ∧
    (∀ z, (adopted t node subst).parent z = if z = subst then t.parent node else t.parent z) := by
  refine ⟨rfl,rfl,fun z => ?_,fun z s => ?_,fun z => ?_⟩
  · simp [adopted]
  · cases s <;> simp [adopted, h]
  · simp [adopted]

theorem reseated_reads :
    (reseated t node subst).root = (if node = t.root then subst else t.root) ∧
    (reseated t node subst).sentinel = t.sentinel ∧
    (∀ z, (reseated t node subst).isRed z = t.isRed z) ∧
    (∀ z s, (reseated t node subst).link z s = if node ≠ t.root ∧ z = t.parent node ∧
      s = (if node = t.link (t.parent node) .left then .left else .right) then subst
      else t.link z s) ∧
    (∀ z, (reseated t node subst).parent z = t.parent z) := by
  rw [reseated]
  split_ifs with hr hl <;> simp [hr]

theorem greeted_reads (s : Side) :
    (greeted t subst s).root = t.root ∧ (greeted t subst s).sentinel = t.sentinel ∧
    (∀ z, (greeted t subst s).isRed z = t.isRed z) ∧
    (∀ z s', (greeted t subst s).link z s' = t.link z s') ∧
    (∀ z, (greeted t subst s).parent z =
      if z ≠ t.sentinel ∧ z = t.link subst s then subst else t.parent z) := by
  rw [greeted]
  split_ifs with h
  · refine ⟨rfl,rfl,fun z => by simp,fun z s => by simp,fun z => ?_⟩
    by_cases hz : z = t.link subst s
    · simp [hz, h]
    · simp [hz]
  · refine ⟨rfl,rfl,fun z => rfl,fun z s => rfl,fun z => ?_⟩
    rw [if_neg]
    rintro ⟨hs,rfl⟩
    exact h hs

theorem clear_reads : (clearNode t node).root = t.root ∧
    (clearNode t node).sentinel = t.sentinel ∧
    (∀ z, (clearNode t node).isRed z = t.isRed z) ∧
    (∀ z, z ≠ node → SameAt t (clearNode t node) z ∧ (clearNode t node).key z = t.key z) := by
  refine ⟨rfl,rfl,fun z => by simp [clearNode],fun z hz => ⟨⟨fun s => ?_,?_,?_⟩,?_⟩⟩
  · simp [clearNode, hz]
  · simp [clearNode, hz]
  · simp [clearNode]
  · simp [clearNode, hz]

def unlinked (temp : ℕ) : Rbtree :=
  if subst = t.link (t.parent subst) .left then t.setLink (t.parent subst) .left temp
  else t.setLink (t.parent subst) .right temp

theorem splice_def (temp : ℕ) : splice t node subst temp =
    if subst = node then (unlinked t subst temp).setParent temp ((unlinked t subst temp).parent subst)
    else greeted (greeted (reseated (adopted
      (if (unlinked t subst temp).parent subst = node then
        (unlinked t subst temp).setParent temp subst
      else (unlinked t subst temp).setParent temp ((unlinked t subst temp).parent subst))
      node subst) node subst) subst .left) subst .right := rfl

theorem unlinked_eq (temp q : ℕ) (s : Side) (hq : t.parent subst = q) (hs : t.link q s = subst)
    (hne : t.link q s.other ≠ subst) : unlinked t subst temp = t.setLink q s temp := by
  rw [unlinked, hq]
  cases s with
  | left => exact if_pos hs.symm
  | right => exact if_neg (Ne.symm hne)

theorem key_splice (temp z : ℕ) : (splice t node subst temp).key z = t.key z := by
  have hunlinked : (unlinked t subst temp).key z = t.key z := by
    rw [unlinked]
    split_ifs <;> simp
  have hadopted : ∀ u : Rbtree, (adopted u node subst).key z = u.key z := fun u => by
    simp [adopted]
  have hreseated : ∀ u : Rbtree, (reseated u node subst).key z = u.key z := fun u => by
    rw [reseated]
    split_ifs <;> simp
  have hgreeted : ∀ (u : Rbtree) (s : Side), (greeted u subst s).key z = u.key z := fun u s => by
    rw [greeted]
    split_ifs <;> simp
  rw [splice_def]
  split_ifs with hx hp
  · rw [key_set_parent, hunlinked]
  · rw [hgreeted, hgreeted, hreseated, hadopted, key_set_parent, hunlinked]
  · rw [hgreeted, hgreeted, hreseated, hadopted, key_set_parent, hunlinked]

/-- The end of a deletion that moves `subst` into the place of `node`. -/
def succeeded : Rbtree :=
  clearNode (greeted (greeted (reseated (adopted t node subst) node subst) subst .left)
    subst .right) node

theorem succeeded_reads (h : node ≠ subst) (hp : node ≠ t.root → t.parent node ≠ subst) :
    (succeeded t node subst).root = (if node = t.root then subst else t.root) ∧
    (succeeded t node subst).sentinel = t.sentinel ∧
    (∀ z, (succeeded t node subst).isRed z = if z = subst then t.isRed node else t.isRed z) ∧
    (∀ z s, z ≠ node → (succeeded t node subst).link z s = if node ≠ t.root ∧ z = t.parent node ∧
      s = (if node = t.link (t.parent node) .left then .left else .right) then subst
      else if z = subst then t.link node s else t.link z s) ∧
    (∀ z, z ≠ node → (succeeded t node subst).parent z =
      if z ≠ t.sentinel ∧ (z = t.link node .left ∨ z = t.link node .right) then subst
      else if z = subst then t.parent node else t.parent z) := by
  obtain ⟨ar,as,ac,al,ap⟩ := adopted_reads t node subst h
  obtain ⟨rr,rs,rc,rl,rp⟩ := reseated_reads (adopted t node subst) node subst
  obtain ⟨lr,ls,lc,ll,lp⟩ := greeted_reads (reseated (adopted t node subst) node subst) subst .left
  obtain ⟨gr,gs,gc,gl,gp⟩ := greeted_reads
    (greeted (reseated (adopted t node subst) node subst) subst .left) subst .right
  obtain ⟨cr,cs,cc,cz⟩ := clear_reads
    (greeted (greeted (reseated (adopted t node subst) node subst) subst .left) subst .right) node
  rw [ar] at rr
  rw [ar, ap, if_neg h] at rl
  have hlink : ∀ z s, (reseated (adopted t node subst) node subst).link z s =
      if node ≠ t.root ∧ z = t.parent node ∧
        s = (if node = t.link (t.parent node) .left then .left else .right) then subst
      else if z = subst then t.link node s else t.link z s := by
    intro z s
    rw [rl, al, al]
    by_cases hr : node = t.root
    · simp [hr]
    · rw [if_neg (hp hr)]
  have hsub : ∀ s, (reseated (adopted t node subst) node subst).link subst s = t.link node s := by
    intro s
    rw [hlink, if_neg, if_pos rfl]
    rintro ⟨hr,he,-⟩
    exact hp hr he.symm
  refine ⟨?_,?_,fun z => ?_,fun z s hz => ?_,fun z hz => ?_⟩
  · rw [succeeded, cr, gr, lr, rr]
  · rw [succeeded, cs, gs, ls, rs, as]
  · rw [succeeded, cc, gc, lc, rc, ac]
  · rw [succeeded, (cz z hz).1.1, gl, ll, hlink]
  · rw [succeeded, (cz z hz).1.2.1, gp, ll, lp, hsub, hsub, rp, ap, ls, rs, as]
    by_cases hr : z ≠ t.sentinel ∧ z = t.link node .right
    · rw [if_pos hr, if_pos ⟨hr.1,Or.inr hr.2⟩]
    by_cases hl : z ≠ t.sentinel ∧ z = t.link node .left
    · rw [if_neg hr, if_pos hl, if_pos ⟨hl.1,Or.inl hl.2⟩]
    have hn : ¬ (z ≠ t.sentinel ∧ (z = t.link node .left ∨ z = t.link node .right)) :=
      fun he => he.2.elim (fun h => hl ⟨he.1,h⟩) (fun h => hr ⟨he.1,h⟩)
    rw [if_neg hr, if_neg hl, if_neg hn]

end Reads

def inPlace (node subst z : ℕ) : ℕ := if z = node then subst else z

section Rename
variable (t : Rbtree) (q temp node subst above : ℕ) (W : RedBlackTree.Tree ℕ)

/-- The memory after the end of a deletion holds the tree of the cut, in which
`subst` stands for `node`. -/
theorem succeeded_renames (h : Holds (t.setParent temp q) above [] W) (hx : node ∈ W.ids)
    (hy : subst ∉ W.ids) (hys : subst ≠ t.sentinel) (htx : temp ≠ node) :
    Renames (t.setParent temp q)
      (succeeded (t.setParent temp (inPlace node subst q)) node subst) (inPlace node subst) W.ids ∧
    (temp = t.sentinel → (succeeded (t.setParent temp (inPlace node subst q)) node subst).parent
      temp = inPlace node subst q) := by
  have hne : node ≠ subst := fun he => hy (he ▸ hx)
  have hws : t.sentinel ∉ W.ids := (holds_sentinel _ above [] W h).2
  have hxs : node ≠ t.sentinel := fun he => hws (he ▸ hx)
  have hzy : ∀ z ∈ W.ids, z ≠ subst := fun z hz he => hy (he ▸ hz)
  have hpx : (t.setParent temp (inPlace node subst q)).parent node = t.parent node := by
    simp [htx.symm]
  have hux : (t.setParent temp q).parent node = t.parent node := by
    simp [htx.symm]
  have hup : node ≠ t.root → t.parent node ≠ subst := fun hr he =>
    hzy _ (parent_links _ above W node h hx hr).1 (hux.trans he)
  obtain ⟨hroot,hsen,hred,hlink,hpar⟩ := succeeded_reads
    (t.setParent temp (inPlace node subst q)) node subst hne (by rw [hpx]; exact hup)
  simp only [hpx, root_set_parent, link_set_parent, isRed_set_parent] at hroot hred hlink hpar
  have hother : ∀ z, z ≠ node → inPlace node subst z = z := fun z hz => if_neg hz
  have hself : inPlace node subst node = subst := if_pos rfl
  have hkept : ∀ s, t.link node s ≠ node := by
    intro s he
    obtain ⟨-,hp,hr,-⟩ := child_links _ above W node s h hx
      (by rw [link_set_parent, he]; exact hxs)
    rw [link_set_parent, he] at hp hr
    exact (parent_links _ above W node h hx hr).2.1 hp
  refine ⟨⟨hsen,hother _ (Ne.symm hxs),?_,?_,?_,?_,?_,?_,?_⟩,fun hts => ?_⟩
  · refine hroot.trans ?_
    show (if node = t.root then subst else t.root) = inPlace node subst t.root
    by_cases hr : node = t.root
    · rw [if_pos hr, ← hr, hself]
    · rw [if_neg hr, hother _ (Ne.symm hr)]
  · intro z hz z' hz' he
    by_cases h1 : z = node <;> by_cases h2 : z' = node
    · rw [h1, h2]
    · rw [h1, hself, hother z' h2] at he
      exact absurd he.symm (hzy z' hz')
    · rw [h2, hself, hother z h1] at he
      exact absurd he (hzy z hz)
    · rwa [hother z h1, hother z' h2] at he
  · intro z hz
    by_cases h1 : z = node
    · rw [h1, hself]
      exact hys
    · rw [hother z h1]
      exact fun he => hws (he ▸ hz)
  · intro z hz
    rw [hred, isRed_set_parent]
    by_cases h1 : z = node
    · rw [h1, hself, if_pos rfl]
    · rw [hother z h1, if_neg (hzy z hz)]
  · intro z hz s
    rw [link_set_parent]
    by_cases h1 : z = node
    · rw [h1, hself, hlink _ _ hne.symm, if_neg (fun hc => hup hc.1 hc.2.1.symm), if_pos rfl,
        hother _ (hkept s)]
    rw [hother z h1, hlink z s h1, if_neg (hzy z hz), inPlace]
    refine if_congr ?_ rfl rfl
    constructor
    · rintro ⟨hr,rfl,hs⟩
      obtain ⟨-,-,s0,hs0⟩ := parent_links _ above W node h hx hr
      rw [hux, link_set_parent] at hs0
      by_cases hl : node = t.link (t.parent node) .left
      · rw [if_pos hl] at hs
        rw [hs, ← hl]
      rw [if_neg hl] at hs
      cases s0 with
      | left => exact absurd hs0.symm hl
      | right => rw [hs, hs0]
    · intro hc
      obtain ⟨-,hp,hr,hfar⟩ := child_links _ above W z s h hz
        (by rw [link_set_parent, hc]; exact hxs)
      rw [link_set_parent, hc] at hp hr hfar
      rw [link_set_parent] at hfar
      rw [hux] at hp
      refine ⟨hr,hp.symm,?_⟩
      rw [hp]
      cases s with
      | left => rw [if_pos hc.symm]
      | right =>
        have hleft : node ≠ t.link z .left := hfar
        rw [if_neg hleft]
  · intro z hz hzr
    by_cases h1 : z = node
    · have hnr : node ≠ t.root := h1 ▸ hzr
      have hpn : t.parent node ≠ node := fun he =>
        (parent_links _ above W node h hx hnr).2.1 (hux.trans he)
      have hchild : ∀ s, subst ≠ t.link node s := by
        intro s he
        obtain ⟨hm,-⟩ := child_links _ above W node s h hx
          (by rw [link_set_parent, ← he]; exact hys)
        rw [link_set_parent, ← he] at hm
        exact hy hm
      rw [h1, hself, hux, hother _ hpn, hpar _ hne.symm, if_neg, if_pos rfl]
      rintro ⟨-,he | he⟩
      · exact hchild _ he
      · exact hchild _ he
    rw [hother z h1, hpar z h1, if_neg (hzy z hz)]
    have hzs : z ≠ t.sentinel := fun he => hws (he ▸ hz)
    have hiff : (z = t.link node .left ∨ z = t.link node .right) ↔
        (t.setParent temp q).parent z = node := by
      constructor
      · intro hc
        obtain ⟨s,hs⟩ : ∃ s, z = t.link node s := hc.elim (fun h => ⟨_,h⟩) (fun h => ⟨_,h⟩)
        have := child_links _ above W node s h hx (by rw [link_set_parent, ← hs]; exact hzs)
        rw [link_set_parent, ← hs] at this
        exact this.2.1
      · intro hp
        obtain ⟨-,-,s,hs⟩ := parent_links _ above W z h hz hzr
        rw [hp, link_set_parent] at hs
        cases s with
        | left => exact Or.inl hs.symm
        | right => exact Or.inr hs.symm
    by_cases hp : (t.setParent temp q).parent z = node
    · rw [if_pos ⟨hzs,hiff.mpr hp⟩, hp, hself]
    rw [if_neg (fun hc => hp (hiff.mp hc.2)), hother _ hp]
    by_cases hzt : z = temp
    · subst hzt
      simp only [parent_set_parent] at hp ⊢
      exact hother q hp
    · simp [hzt]
  · show (succeeded _ node subst).isRed t.sentinel = false
    have hb := h.black
    rw [hred, if_neg (Ne.symm hys)]
    rwa [isRed_set_parent] at hb
  · rw [hpar temp htx, if_neg (fun hc => hc.1 hts), if_neg (by rw [hts]; exact Ne.symm hys)]
    simp

end Rename

end Nginx.RbtreeSplice
