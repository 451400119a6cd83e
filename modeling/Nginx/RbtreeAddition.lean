import Nginx.RbtreeInsert
import Mathlib.Order.Lattice

/-!
# Insertion as a whole

`ngx_rbtree_insert` ends. With an insert function that compares keys it puts the node
behind all nodes with a key that is not greater.
-/

set_option autoImplicit false

namespace Nginx.RbtreeAddition
open Nginx.RedBlackTree Nginx.RedBlackRepair Nginx.NgxRbtree Nginx.RbtreeShape Nginx.RbtreeInsert

variable {κ : Type*} [LinearOrder κ]

theorem path_order (key : ℕ → κ) (k : κ) (path : List (Frame ℕ)) (T : RedBlackTree.Tree ℕ)
    (hsorted : (fill path T).ids.Pairwise (fun x y => key x ≤ key y))
    (hchosen : ∀ f ∈ path, f.side = .left ↔ k < key f.id) :
    (∀ x ∈ before path, key x ≤ k) ∧ ∀ y ∈ behind path, k < key y := by
  induction path generalizing T with
  | nil => exact ⟨nofun,nofun⟩
  | cons f path ih =>
    obtain ⟨hbefore,hbehind⟩ := ih (plug f T) hsorted
      (fun g hg => hchosen g (List.mem_cons_of_mem f hg))
    have hside := hchosen f List.mem_cons_self
    rw [fill, fill_ids, List.append_assoc, List.pairwise_append, List.pairwise_append] at hsorted
    have hplug := hsorted.2.1.1
    rw [before, behind]
    by_cases hs : f.side = .left
    · rw [if_pos hs, if_pos hs, List.append_nil]
      refine ⟨hbefore,fun y hy => ?_⟩
      have hk := hside.mp hs
      rw [plug, hs, join, RedBlackTree.Tree.ids, List.pairwise_append, List.pairwise_cons] at hplug
      rcases List.mem_append.mp hy with hy | hy
      · rcases List.mem_cons.mp hy with rfl | hy
        · exact hk
        · exact lt_of_lt_of_le hk (hplug.2.1.1 y hy)
      · exact hbehind y hy
    rw [if_neg hs, if_neg hs, List.nil_append]
    refine ⟨fun x hx => ?_,hbehind⟩
    have hk : key f.id ≤ k := le_of_not_gt (fun hlt => hs (hside.mpr hlt))
    have hr : f.side = .right := by
      cases hf : f.side with
      | left => exact absurd hf hs
      | right => rfl
    rw [plug, hr, join, RedBlackTree.Tree.ids, List.pairwise_append] at hplug
    rcases List.mem_append.mp hx with hx | hx
    · exact hbefore x hx
    rcases List.mem_append.mp hx with hx | hx
    · exact le_trans (hplug.2.2 x hx f.id List.mem_cons_self) hk
    · rw [List.mem_singleton.mp hx]
      exact hk

/-- Two parts of a sequence between which a new node has its place. -/
def Between (key : ℕ → κ) (node : ℕ) (xs before after : List ℕ) : Prop :=
  xs = before++after ∧ (∀ x ∈ before, key x ≤ key node) ∧ ∀ y ∈ after, key node < key y

theorem rbtree_insert (goesLeft : Rbtree → ℕ → ℕ → Bool) (key : ℕ → κ) (fuel : ℕ) (t : Rbtree)
    (above : ℕ) (T : RedBlackTree.Tree ℕ) (node : ℕ) (hless : ∀ x, goesLeft t node x = true ↔ key node < key x)
    (h : Holds t above [] T) (hsound : Sound T) (hs : node ≠ t.sentinel) (hn : node ∉ T.ids)
    (hsorted : T.ids.Pairwise (fun x y => key x ≤ key y)) (hfuel : T.ids.length < fuel) :
    ∃ t', ngxRbtreeInsert goesLeft fuel t node = some t' ∧ KeysKept t t' ∧
      ∃ above' T' before after, Holds t' above' [] T' ∧ Sound T' ∧
        Between key node T.ids before after ∧ T'.ids = before++node::after := by
  have hroot : t.root = ptr t.sentinel T := h.path_at
  cases T with
  | leaf =>
    have hr : t.root = t.sentinel := hroot
    refine ⟨_,if_pos hr,⟨rfl,fun y => by simp⟩,0,.node false .leaf node .leaf,[],[],
      ⟨rfl,⟨hs,?_,?_,?_,?_,trivial,trivial⟩,?_,?_⟩,⟨⟨1,?_⟩,rfl⟩,⟨rfl,by rintro _ ⟨⟩,by rintro _ ⟨⟩⟩,
      rfl⟩
    · simp
    · simp [top]
    · simp [ptr]
    · simp [ptr]
    · simp [pathIds, RedBlackTree.Tree.ids]
    · have := h.black
      simpa [hs.symm] using this
    · exact ⟨by rintro ⟨⟩,0,rfl,rfl,rfl⟩
  | node red l x r =>
    have hxs : x ≠ t.sentinel := h.tree_at.1
    have hr : t.root ≠ t.sentinel := by
      rw [hroot]
      exact hxs
    obtain ⟨t1,path,hloop,hkeys,h1,hfill,hne,hchosen⟩ := insert_loop goesLeft fuel t above
      node [] _ h (by rintro ⟨⟩) hs hn (by rintro _ ⟨⟩) (by
        show (RedBlackTree.Tree.node red l x r).ids.length ≤ fuel
        omega)
    have hfill' : fill path .leaf = .node red l x r := hfill
    have hlen := length_path path (.leaf : RedBlackTree.Tree ℕ)
    rw [hfill'] at hlen
    obtain ⟨⟨n,hrb⟩,hblack⟩ := hsound
    rw [← hfill'] at hrb hblack hsorted ⊢
    obtain ⟨k,hk,hfits⟩ := fill_fits path _ n hrb
    have hk0 : k = 0 := hk
    subst hk0
    obtain ⟨t',T',hfix,hkeys',h',hsound',hids⟩ := insert_fixup fuel t1 above path _ h1
      ⟨⟨0,⟨fun _ => ⟨rfl,rfl⟩,0,rfl,rfl,rfl⟩,hfits⟩,fun _ => hblack⟩ rfl (by omega)
    refine ⟨t',?_,keys_kept_trans _ _ _ hkeys hkeys',above,T',before path,behind path,h',
      hsound',⟨?_,path_order key (key node) path .leaf hsorted ?_⟩,?_⟩
    · rw [ngxRbtreeInsert, if_neg hr, hroot, hloop]
      exact hfix
    · rw [fill_ids]
      simp [RedBlackTree.Tree.ids]
    · intro f hf
      rw [hchosen f hf, hless]
    · rw [hids, fill_ids]
      simp [RedBlackTree.Tree.ids]

end Nginx.RbtreeAddition
