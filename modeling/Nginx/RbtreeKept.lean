import Nginx.RbtreeAddition
import Nginx.RbtreeRemoval

/-!
# A sorted tree in the memory

Insertions with a comparison of keys and deletions, from one sound and sorted tree
to the next. What the keys are is up to the user of the tree.
-/

set_option autoImplicit false

namespace Nginx.RbtreeKept
open Nginx.RedBlackTree Nginx.RedBlackRepair Nginx.NgxRbtree Nginx.RbtreeShape Nginx.RbtreeLinks
open Nginx.RbtreeInsert Nginx.RbtreeAddition Nginx.RbtreeRemoval

def Inserts (goesLeft : Rbtree → ℕ → ℕ → Bool) (t : Rbtree) (node : ℕ) (t' : Rbtree) : Prop :=
  ∃ fuel, ngxRbtreeInsert goesLeft fuel t node = some t'

def Deletes (t : Rbtree) (node : ℕ) (t' : Rbtree) : Prop :=
  ∃ fuel, ngxRbtreeDelete fuel t node = some t'

/-! More fuel gives the same result. -/

section Fuel
variable (t : Rbtree) (goesLeft : Rbtree → ℕ → ℕ → Bool) (node fuel : ℕ)

theorem insert_loop_more (temp : ℕ) (t' : Rbtree)
    (h : insertLoop goesLeft t node fuel temp = some t') :
    insertLoop goesLeft t node (fuel+1) temp = some t' := by
  induction fuel generalizing temp with
  | zero => cases h
  | succ fuel ih =>
    rw [insertLoop] at h ⊢
    simp only [ite_eq_iff'] at h ⊢
    exact ⟨h.1,fun hne => ih _ (h.2 hne)⟩

variable (t' : Rbtree)

theorem insert_fixup_more (h : insertFixup fuel t node = some t') :
    insertFixup (fuel+1) t node = some t' := by
  induction fuel generalizing t node with
  | zero => cases h
  | succ fuel ih =>
    rw [insertFixup] at h ⊢
    simp only [ite_eq_iff'] at h ⊢
    exact ⟨fun hc => ih _ _ (h.1 hc),h.2⟩

theorem delete_fixup_more (h : deleteFixup fuel t node = some t') :
    deleteFixup (fuel+1) t node = some t' := by
  induction fuel generalizing t node with
  | zero => cases h
  | succ fuel ih =>
    rw [deleteFixup] at h ⊢
    simp only [ite_eq_iff'] at h ⊢
    exact ⟨fun hc => ih _ _ (h.1 hc),h.2⟩

theorem rbtree_min_more (x : ℕ) (h : ngxRbtreeMin t fuel node = some x) :
    ngxRbtreeMin t (fuel+1) node = some x := by
  induction fuel generalizing node with
  | zero => cases h
  | succ fuel ih =>
    rw [ngxRbtreeMin] at h ⊢
    simp only [ite_eq_iff'] at h ⊢
    exact ⟨fun hc => ih _ (h.1 hc),h.2⟩

theorem rbtree_insert_more (h : ngxRbtreeInsert goesLeft fuel t node = some t') :
    ngxRbtreeInsert goesLeft (fuel+1) t node = some t' := by
  rw [ngxRbtreeInsert] at h ⊢
  by_cases hr : t.root = t.sentinel
  · rw [if_pos hr] at h ⊢
    exact h
  rw [if_neg hr] at h ⊢
  obtain ⟨t1,hloop,hfix⟩ := Option.bind_eq_some_iff.mp h
  rw [insert_loop_more t goesLeft node fuel _ t1 hloop]
  exact insert_fixup_more t1 node fuel t' hfix

theorem finish_more (temp subst : ℕ) (t' : Rbtree)
    (h : finish fuel t node temp subst = some t') :
    finish (fuel+1) t node temp subst = some t' := by
  simp only [finish, ite_eq_iff'] at h ⊢
  exact ⟨h.1,fun hr => ⟨(h.2 hr).1,fun hb => delete_fixup_more _ _ _ t' ((h.2 hr).2 hb)⟩⟩

theorem rbtree_delete_more (h : ngxRbtreeDelete fuel t node = some t') :
    ngxRbtreeDelete (fuel+1) t node = some t' := by
  obtain ⟨⟨temp,subst⟩,hchosen,-⟩ := Option.bind_eq_some_iff.mp h
  rw [delete_chosen fuel t node temp subst hchosen] at h
  rw [delete_chosen (fuel+1) t node temp subst]
  · exact finish_more t node fuel temp subst t' h
  · simp only [ite_eq_iff', Option.map_eq_some_iff] at hchosen ⊢
    refine ⟨hchosen.1,fun hl => ⟨(hchosen.2 hl).1,fun hr => ?_⟩⟩
    obtain ⟨x,hx,hp⟩ := (hchosen.2 hl).2 hr
    exact ⟨x,rbtree_min_more t _ fuel x hx,hp⟩

theorem runs_more {β : Type*} (f : ℕ → Option β) (hf : ∀ n b, f n = some b → f (n+1) = some b)
    (n k : ℕ) (b : β) (h : f n = some b) : f (n+k) = some b := by
  induction k with
  | zero => exact h
  | succ k ih => exact hf _ b ih

theorem runs_agree {β : Type*} (f : ℕ → Option β) (hf : ∀ n b, f n = some b → f (n+1) = some b)
    (m n : ℕ) (b b' : β) (hm : f m = some b) (hn : f n = some b') : b = b' := by
  have h1 := runs_more f hf m n b hm
  have h2 := runs_more f hf n m b' hn
  rw [Nat.add_comm, h2] at h1
  exact (Option.some.inj h1).symm

end Fuel

variable {κ : Type*} [LinearOrder κ]

structure Kept (t : Rbtree) (key : ℕ → κ) (T : RedBlackTree.Tree ℕ) : Prop where
  holds : ∃ above, Holds t above [] T
  sound : Sound T
  sorted : T.ids.Pairwise (fun x y => key x ≤ key y)

variable (t : Rbtree) (key : ℕ → κ)

theorem kept_congr (key' : ℕ → κ) (T : RedBlackTree.Tree ℕ) (h : Kept t key T)
    (hkey : ∀ x ∈ T.ids, key' x = key x) : Kept t key' T := by
  refine ⟨h.holds,h.sound,h.sorted.imp_of_mem (fun {x y} hx hy hle => ?_)⟩
  rwa [hkey x hx, hkey y hy]

theorem kept_init (nodes : ℕ → Node) (s : ℕ) (key : ℕ → κ) :
    Kept (ngxRbtreeInit nodes s) key .leaf := by
  refine ⟨⟨0,rfl,trivial,List.nodup_nil,?_⟩,⟨⟨0,rfl⟩,rfl⟩,List.Pairwise.nil⟩
  simp [ngxRbtreeInit]

variable (T : RedBlackTree.Tree ℕ)

theorem kept_write (x : ℕ) (node : Node) (h : Kept t key T) (hx : x ∉ T.ids) (hs : x ≠ t.sentinel) :
    Kept (t.set x node) key T := by
  obtain ⟨⟨above,hat⟩,hsound,hsorted⟩ := h
  have hother : ∀ z, z ≠ x → (t.set x node).nodes z = t.nodes z := fun z hz => by
    simp [Rbtree.set, hz]
  refine ⟨⟨above,holds_same t _ above [] T hat rfl rfl ?_ (fun z hz => ?_)⟩,hsound,hsorted⟩
  · rw [Rbtree.isRed, hother _ hs.symm]
    exact hat.black
  · have hzx : z ≠ x := fun he => hx (he ▸ hz)
    refine ⟨fun s => ?_,?_,?_⟩
    · rw [Rbtree.link, hother z hzx, Rbtree.link]
    · rw [Rbtree.parent, hother z hzx, Rbtree.parent]
    · rw [Rbtree.isRed, hother z hzx, Rbtree.isRed]

theorem kept_nodup (h : Kept t key T) : T.ids.Nodup := by
  obtain ⟨⟨above,hat⟩,-,-⟩ := h
  exact hat.nodup

theorem insert_kept (goesLeft : Rbtree → ℕ → ℕ → Bool) (t : Rbtree) (key : ℕ → κ) (T : RedBlackTree.Tree ℕ)
    (node : ℕ) (h : Kept t key T) (hn : node ∉ T.ids) (hs : node ≠ t.sentinel)
    (hless : ∀ x, goesLeft t node x = true ↔ key node < key x) :
    (∃ t', Inserts goesLeft t node t') ∧ ∀ t', Inserts goesLeft t node t' → KeysKept t t' ∧
      ∃ T' before after, Kept t' key T' ∧ Between key node T.ids before after ∧
        T'.ids = before++node::after := by
  obtain ⟨above,hat⟩ := h.holds
  obtain ⟨t1,hrun,hkeys,above',T',xs,ys,hat',hsound,hbetween,hids⟩ :=
    rbtree_insert goesLeft key (T.ids.length+1) t above T node hless hat h.sound hs hn h.sorted
      (Nat.lt_succ_self _)
  refine ⟨⟨t1,_,hrun⟩,?_⟩
  rintro t' ⟨fuel,hfuel⟩
  have heq : t1 = t' := runs_agree (fun n => ngxRbtreeInsert goesLeft n t node)
    (fun n u hu => rbtree_insert_more t goesLeft node n u hu) _ _ _ _ hrun hfuel
  subst heq
  refine ⟨hkeys,T',xs,ys,⟨⟨above',hat'⟩,hsound,?_⟩,hbetween,hids⟩
  obtain ⟨hsplit,hle,hlt⟩ := hbetween
  have hsorted := h.sorted
  rw [hsplit, List.pairwise_append] at hsorted
  rw [hids]
  refine List.pairwise_append.mpr ⟨hsorted.1,List.pairwise_cons.mpr ⟨?_,hsorted.2.1⟩,?_⟩
  · exact fun y hy => le_of_lt (hlt y hy)
  · intro x hx y hy
    rcases List.mem_cons.mp hy with rfl | hy
    · exact hle x hx
    · exact hsorted.2.2 x hx y hy

theorem delete_kept (node : ℕ) (h : Kept t key T) (hn : node ∈ T.ids) :
    (∃ t', Deletes t node t') ∧ ∀ t', Deletes t node t' →
      t'.sentinel = t.sentinel ∧ (∀ z, z ≠ node → t'.key z = t.key z) ∧
        ∃ T', Kept t' key T' ∧ T'.ids = T.ids.erase node := by
  obtain ⟨above,hat⟩ := h.holds
  obtain ⟨t1,hrun,hs,hkeys,above',T',hat',hsound,hids⟩ :=
    rbtree_delete (T.ids.length+1) t above T node hat h.sound hn (Nat.lt_succ_self _)
  refine ⟨⟨t1,_,hrun⟩,?_⟩
  rintro t' ⟨fuel,hfuel⟩
  have heq : t1 = t' := runs_agree (fun n => ngxRbtreeDelete n t node)
    (fun n u hu => rbtree_delete_more t node n u hu) _ _ _ _ hrun hfuel
  subst heq
  refine ⟨hs,hkeys,T',⟨⟨above',hat'⟩,hsound,?_⟩,hids⟩
  rw [hids]
  exact h.sorted.sublist List.erase_sublist

/-! Runs that can be evaluated -/

inductive Step where
  | insert (x : ℕ)
  | delete (x : ℕ)

/-- A step, with the nodes of the tree. -/
def runStep (goesLeft : Rbtree → ℕ → ℕ → Bool) (s : Rbtree × List ℕ) :
    Step → Option (Rbtree × List ℕ)
  | .insert x => (ngxRbtreeInsert goesLeft 9 s.1 x).map fun t => (t, x::s.2)
  | .delete x => (ngxRbtreeDelete 9 s.1 x).map fun t => (t, s.2.erase x)

/-- The node at an address has it as its key. -/
def numbered : Rbtree := ngxRbtreeInit (fun x => ⟨x,fun _ => 0,0,true⟩) 1

def growing : List Step := [.insert 2, .insert 3, .insert 4, .insert 5, .insert 6, .delete 3]

end Nginx.RbtreeKept
