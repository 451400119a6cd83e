import Nginx.ResolverNames

/-!
# The queues of the resolver

Every node of the tree is in one of the two queues, except for the node that a call has in
hand. In the queue of the answers nobody waits, and in the other one nothing is valid.
-/

set_option autoImplicit false

namespace Nginx.ResolverQueues
open Nginx.RedBlackTree Nginx.NgxRbtree Nginx.RbtreeShape Nginx.RbtreeKept Nginx.RbtreeSearch
open Nginx.Ledger Nginx.ResolverNames

def queued (r : Resolver) : List ℕ := r.nameResendQueue++r.nameExpireQueue

def nameKey (r : Resolver) (x : ℕ) : ℕ ×ₗ List ℕ := nodeKey (r.rbtree.key x) (nodeName r x)

structure Base (r : Resolver) (T : RedBlackTree.Tree ℕ) (hand : List ℕ) : Prop where
  kept : Kept r.rbtree (nameKey r) T
  queue : (hand++queued r).Perm T.ids
  idle : ∀ x ∈ r.nameExpireQueue, (r.node x).waiting = none
  flight : ∀ x ∈ r.nameResendQueue, (r.node x).valid = 0
  known : ∀ x ∈ T.ids, x ∈ r.ledger.opened

@[simp] theorem set_node_self (r : Resolver) (x : ℕ) (rn : ResolverNode) :
    (r.setNode x rn).node x = rn := Function.update_self ..

theorem set_node_of_ne (r : Resolver) (x y : ℕ) (rn : ResolverNode) (h : y ≠ x) :
    (r.setNode x rn).node y = r.node y := Function.update_of_ne h ..

def removed (r : Resolver) (x : ℕ) : Resolver :=
  { r with nameResendQueue := r.nameResendQueue.erase x, nameExpireQueue := r.nameExpireQueue.erase x }

section Queues
variable (r : Resolver) (T : RedBlackTree.Tree ℕ) (x : ℕ) (rn : ResolverNode)

theorem queued_nodup (hand : List ℕ) (h : Base r T hand) : (queued r).Nodup :=
  ((h.queue.nodup_iff.mpr (kept_nodup _ _ T h.kept))).of_append_right

theorem queued_mem (h : Base r T []) : x ∈ queued r ↔ x ∈ T.ids := h.queue.mem_iff

theorem queue_remove_eq (r' : Resolver) (h : Base r T []) (hrun : ngxQueueRemove r x = some r') :
    x ∈ queued r ∧ r' = removed r x := by
  have hnodup := queued_nodup r T [] h
  rw [queued, List.nodup_append'] at hnodup
  rw [ngxQueueRemove] at hrun
  split_ifs at hrun with h1 h2
  · have hother : x ∉ r.nameExpireQueue := fun hm => hnodup.2.2 h1 hm
    cases hrun
    refine ⟨List.mem_append_left _ h1,?_⟩
    rw [removed, List.erase_of_not_mem hother]
  · cases hrun
    refine ⟨List.mem_append_right _ h2,?_⟩
    rw [removed, List.erase_of_not_mem h1]

theorem queued_removed (h : (queued r).Nodup) (hx : x ∈ queued r) :
    (queued r).Perm (x::queued (removed r x)) := by
  rw [queued, List.nodup_append'] at h
  obtain ⟨-,-,hdisjoint⟩ := h
  rw [queued, List.mem_append] at hx
  rw [queued, queued, removed]
  rcases hx with hx | hx
  · have hother : x ∉ r.nameExpireQueue := fun hm => hdisjoint hx hm
    rw [List.erase_of_not_mem hother]
    exact (List.perm_cons_erase hx).append_right _
  have hother : x ∉ r.nameResendQueue := fun hm => hdisjoint hm hx
  rw [List.erase_of_not_mem hother]
  exact ((List.perm_cons_erase hx).append_left _).trans List.perm_middle

theorem base_remove (h : Base r T []) (hx : x ∈ queued r) : Base (removed r x) T [x] :=
  ⟨h.kept,(queued_removed r x (queued_nodup r T [] h) hx).symm.trans h.queue,
    fun y hy => h.idle y (List.mem_of_mem_erase hy),fun y hy => h.flight y (List.mem_of_mem_erase hy),
    h.known⟩

theorem hand_queued (h : Base r T [x]) : x ∉ queued r :=
  (List.nodup_cons.mp (h.queue.nodup_iff.mpr (kept_nodup _ _ T h.kept))).1

theorem hand_mem (h : Base r T [x]) : x ∈ T.ids := h.queue.mem_iff.mp List.mem_cons_self

structure SameName (rn rn' : ResolverNode) : Prop where
  name : rn'.name = rn.name
  nlen : rn'.nlen = rn.nlen

theorem kept_set (hname : SameName (r.node x) rn) (h : Kept r.rbtree (nameKey r) T) :
    Kept (r.setNode x rn).rbtree (nameKey (r.setNode x rn)) T := by
  refine kept_congr _ (nameKey r) _ T h (fun y _ => ?_)
  by_cases hy : y = x
  · subst hy
    rw [nameKey, nameKey, nodeName, nodeName, set_node_self, hname.name, hname.nlen]
    rfl
  · rw [nameKey, nameKey, nodeName, nodeName, set_node_of_ne _ _ _ _ hy]
    rfl

theorem base_set_hand (h : Base r T [x]) (hname : SameName (r.node x) rn) : Base (r.setNode x rn) T [x] := by
  have hx := hand_queued r T x h
  rw [queued, List.mem_append, not_or] at hx
  refine ⟨kept_set r T x rn hname h.kept,h.queue,fun y hy => ?_,fun y hy => ?_,h.known⟩
  · have hne : y ≠ x := fun he => hx.2 (he ▸ hy)
    rw [set_node_of_ne _ _ _ _ hne]
    exact h.idle y hy
  · have hne : y ≠ x := fun he => hx.1 (he ▸ hy)
    rw [set_node_of_ne _ _ _ _ hne]
    exact h.flight y hy

theorem base_put_expire (h : Base r T [x]) (hwait : (r.node x).waiting = none) :
    Base { r with nameExpireQueue := x::r.nameExpireQueue } T [] := by
  refine ⟨h.kept,?_,fun y hy => ?_,h.flight,h.known⟩
  · exact List.perm_middle.trans h.queue
  · rcases List.mem_cons.mp hy with rfl | hy
    · exact hwait
    · exact h.idle y hy

theorem base_put_resend (h : Base r T [x]) (hvalid : (r.node x).valid = 0) :
    Base { r with nameResendQueue := x::r.nameResendQueue } T [] := by
  refine ⟨h.kept,h.queue,h.idle,fun y hy => ?_,h.known⟩
  rcases List.mem_cons.mp hy with rfl | hy
  · exact hvalid
  · exact h.flight y hy

theorem base_delete (fuel : ℕ) (t : Rbtree) (h : Base r T [x])
    (hrun : ngxRbtreeDelete fuel r.rbtree x = some t) : ∃ T', Base { r with rbtree := t } T' [] := by
  have hmem := hand_mem r T x h
  have hnodup := kept_nodup _ _ T h.kept
  obtain ⟨-,hkeys,T',hkept,hids⟩ := (delete_kept r.rbtree (nameKey r) T x h.kept hmem).2 t ⟨fuel,hrun⟩
  have hqueue : (queued r).Perm T'.ids := by
    rw [hids]
    have herase := h.queue.erase x
    rwa [List.singleton_append, List.erase_cons_head] at herase
  refine ⟨T',kept_congr _ (nameKey r) _ T' hkept (fun y hy => ?_),hqueue,h.idle,h.flight,
    fun y hy => ?_⟩
  · have hne : y ≠ x := by
      rw [hids] at hy
      exact (hnodup.mem_erase_iff.mp hy).1
    rw [nameKey, nameKey, hkeys y hne]
    rfl
  · rw [hids] at hy
    exact h.known y (List.mem_of_mem_erase hy)

theorem base_set_flight (h : Base r T []) (hx : x ∉ r.nameExpireQueue)
    (hname : SameName (r.node x) rn) (hvalid : rn.valid = (r.node x).valid) :
    Base (r.setNode x rn) T [] := by
  refine ⟨kept_set r T x rn hname h.kept,h.queue,fun y hy => ?_,fun y hy => ?_,h.known⟩
  · have hne : y ≠ x := fun he => hx (he ▸ hy)
    rw [set_node_of_ne _ _ _ _ hne]
    exact h.idle y hy
  · by_cases hyx : y = x
    · subst hyx
      rw [set_node_self, hvalid]
      exact h.flight y hy
    · rw [set_node_of_ne _ _ _ _ hyx]
      exact h.flight y hy

theorem valid_idle (now : ℤ) (h : Base r T []) (hx : x ∈ queued r) (hnow : 0 < now)
    (hvalid : now ≤ (r.node x).valid) : (r.node x).waiting = none := by
  rcases List.mem_append.mp hx with hx | hx
  · have hzero := h.flight x hx
    omega
  · exact h.idle x hx

theorem waiting_flight (h : Base r T []) (hwait : (r.node x).waiting ≠ none) :
    x ∉ r.nameExpireQueue := fun hx => hwait (h.idle x hx)

end Queues

theorem base_ledger (r : Resolver) (T : RedBlackTree.Tree ℕ) (hand : List ℕ) (l : Handles) (h : Base r T hand)
    (hl : ∀ x ∈ r.ledger.opened, x ∈ l.opened) : Base { r with ledger := l } T hand :=
  ⟨h.kept,h.queue,h.idle,h.flight,fun x hx => hl x (h.known x hx)⟩

theorem lookup_queued (r : Resolver) (T : RedBlackTree.Tree ℕ) (fuel x : ℕ) (name : List ℕ) (h : Base r T [])
    (hrun : ngxResolverLookupName fuel r name = some (some x)) : x ∈ queued r := by
  obtain ⟨⟨above,hat⟩,-,hsorted⟩ := h.kept
  have hroot : r.rbtree.root = ptr r.rbtree.sentinel T := hat.path_at
  obtain ⟨found,hsearch,hsome,-⟩ := search_tree r.rbtree (nameKey r)
    (nodeKey (ngxCrc32Short name) name)
    (fun y => lookupCmp (ngxCrc32Short name) name (r.rbtree.key y) (nodeName r y)) (T.ids.length+1) _ T
    hat.tree_at hsorted (fun y => lookup_cmp_order _ _ _ _) (Nat.lt_succ_self _)
  rw [← hroot] at hsearch
  have hagree := runs_agree (fun n => search r.rbtree _ n r.rbtree.root)
    (fun n u hu => search_more _ _ n _ u hu) _ _ _ _ hsearch hrun
  exact (queued_mem r T x h).mpr (hsome x hagree).1

theorem base_insert (r : Resolver) (T : RedBlackTree.Tree ℕ) (fuel x key : ℕ) (rn : ResolverNode) (l : Handles)
    (t : Rbtree) (h : Base r T []) (hx : x ∉ r.ledger.opened) (hs : x ≠ r.rbtree.sentinel)
    (hl : ∀ y ∈ r.ledger.opened, y ∈ l.opened) (hxl : x ∈ l.opened)
    (hrun : ngxRbtreeInsert (dataGoesLeft (nodeName (r.setNode x rn))) fuel (r.rbtree.setKey x key) x =
      some t) : ∃ T', Base { r.setNode x rn with rbtree := t, ledger := l } T' [x] := by
  have hxT : x ∉ T.ids := fun hm => hx (h.known x hm)
  have hnode : ∀ y ∈ T.ids, nodeName (r.setNode x rn) y = nodeName r y := by
    intro y hy
    have hne : y ≠ x := fun he => hxT (he ▸ hy)
    rw [nodeName, nodeName, set_node_of_ne _ _ _ _ hne]
  obtain ⟨newKey,hnew⟩ : ∃ newKey : ℕ → ℕ ×ₗ List ℕ, newKey = fun y =>
    nodeKey ((r.rbtree.setKey x key).key y) (nodeName (r.setNode x rn) y) := ⟨_,rfl⟩
  have hkept : Kept (r.rbtree.setKey x key) newKey T := by
    refine kept_congr _ (nameKey r) _ T (kept_write _ _ T x _ h.kept hxT hs) (fun y hy => ?_)
    have hkey : (r.rbtree.setKey x key).key y = r.rbtree.key y := by
      have hne : y ≠ x := fun he => hxT (he ▸ hy)
      simp [Rbtree.setKey, Rbtree.key, Rbtree.set, hne]
    rw [hnew]
    show nodeKey ((r.rbtree.setKey x key).key y) _ = _
    rw [hkey, hnode y hy]
    rfl
  obtain ⟨hkeys,T',before,after,hkept',⟨hids,-,-⟩,hids'⟩ := (insert_kept _ _ newKey T x hkept hxT
    hs (fun y => by rw [hnew]; exact data_goes_left _ _ x y)).2 t ⟨fuel,hrun⟩
  have hperm : T'.ids.Perm (x::T.ids) := by
    rw [hids', hids]
    exact List.perm_middle
  have hqueue : ∀ y ∈ queued r, y ≠ x := fun y hy he => hxT (he ▸ (queued_mem r T y h).mp hy)
  refine ⟨T',kept_congr _ newKey _ T' hkept' (fun y _ => ?_),(h.queue.cons x).trans hperm.symm,
    fun y hy => ?_,fun y hy => ?_,fun y hy => ?_⟩
  · rw [hnew]
    show nodeKey (t.key y) _ = _
    rw [hkeys.2]
    rfl
  · show ((r.setNode x rn).node y).waiting = none
    rw [set_node_of_ne _ _ _ _ (hqueue y (List.mem_append_right _ hy))]
    exact h.idle y hy
  · show ((r.setNode x rn).node y).valid = 0
    rw [set_node_of_ne _ _ _ _ (hqueue y (List.mem_append_left _ hy))]
    exact h.flight y hy
  · rcases List.mem_cons.mp (hperm.mem_iff.mp hy) with rfl | hy
    · exact hxl
    · exact hl y (h.known y hy)

end Nginx.ResolverQueues
