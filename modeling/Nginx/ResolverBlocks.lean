import Nginx.ResolverQueues

/-!
# The blocks of the nodes

The lengths of a node say what its union holds. The blocks of the nodes in the queues, with
those a call has in hand, are the ones that have been allocated and not freed.
-/

set_option autoImplicit false

namespace Nginx.ResolverBlocks
open Nginx.Ledger Nginx.ResolverNames Nginx.ResolverQueues

structure Tagged (l : Handles) (rn : ResolverNode) : Prop where
  cname : 0 < rn.cnlen → rn.naddrs = 0 ∧ ∃ p name, rn.u = .cname p name
  addrs : 1 < rn.naddrs → ∃ p xs, rn.u = .addrs p xs
  other : rn.cnlen = 0 → rn.naddrs ≤ 1 → ∀ p, rn.u.ptr = some p → l.closes p ≠ 0

def answerBlocks (rn : ResolverNode) : List ℕ :=
  if 0 < rn.cnlen ∨ 1 < rn.naddrs then rn.u.ptr.toList else []

def nodeBlocks (x : ℕ) (rn : ResolverNode) : List ℕ :=
  (rn.query.toList.map Prod.fst)++(rn.nameBlock::(answerBlocks rn++[x]))

def blocks (r : Resolver) (xs : List ℕ) : List ℕ := xs.flatMap (fun x => nodeBlocks x (r.node x))

structure Blocks (r : Resolver) (loose : List ℕ) : Prop where
  tagged : ∀ x ∈ queued r, Tagged r.ledger (r.node x)
  balanced : Balanced r.ledger (blocks r (queued r)++loose)
  wild : r.wild = 0

theorem tagged_close (l : Handles) (p : ℕ) (rn : ResolverNode) (h : Tagged l rn) :
    Tagged (l.close p) rn := by
  refine ⟨h.cname,h.addrs,fun hc hn q hq => ?_⟩
  have hold := h.other hc hn q hq
  show Function.update l.closes p _ q ≠ 0
  by_cases hqp : q = p
  · rw [hqp, Function.update_self]
    exact Nat.succ_ne_zero _
  · rwa [Function.update_of_ne hqp]

theorem tagged_open (l : Handles) (p : ℕ) (rn : ResolverNode) (h : Tagged l rn) :
    Tagged (l.open p) rn := ⟨h.cname,h.addrs,h.other⟩

section Blocks
variable (r : Resolver) (x : ℕ) (rn : ResolverNode) (loose : List ℕ)

theorem blocks_congr (r' : Resolver) (xs : List ℕ) (h : ∀ y ∈ xs, r'.node y = r.node y) :
    blocks r' xs = blocks r xs :=
  List.flatMap_congr (fun y hy => by rw [h y hy])

theorem blocks_loose (loose' : List ℕ) (h : Blocks r loose) (hp : loose.Perm loose') : Blocks r loose' :=
  ⟨h.tagged,balanced_perm _ _ _ h.balanced (hp.append_left _),h.wild⟩

theorem blocks_remove (h : Blocks r loose) (hnodup : (queued r).Nodup) (hx : x ∈ queued r) :
    Blocks (removed r x) (nodeBlocks x (r.node x)++loose) ∧ Tagged r.ledger (r.node x) := by
  have hperm := queued_removed r x hnodup hx
  refine ⟨⟨fun y hy => h.tagged y (hperm.mem_iff.mpr (List.mem_cons_of_mem _ hy)),?_,h.wild⟩,
    h.tagged x hx⟩
  refine balanced_perm _ _ _ h.balanced ?_
  have hsplit : (blocks r (queued r)).Perm (nodeBlocks x (r.node x)++blocks r (queued (removed r x))) :=
    hperm.flatMap_right _
  refine (hsplit.append_right loose).trans ?_
  rw [← List.append_assoc]
  exact List.perm_append_comm.append_right loose

theorem blocks_set_hand (h : Blocks r loose) (hx : x ∉ queued r) : Blocks (r.setNode x rn) loose := by
  have hsame : ∀ y ∈ queued r, (r.setNode x rn).node y = r.node y :=
    fun y hy => set_node_of_ne _ _ _ _ (fun he => hx (he ▸ hy))
  refine ⟨fun y hy => ?_,?_,h.wild⟩
  · rw [hsame y hy]
    exact h.tagged y hy
  · show Balanced r.ledger (blocks (r.setNode x rn) (queued r)++loose)
    rw [blocks_congr r _ _ hsame]
    exact h.balanced

theorem blocks_put (r' : Resolver) (h : Blocks r (nodeBlocks x (r.node x)++loose))
    (htag : Tagged r.ledger (r.node x)) (hq : (queued r').Perm (x::queued r)) (hnode : r'.node = r.node)
    (hledger : r'.ledger = r.ledger) (hwild : r'.wild = r.wild) : Blocks r' loose := by
  refine ⟨fun y hy => ?_,?_,hwild.trans h.wild⟩
  · rw [hnode, hledger]
    rcases List.mem_cons.mp (hq.mem_iff.mp hy) with rfl | hy
    · exact htag
    · exact h.tagged y hy
  · rw [hledger]
    refine balanced_perm _ _ _ h.balanced ?_
    have hsplit : (blocks r' (queued r')).Perm (nodeBlocks x (r.node x)++blocks r (queued r)) := by
      have hp : (blocks r' (queued r')).Perm (blocks r' (x::queued r)) := hq.flatMap_right _
      have hsame : blocks r' (x::queued r) = blocks r (x::queued r) :=
        blocks_congr r r' _ (fun y _ => by rw [hnode])
      rw [hsame] at hp
      exact hp
    refine List.Perm.trans ?_ (hsplit.append_right loose).symm
    rw [← List.append_assoc]
    exact List.perm_append_comm.append_right loose

theorem blocks_free (p : ℕ) (h : Blocks r (p::loose)) : Blocks (r.free p) loose :=
  ⟨fun y hy => tagged_close _ _ _ (h.tagged y hy),
    balanced_close _ _ p (balanced_perm _ _ _ h.balanced List.perm_middle),h.wild⟩

theorem blocks_open (p : ℕ) (h : Blocks r loose) (hp : p ∉ r.ledger.opened) :
    Blocks { r with ledger := r.ledger.open p } (p::loose) :=
  ⟨fun y hy => tagged_open _ _ _ (h.tagged y hy),
    balanced_perm _ _ _ (balanced_open _ _ p h.balanced hp) List.perm_middle.symm,h.wild⟩

theorem blocks_free_query (h : Blocks r (rn.query.toList.map Prod.fst++loose)) :
    Blocks (freeQuery r rn) loose := by
  rw [freeQuery]
  cases hq : rn.query with
  | none =>
    rw [hq] at h
    exact h
  | some q =>
    rw [hq] at h
    exact blocks_free r loose q.1 h

theorem free_query_tagged (rn' : ResolverNode) (h : Tagged r.ledger rn') :
    Tagged (freeQuery r rn).ledger rn' := by
  rw [freeQuery]
  cases rn.query with
  | none => exact h
  | some q => exact tagged_close _ _ _ h

theorem blocks_free_answer (h : Blocks r (answerBlocks rn++loose)) (htag : Tagged r.ledger rn) :
    Blocks (freeAnswer r rn) loose := by
  rw [freeAnswer]
  by_cases hc : 0 < rn.cnlen
  · obtain ⟨hn,p,name,hu⟩ := htag.cname hc
    rw [answerBlocks, if_pos (Or.inl hc), hu] at h
    simp only [if_pos (Nat.ne_of_gt hc), hn, hu, freeUnion]
    exact blocks_free r loose p h
  simp only [if_neg (not_not.mpr (Nat.eq_zero_of_not_pos hc))]
  by_cases hn : 1 < rn.naddrs
  · obtain ⟨p,xs,hu⟩ := htag.addrs hn
    rw [answerBlocks, if_pos (Or.inr hn), hu] at h
    simp only [if_pos hn, hu, freeUnion]
    exact blocks_free r loose p h
  rw [answerBlocks, if_neg (not_or.mpr ⟨hc,hn⟩)] at h
  rw [if_neg hn]
  exact h

theorem free_answer_stale (htag : Tagged r.ledger rn) :
    ∀ p, rn.u.ptr = some p → (freeAnswer r rn).ledger.closes p ≠ 0 := by
  intro p hp
  rw [freeAnswer]
  by_cases hc : 0 < rn.cnlen
  · obtain ⟨hn,q,name,hu⟩ := htag.cname hc
    rw [hu] at hp
    cases hp
    simp [Nat.ne_of_gt hc, hn, hu, freeUnion, Resolver.free, Handles.close]
  by_cases hn : 1 < rn.naddrs
  · obtain ⟨q,xs,hu⟩ := htag.addrs hn
    rw [hu] at hp
    cases hp
    simp [Nat.eq_zero_of_not_pos hc, hn, hu, freeUnion, Resolver.free, Handles.close]
  have hzero := Nat.eq_zero_of_not_pos hc
  simp only [hzero, hn, ne_eq, not_true_eq_false, if_false]
  exact htag.other hzero (Nat.le_of_not_lt hn) p hp

theorem blocks_free_node (h : Blocks r (nodeBlocks x (r.node x)++loose))
    (htag : Tagged r.ledger (r.node x)) : Blocks (ngxResolverFreeNode r x) loose := by
  rw [nodeBlocks, List.append_assoc] at h
  have h1 := blocks_free_query r (r.node x) _ h
  have ht1 := free_query_tagged r (r.node x) (r.node x) htag
  have h2 := blocks_free (freeQuery r (r.node x)) _ (r.node x).nameBlock h1
  have hassoc : (answerBlocks (r.node x)++[x]).append loose = answerBlocks (r.node x)++(x::loose) :=
    List.append_assoc ..
  rw [hassoc] at h2
  have h3 := blocks_free_answer _ (r.node x) _ h2 (tagged_close _ _ _ ht1)
  exact blocks_free _ loose x h3

end Blocks

end Nginx.ResolverBlocks
