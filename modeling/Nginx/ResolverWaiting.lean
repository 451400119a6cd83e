import Nginx.ResolverQueues
import Nginx.LinkedChain

/-!
# The contexts that wait

Every context is in the chain of one node, in the chain of one loop that calls handlers, in
the hand of a call, or its handler has been called or it has been cancelled.
-/

set_option autoImplicit false

namespace Nginx.ResolverWaiting
open Nginx.LinkedChain Nginx.Ledger Nginx.ResolverNames Nginx.ResolverQueues

def links (r : Resolver) (c : ℕ) : Option ℕ := (r.ctx c).next

/-- The chains `W` of the nodes and `R` of the loops. -/
structure Chains (r : Resolver) (W : ℕ → List ℕ) (R : List (List ℕ)) (held pool : List ℕ) : Prop where
  chain : ∀ x ∈ queued r, Chain (links r) (r.node x).waiting (W x)
  run : List.Forall₂ (fun p xs => Chain (links r) (some p.1) xs) r.running R
  all : ((queued r).flatMap W++(R.flatten++(held++(r.called++r.cancelled)))).Perm pool
  nodup : pool.Nodup

@[simp] theorem set_ctx_self (r : Resolver) (c : ℕ) (ctx : Ctx) : (r.setCtx c ctx).ctx c = ctx :=
  Function.update_self ..

theorem set_ctx_of_ne (r : Resolver) (c d : ℕ) (ctx : Ctx) (h : d ≠ c) :
    (r.setCtx c ctx).ctx d = r.ctx d := Function.update_of_ne h ..

theorem links_set_of_ne (r : Resolver) (c d : ℕ) (ctx : Ctx) (h : d ≠ c) :
    links (r.setCtx c ctx) d = links r d := by
  rw [links, links, set_ctx_of_ne r c d ctx h]

theorem links_set (r : Resolver) (c : ℕ) (ctx : Ctx) :
    links (r.setCtx c ctx) = Function.update (links r) c ctx.next := by
  funext d
  by_cases hd : d = c
  · subst hd
    rw [links, set_ctx_self, Function.update_self]
  · rw [links_set_of_ne r c d ctx hd, Function.update_of_ne hd]

theorem links_same (r : Resolver) (c : ℕ) (ctx : Ctx) (h : ctx.next = (r.ctx c).next) :
    links (r.setCtx c ctx) = links r := by
  rw [links_set, h]
  exact Function.update_eq_self c (links r)

theorem flat_map_update (W : ℕ → List ℕ) (x : ℕ) (ws xs : List ℕ) (h : x ∉ xs) :
    xs.flatMap (Function.update W x ws) = xs.flatMap W := by
  refine List.flatMap_congr (fun y hy => ?_)
  have hne : y ≠ x := fun he => h (he ▸ hy)
  exact Function.update_of_ne hne ..

section Chains
variable (r : Resolver) (W : ℕ → List ℕ) (R : List (List ℕ)) (held pool : List ℕ)

theorem held_apart (h : Chains r W R held pool) (c : ℕ) (hc : c ∈ held) :
    (∀ x ∈ queued r, c ∉ W x) ∧ ∀ xs ∈ R, c ∉ xs := by
  have hnodup := h.all.nodup_iff.mpr h.nodup
  rw [List.nodup_append', List.nodup_append'] at hnodup
  obtain ⟨-,⟨-,-,hR⟩,hW⟩ := hnodup
  have hmem : c ∈ held++(r.called++r.cancelled) := List.mem_append_left _ hc
  refine ⟨fun x hx hcx => ?_,fun xs hxs hcx => hR (List.mem_flatten.mpr ⟨xs,hxs,hcx⟩) hmem⟩
  exact hW (List.mem_flatMap.mpr ⟨x,hx,hcx⟩) (List.mem_append_right _ hmem)

theorem chains_ctx (c : ℕ) (ctx : Ctx) (h : Chains r W R held pool) (hc : c ∈ held) :
    Chains (r.setCtx c ctx) W R held pool := by
  obtain ⟨hW,hR⟩ := held_apart r W R held pool h c hc
  refine ⟨fun x hx => ?_,?_,h.all,h.nodup⟩
  · rw [links_set]
    exact chain_update _ _ _ c _ (h.chain x hx) (hW x hx)
  · rw [links_set]
    have hrun : List.Forall₂ (fun p xs => Chain (links r) (some p.1) xs) r.running R := h.run
    refine List.forall₂_iff_get.mpr ⟨hrun.length_eq,fun i hi hj => ?_⟩
    exact chain_update _ _ _ c _ (hrun.get hi hj) (hR _ (List.get_mem ..))

theorem chains_remove (x : ℕ) (h : Chains r W R held pool) (hnodup : (queued r).Nodup)
    (hx : x ∈ queued r) : Chains (removed r x) W R (W x++held) pool := by
  have hperm := queued_removed r x hnodup hx
  refine ⟨fun y hy => h.chain y (hperm.mem_iff.mpr (List.mem_cons_of_mem _ hy)),h.run,?_,h.nodup⟩
  have hsplit : ((queued r).flatMap W).Perm (W x++(queued (removed r x)).flatMap W) :=
    hperm.flatMap_right _
  refine List.Perm.trans (List.perm_iff_count.mpr (fun a => ?_)) h.all
  have hcount := hsplit.count_eq a
  show List.count a ((queued (removed r x)).flatMap W++
    (R.flatten++((W x++held)++(r.called++r.cancelled)))) = _
  simp only [List.count_append] at hcount ⊢
  omega

theorem chains_set_hand (x : ℕ) (rn : ResolverNode) (h : Chains r W R held pool) (hx : x ∉ queued r) :
    Chains (r.setNode x rn) W R held pool := by
  refine ⟨fun y hy => ?_,h.run,h.all,h.nodup⟩
  have hne : y ≠ x := fun he => hx (he ▸ hy)
  rw [set_node_of_ne _ _ _ _ hne]
  exact h.chain y hy

theorem chains_put (x : ℕ) (ws : List ℕ) (r' : Resolver) (h : Chains r W R (ws++held) pool)
    (hx : x ∉ queued r) (hws : Chain (links r) (r.node x).waiting ws)
    (hq : (queued r').Perm (x::queued r)) (hnode : r'.node = r.node) (hctx : r'.ctx = r.ctx)
    (hrun : r'.running = r.running) (hcalled : r'.called = r.called)
    (hcancelled : r'.cancelled = r.cancelled) :
    Chains r' (Function.update W x ws) R held pool := by
  have hlinks : links r' = links r := by
    funext c
    rw [links, links, hctx]
  refine ⟨fun y hy => ?_,?_,?_,h.nodup⟩
  · rw [hlinks, hnode]
    rcases List.mem_cons.mp (hq.mem_iff.mp hy) with rfl | hy
    · rw [Function.update_self]
      exact hws
    have hne : y ≠ x := fun he => hx (he ▸ hy)
    rw [Function.update_of_ne hne]
    exact h.chain y hy
  · rw [hlinks, hrun]
    exact h.run
  · have hsame := flat_map_update W x ws (queued r) hx
    have hsplit : ((queued r').flatMap (Function.update W x ws)).Perm (ws++(queued r).flatMap W) := by
      have hp := hq.flatMap_right (Function.update W x ws)
      rw [List.flatMap_cons, Function.update_self, hsame] at hp
      exact hp
    refine List.Perm.trans (List.perm_iff_count.mpr (fun a => ?_)) h.all
    have hcount := hsplit.count_eq a
    simp only [List.count_append, hcalled, hcancelled] at hcount ⊢
    omega

theorem chains_call (next : Option ℕ) (reply : Reply) (ws : List ℕ) (h : Chains r W R (ws++held) pool)
    (hws : Chain (links r) next ws) : ∃ R', Chains (callHandlers r next reply) W R' held pool := by
  cases next with
  | none =>
    have hnil := chain_none _ _ hws
    subst hnil
    exact ⟨R,h⟩
  | some c =>
    refine ⟨ws::R,h.chain,List.Forall₂.cons hws h.run,?_,h.nodup⟩
    refine List.Perm.trans (List.perm_iff_count.mpr (fun a => ?_)) h.all
    show List.count a ((queued r).flatMap W++((ws::R).flatten++(held++(r.called++r.cancelled)))) = _
    simp only [List.flatten_cons, List.count_append]
    omega

theorem chains_called (c : ℕ) (h : Chains r W R (c::held) pool) :
    Chains { r with called := c::r.called } W R held pool := by
  refine ⟨h.chain,h.run,?_,h.nodup⟩
  refine List.Perm.trans (List.perm_iff_count.mpr (fun a => ?_)) h.all
  show List.count a ((queued r).flatMap W++(R.flatten++(held++(c::r.called++r.cancelled)))) = _
  simp only [List.count_append, List.count_cons]
  omega

theorem chains_call_next (r' : Resolver) (h : Chains r W R held pool) (hrun : callNext r = some r') :
    ∃ R', Chains r' W R' held pool := by
  obtain ⟨hchain,hloops,hall,hnodup⟩ := h
  rw [callNext] at hrun
  cases hr : r.running with
  | nil =>
    rw [hr] at hrun
    cases hrun
  | cons p rest =>
    obtain ⟨c,reply⟩ := p
    rw [hr] at hrun hloops
    simp only at hrun
    cases hloops with
    | cons hp hrest =>
      rename_i xs R'
      obtain ⟨ys,rfl,hys⟩ := chain_some _ _ _ hp
      rw [← Option.some.inj hrun]
      have hlinks := links_same r c
        { r.ctx c with state := reply.state, addrs := reply.addrs.getD (r.ctx c).addrs } rfl
      refine chains_call _ W R' held pool _ reply ys ⟨fun x hx => ?_,?_,?_,hnodup⟩ ?_
      · show Chain (links (r.setCtx c _)) _ _
        rw [hlinks]
        exact hchain x hx
      · show List.Forall₂ (fun p xs => Chain (links (r.setCtx c _)) (some p.1) xs) rest R'
        rw [hlinks]
        exact hrest
      · refine List.Perm.trans (List.perm_iff_count.mpr (fun a => ?_)) hall
        show List.count a ((queued r).flatMap W++(R'.flatten++(ys++held++(c::r.called++r.cancelled)))) = _
        simp only [List.flatten_cons, List.count_append, List.count_cons]
        omega
      · show Chain (links (r.setCtx c _)) _ _
        rw [hlinks]
        exact hys

theorem chains_join (x c : ℕ) (h : Chains r W R (c::held) pool) (hnodup : (queued r).Nodup)
    (hx : x ∈ queued r) : Chains (joinWaiting r x c) (Function.update W x (c::W x)) R held pool := by
  obtain ⟨hW,-⟩ := held_apart r W R _ pool h c List.mem_cons_self
  have hset := chains_ctx r W R _ pool c { r.ctx c with next := (r.node x).waiting, state := .again } h
    List.mem_cons_self
  refine ⟨fun y hy => ?_,hset.run,?_,hset.nodup⟩
  · show Chain _ (((r.setCtx c _).setNode x _).node y).waiting _
    by_cases hyx : y = x
    · subst hyx
      rw [set_node_self, Function.update_self]
      refine ⟨rfl,?_⟩
      show Chain (links (r.setCtx c _)) (links (r.setCtx c _) c) (W y)
      rw [links_set, Function.update_self]
      exact chain_update _ _ _ c _ (h.chain y hx) (hW y hx)
    · rw [set_node_of_ne _ _ _ _ hyx, Function.update_of_ne hyx]
      exact hset.chain y hy
  · have hperm := queued_removed r x hnodup hx
    have hrest : x ∉ queued (removed r x) :=
      (List.nodup_cons.mp (hperm.nodup_iff.mp hnodup)).1
    have hsame := flat_map_update W x (c::W x) _ hrest
    have hnew := hperm.flatMap_right (Function.update W x (c::W x))
    have hold := hperm.flatMap_right W
    rw [List.flatMap_cons, Function.update_self, hsame] at hnew
    rw [List.flatMap_cons] at hold
    refine List.Perm.trans (List.perm_iff_count.mpr (fun a => ?_)) h.all
    have h1 := hnew.count_eq a
    have h2 := hold.count_eq a
    show List.count a ((queued r).flatMap _++(R.flatten++(held++(r.called++r.cancelled)))) = _
    simp only [List.count_append, List.count_cons] at h1 h2 ⊢
    omega

end Chains

section Cancel
variable (x c : ℕ)

theorem cancel_loop_effect (k : ℕ) (r r' : Resolver) (prev cur : Option ℕ)
    (hrun : cancelLoop x c k r prev cur = some r') : r' = r ∨
      (cur ≠ none ∧ ∃ q, r' = r.setNode x { r.node x with waiting := q }) ∨
      ∃ e q, r' = r.setCtx e { r.ctx e with next := q } := by
  induction k generalizing prev cur with
  | zero =>
    cases cur with
    | none =>
      cases hrun
      exact Or.inl rfl
    | some d => cases hrun
  | succ k ih =>
    cases cur with
    | none =>
      cases hrun
      exact Or.inl rfl
    | some d =>
      unfold cancelLoop at hrun
      simp only at hrun
      by_cases hd : d = c
      · rw [if_pos hd] at hrun
        rw [← Option.some.inj hrun]
        cases prev with
        | none => exact Or.inr (Or.inl ⟨Option.some_ne_none d,_,rfl⟩)
        | some e => exact Or.inr (Or.inr ⟨e,_,rfl⟩)
      rw [if_neg hd] at hrun
      rcases ih (some d) _ hrun with h | ⟨-,h⟩ | h
      · exact Or.inl h
      · exact Or.inr (Or.inl ⟨Option.some_ne_none d,h⟩)
      · exact Or.inr (Or.inr h)

theorem cancel_loop_chain (k : ℕ) (r r' : Resolver) (cur : Option ℕ) (pre suf : List ℕ)
    (hchain : Chain (links r) (r.node x).waiting (pre++suf)) (hcur : Chain (links r) cur suf)
    (hnodup : (pre++suf).Nodup) (hc : c ∈ suf)
    (hrun : cancelLoop x c k r pre.getLast? cur = some r') :
    Chain (links r') (r'.node x).waiting ((pre++suf).erase c) ∧
      ((∃ q, r' = r.setNode x { r.node x with waiting := q }) ∨
        ∃ e q, e ∈ pre++suf ∧ r' = r.setCtx e { r.ctx e with next := q }) := by
  induction suf generalizing pre k cur with
  | nil => cases hc
  | cons d ds ih =>
    obtain ⟨rfl,hds⟩ := hcur
    cases k with
    | zero => cases hrun
    | succ k =>
      unfold cancelLoop at hrun
      simp only at hrun
      by_cases hd : d = c
      · subst hd
        rw [if_pos rfl] at hrun
        have hpre : d ∉ pre := fun hm =>
          (List.nodup_append'.mp hnodup).2.2 hm List.mem_cons_self
        have herase : (pre++d::ds).erase d = pre++ds := by
          rw [List.erase_append_right _ hpre, List.erase_cons_head]
        rw [herase, ← Option.some.inj hrun]
        rcases List.eq_nil_or_concat pre with rfl | ⟨pre,e,rfl⟩
        · refine ⟨?_,Or.inl ⟨_,rfl⟩⟩
          show Chain (links r) ((r.setNode x _).node x).waiting ds
          rw [set_node_self]
          exact hds
        rw [List.concat_eq_append] at hchain hnodup ⊢
        rw [List.append_assoc] at hchain hnodup
        simp only [List.getLast?_concat]
        refine ⟨?_,Or.inr ⟨e,_,by simp,rfl⟩⟩
        show Chain (links (r.setCtx e _)) (r.node x).waiting _
        rw [links_set, List.append_assoc]
        exact chain_unlink (links r) _ pre ds e d hchain hnodup
      rw [if_neg hd] at hrun
      have hassoc : pre++d::ds = (pre++[d])++ds := by simp
      rw [hassoc] at hchain hnodup ⊢
      refine ih k _ (pre++[d]) hchain hds hnodup
        ((List.mem_cons.mp hc).resolve_left (fun he => hd he.symm)) ?_
      rw [List.getLast?_concat]
      exact hrun

theorem chains_cancel (k : ℕ) (r r' : Resolver) (W : ℕ → List ℕ) (R : List (List ℕ))
    (held pool : List ℕ) (h : Chains r W R held pool) (hnodup : (queued r).Nodup) (hx : x ∈ queued r)
    (hc : c ∈ W x) (hrun : cancelLoop x c k r none (r.node x).waiting = some r') :
    Chains r' (Function.update W x ((W x).erase c)) R (c::held) pool := by
  have hall := h.all.nodup_iff.mpr h.nodup
  have hperm := queued_removed r x hnodup hx
  have hrest : x ∉ queued (removed r x) := (List.nodup_cons.mp (hperm.nodup_iff.mp hnodup)).1
  have hold := hperm.flatMap_right W
  rw [List.flatMap_cons] at hold
  have hflat := (List.nodup_append'.mp hall).1
  have hsplit := List.nodup_append'.mp (hold.nodup_iff.mp hflat)
  obtain ⟨hwalk,heffect⟩ := cancel_loop_chain x c k r r' _ [] (W x) (h.chain x hx) (h.chain x hx)
    hsplit.1 hc hrun
  rw [List.nil_append] at hwalk heffect
  -- the other chains do not have the link that has been written
  have hother : ∀ p ws, Chain (links r) p ws → (∀ e ∈ W x, e ∉ ws) → Chain (links r') p ws := by
    intro p ws hws hapart
    rcases heffect with ⟨q,rfl⟩ | ⟨e,q,he,rfl⟩
    · exact hws
    · rw [links_set]
      exact chain_update _ _ _ e _ hws (hapart e he)
  have hsame : queued r' = queued r ∧ r'.running = r.running ∧ r'.called = r.called ∧
      r'.cancelled = r.cancelled ∧ ∀ y, y ≠ x → r'.node y = r.node y := by
    rcases heffect with ⟨q,rfl⟩ | ⟨e,q,-,rfl⟩
    · exact ⟨rfl,rfl,rfl,rfl,fun y hy => set_node_of_ne _ _ _ _ hy⟩
    · exact ⟨rfl,rfl,rfl,rfl,fun y _ => rfl⟩
  obtain ⟨hq,hrunning,hcalled,hcancelled,hnodes⟩ := hsame
  refine ⟨fun y hy => ?_,?_,?_,h.nodup⟩
  · by_cases hyx : y = x
    · subst hyx
      rw [Function.update_self]
      exact hwalk
    rw [Function.update_of_ne hyx, hnodes y hyx]
    rw [hq] at hy
    have hyr : y ∈ queued (removed r x) :=
      (List.mem_cons.mp (hperm.mem_iff.mp hy)).resolve_left hyx
    exact hother _ _ (h.chain y hy)
      (fun e he hey => hsplit.2.2 he (List.mem_flatMap.mpr ⟨y,hyr,hey⟩))
  · rw [hrunning]
    have hrun' : List.Forall₂ (fun p xs => Chain (links r) (some p.1) xs) r.running R := h.run
    refine List.forall₂_iff_get.mpr ⟨hrun'.length_eq,fun i hi hj => ?_⟩
    refine hother _ _ (hrun'.get hi hj) (fun e he hei => ?_)
    have hW : e ∈ (queued r).flatMap W := List.mem_flatMap.mpr ⟨x,hx,he⟩
    exact (List.nodup_append'.mp hall).2.2 hW
      (List.mem_append_left _ (List.mem_flatten.mpr ⟨_,List.get_mem ..,hei⟩))
  · have hnew := hperm.flatMap_right (Function.update W x ((W x).erase c))
    rw [List.flatMap_cons, Function.update_self, flat_map_update W x _ _ hrest] at hnew
    have herase := List.perm_cons_erase hc
    refine List.Perm.trans (List.perm_iff_count.mpr (fun a => ?_)) h.all
    have h1 := hnew.count_eq a
    have h2 := hold.count_eq a
    have h3 := herase.count_eq a
    simp only [hq, hcalled, hcancelled, List.count_append, List.count_cons] at h1 h2 h3 ⊢
    omega

end Cancel

end Nginx.ResolverWaiting
