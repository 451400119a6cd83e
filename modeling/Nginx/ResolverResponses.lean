import Nginx.ResolverCalls

/-!
# Responses, cancellations and passes over the queues

What the functions behind a lookup keep: the passes that expire and send again, the
cancellation of a context, and the parts of a response.
-/

set_option autoImplicit false

namespace Nginx.ResolverResponses
open Nginx.RedBlackTree Nginx.NgxRbtree Nginx.LinkedChain Nginx.Ledger Nginx.ResolverNames
open Nginx.ResolverQueues Nginx.ResolverBlocks Nginx.ResolverWaiting Nginx.ResolverCalls

section Passes
variable (A B : Prop) (started : List ℕ) (r : Resolver) (T : RedBlackTree.Tree ℕ) (loose held pool : List ℕ)

variable (x : ℕ)

theorem removed_expire (h : (queued r).Nodup) (hx : x ∈ r.nameExpireQueue) :
    removed r x = { r with nameExpireQueue := r.nameExpireQueue.erase x } := by
  have hother : x ∉ r.nameResendQueue := fun hm => (List.nodup_append'.mp h).2.2 hm hx
  rw [removed, List.erase_of_not_mem hother]

theorem removed_resend (h : (queued r).Nodup) (hx : x ∈ r.nameResendQueue) :
    removed r x = { r with nameResendQueue := r.nameResendQueue.erase x } := by
  have hother : x ∉ r.nameExpireQueue := fun hm => (List.nodup_append'.mp h).2.2 hx hm
  rw [removed, List.erase_of_not_mem hother]

variable (fuel : ℕ)

theorem drop_inv (x : ℕ) (t : Rbtree)
    (h : Inv A B started r T [x] (nodeBlocks x (r.node x)++loose) held pool)
    (htag : A → Tagged r.ledger (r.node x)) (hrun : ngxRbtreeDelete fuel r.rbtree x = some t) :
    ∃ T', Inv A B started (ngxResolverFreeNode { r with rbtree := t } x) T' [] loose held pool := by
  obtain ⟨T',hinv⟩ := inv_delete A B started r T _ held pool fuel x t h hrun
  exact ⟨T',inv_frees A B started _ T' [] _ held pool loose _ hinv (frees_free_node _ x)
    (fun hA => blocks_free_node _ x loose (hinv.blocks hA) (htag hA))⟩

theorem expire_loop_inv (k : ℕ) (now : ℤ) (r' : Resolver)
    (h : Inv A B started r T [] loose held pool) (hrun : expireLoop fuel now k r = some r') :
    ∃ T', Inv A B started r' T' [] loose held pool := by
  induction k generalizing r T with
  | zero =>
    cases hrun
    exact ⟨T,h⟩
  | succ k ih =>
    rw [expireLoop] at hrun
    cases hlast : r.nameExpireQueue.getLast? with
    | none =>
      rw [hlast] at hrun
      cases hrun
      exact ⟨T,h⟩
    | some x =>
      rw [hlast] at hrun
      simp only at hrun
      by_cases hstop : now ≤ (r.node x).expire
      · rw [if_pos hstop] at hrun
        cases hrun
        exact ⟨T,h⟩
      rw [if_neg hstop] at hrun
      obtain ⟨t,hdelete,hrest⟩ := Option.bind_eq_some_iff.mp hrun
      have hx := List.mem_of_getLast? hlast
      obtain ⟨htag,h1⟩ := inv_hand_idle A B started r T loose held pool x h
        (List.mem_append_right _ hx) (h.base.idle x hx)
      rw [removed_expire r x (queued_nodup r T [] h.base) hx] at h1
      obtain ⟨T1,h2⟩ := drop_inv A B started _ T loose held pool fuel x t h1 htag hdelete
      exact ih _ T1 h2 hrest

/-- No send fails for a node with waiting contexts in a pass that sends again. -/
def Resends (r : Resolver) (w : World) : Prop :=
  ∀ x ∈ r.nameResendQueue, ¬ w.now < (r.node x).expire → (r.node x).waiting ≠ none → w.send x = true

theorem resend_inv (k : ℕ) (w : World) (r' : Resolver) (h : Inv A B started r T [] loose held pool)
    (hs : Resends r w) (hrun : ngxResolverResend fuel w k r = some r') :
    ∃ T', Inv A B started r' T' [] loose held pool := by
  induction k generalizing r T with
  | zero => cases hrun
  | succ k ih =>
    rw [ngxResolverResend] at hrun
    cases hlast : r.nameResendQueue.getLast? with
    | none =>
      rw [hlast] at hrun
      cases hrun
      exact ⟨T,h⟩
    | some x =>
      rw [hlast] at hrun
      simp only at hrun
      by_cases hstop : w.now < (r.node x).expire
      · rw [if_pos hstop] at hrun
        cases hrun
        exact ⟨T,h⟩
      rw [if_neg hstop] at hrun
      have hx := List.mem_of_getLast? hlast
      obtain ⟨htag,ws,hws,h1⟩ := inv_hand A B started r T loose held pool x h
        (List.mem_append_left _ hx)
      rw [removed_resend r x (queued_nodup r T [] h.base) hx] at h1
      by_cases hwait : (r.node x).waiting ≠ none
      · have hsend := hs x hx hstop hwait
        rw [if_pos hwait, if_pos hsend] at hrun
        have h2 := inv_set_hand A B started _ T _ _ pool x
          { r.node x with expire := w.now+r.resendTimeout } h1 ⟨rfl,rfl⟩
        refine ih _ T (inv_put_resend A B started _ T loose held pool x
          { r.node x with expire := w.now+r.resendTimeout } ws h2 (set_node_self ..)
          (fun hA => ⟨(htag hA).cname,(htag hA).addrs,(htag hA).other⟩) hws
          (h.base.flight x hx)) (fun y hy => ?_) hrun
        rcases List.mem_cons.mp hy with rfl | hy
        · exact fun _ _ => hsend
        have hne : y ≠ x := by
          rintro rfl
          exact (List.nodup_append'.mp (queued_nodup r T [] h.base)).1.not_mem_erase hy
        show ¬ w.now < ((Resolver.setNode _ x _).node y).expire →
          ((Resolver.setNode _ x _).node y).waiting ≠ none → _
        rw [set_node_of_ne _ _ _ _ hne]
        exact hs y (List.mem_of_mem_erase hy)
      rw [if_neg hwait] at hrun
      obtain ⟨t,hdelete,hrest⟩ := Option.bind_eq_some_iff.mp hrun
      obtain ⟨-,h2⟩ := inv_hand_idle A B started r T loose held pool x h
        (List.mem_append_left _ hx) (not_not.mp hwait)
      rw [removed_resend r x (queued_nodup r T [] h.base) hx] at h2
      obtain ⟨T1,h3⟩ := drop_inv A B started _ T loose held pool fuel x t h2 htag hdelete
      refine ih _ T1 h3 (fun y hy => ?_) hrest
      have hf := frees_free_node { r with
        nameResendQueue := r.nameResendQueue.erase x, rbtree := t } x
      rw [hf.same] at hy ⊢
      exact hs y (List.mem_of_mem_erase hy)

theorem inv_set_kept (rn : ResolverNode) (h : Inv A B started r T [] loose held pool)
    (hname : SameName (r.node x) rn) (hvalid : rn.valid = (r.node x).valid)
    (hwait : rn.waiting = (r.node x).waiting) (hblocks : A → Blocks (r.setNode x rn) loose) :
    Inv A B started (r.setNode x rn) T [] loose held pool := by
  have hnode : ∀ y, ((r.setNode x rn).node y).waiting = (r.node y).waiting ∧
      ((r.setNode x rn).node y).valid = (r.node y).valid := by
    intro y
    by_cases hyx : y = x
    · subst hyx
      rw [set_node_self]
      exact ⟨hwait,hvalid⟩
    · rw [set_node_of_ne _ _ _ _ hyx]
      exact ⟨rfl,rfl⟩
  refine ⟨⟨kept_set r T x rn hname h.base.kept,h.base.queue,fun y hy => ?_,fun y hy => ?_,
    h.base.known⟩,hblocks,fun hB => ?_,h.started⟩
  · rw [(hnode y).1]
    exact h.base.idle y hy
  · rw [(hnode y).2]
    exact h.base.flight y hy
  · obtain ⟨W,R,hch⟩ := h.chains hB
    refine ⟨W,R,fun y hy => ?_,hch.run,hch.all,hch.nodup⟩
    rw [(hnode y).1]
    exact hch.chain y hy

theorem blocks_waiting (q : Option ℕ) (h : Blocks r loose) :
    Blocks (r.setNode x { r.node x with waiting := q }) loose := by
  refine ⟨fun y hy => ?_,?_,h.wild⟩
  · have hold := h.tagged y hy
    by_cases hyx : y = x
    · subst hyx
      rw [set_node_self]
      exact ⟨hold.cname,hold.addrs,hold.other⟩
    · rw [set_node_of_ne _ _ _ _ hyx]
      exact hold
  · have hsame : blocks (r.setNode x { r.node x with waiting := q }) (queued r) = blocks r (queued r) := by
      refine List.flatMap_congr (fun y _ => ?_)
      by_cases hyx : y = x
      · subst hyx
        rw [set_node_self]
        rfl
      · rw [set_node_of_ne _ _ _ _ hyx]
    show Balanced r.ledger (blocks (r.setNode x _) (queued r)++loose)
    rw [hsame]
    exact h.balanced

def Waits (r : Resolver) (c : ℕ) (w : World) : Prop :=
  ∃ x xs, Finds r (ctxName r c w.garbage) (some x) ∧ Chain (links r) (r.node x).waiting xs ∧ c ∈ xs

variable (c : ℕ) (w : World) (r' : Resolver)

theorem cancel_inv (h : Inv A B started r T [] loose held pool)
    (hstate : (r.ctx c).state = .again ∨ (r.ctx c).state = .timedOut) (hwaits : B → Waits r c w)
    (hrun : cancel fuel r c w = some r') : Inv A B started r' T [] loose (c::held) pool := by
  rw [cancel, if_pos hstate] at hrun
  obtain ⟨found,hlookup,hrun⟩ := Option.bind_eq_some_iff.mp hrun
  have hfinds : Finds r (ctxName r c w.garbage) found := ⟨fuel,hlookup⟩
  cases found with
  | none =>
    cases hrun
    refine ⟨h.base,h.blocks,fun hB => ?_,h.started⟩
    obtain ⟨x,xs,hx,-⟩ := hwaits hB
    cases finds_agree r _ _ _ hfinds hx
  | some x =>
    have hx := lookup_queued r T fuel x _ h.base hlookup
    have heffect := cancel_loop_effect x c fuel r r' none _ hrun
    refine ⟨?_,fun hA => ?_,fun hB => ?_,?_⟩
    · rcases heffect with rfl | ⟨hcur,q,rfl⟩ | ⟨e,q,rfl⟩
      · exact h.base
      · exact base_set_flight r T x _ h.base (waiting_flight r T x h.base hcur) ⟨rfl,rfl⟩ rfl
      · exact ⟨h.base.kept,h.base.queue,h.base.idle,h.base.flight,h.base.known⟩
    · rcases heffect with rfl | ⟨-,q,rfl⟩ | ⟨e,q,rfl⟩
      · exact h.blocks hA
      · exact blocks_waiting r loose x q (h.blocks hA)
      · exact ⟨(h.blocks hA).tagged,(h.blocks hA).balanced,(h.blocks hA).wild⟩
    · obtain ⟨W,R,hch⟩ := h.chains hB
      obtain ⟨y,xs,hy,hxs,hc⟩ := hwaits hB
      cases finds_agree r _ _ _ hfinds hy
      rw [chain_unique _ _ _ _ hxs (hch.chain x hx)] at hc
      exact ⟨_,R,chains_cancel x c fuel r r' W R held pool hch (queued_nodup r T [] h.base) hx hc hrun⟩
    · rcases heffect with rfl | ⟨-,q,rfl⟩ | ⟨e,q,rfl⟩ <;> exact h.started

theorem inv_cancelled (h : Inv A B started r T [] loose (c::held) pool) :
    Inv A B started { r with cancelled := c::r.cancelled } T [] loose held pool := by
  refine ⟨⟨h.base.kept,h.base.queue,h.base.idle,h.base.flight,h.base.known⟩,
    fun hA => ⟨(h.blocks hA).tagged,(h.blocks hA).balanced,(h.blocks hA).wild⟩,fun hB => ?_,
    h.started⟩
  obtain ⟨W,R,hch⟩ := h.chains hB
  refine ⟨W,R,hch.chain,hch.run,?_,hch.nodup⟩
  refine List.Perm.trans (List.perm_iff_count.mpr (fun a => ?_)) hch.all
  show List.count a ((queued r).flatMap W++(R.flatten++(held++(r.called++(c::r.cancelled))))) = _
  simp only [List.count_append, List.count_cons]
  omega

theorem name_done_inv (h : Inv A B started r T [] loose held pool)
    (htimeout : (r.ctx c).state ≠ .timedOut) (hwaits : B → (r.ctx c).state = .again → Waits r c w)
    (hrun : ngxResolveNameDone fuel r c w = some r') :
    ∃ T', Inv A B started r' T' [] loose held pool := by
  obtain ⟨r1,hcancel,hexpire⟩ := Option.bind_eq_some_iff.mp hrun
  by_cases hstate : (r.ctx c).state = .again
  · have h1 := cancel_inv A B started r T loose held pool fuel c w r1 h (Or.inl hstate)
      (fun hB => hwaits hB hstate) hcancel
    rw [if_pos hstate] at hexpire
    exact expire_loop_inv A B started _ T loose held pool fuel 2 w.now r'
      (inv_cancelled A B started r1 T loose held pool c h1) hexpire
  rw [if_neg hstate] at hexpire
  rw [cancel, if_neg (not_or.mpr ⟨hstate,htimeout⟩)] at hcancel
  cases hcancel
  exact expire_loop_inv A B started r T loose held pool fuel 2 w.now r' h hexpire

theorem timeout_inv (h : Inv A B started r T [] loose held pool) (hwaits : B → Waits r c w)
    (hrun : ngxResolverTimeoutHandler fuel r c w = some r') :
    ∃ T', Inv A B started r' T' [] loose held pool := by
  obtain ⟨r1,hcancel,hexpire⟩ := Option.bind_eq_some_iff.mp hrun
  obtain ⟨ctx,hctx⟩ : ∃ ctx : Ctx, ctx = { r.ctx c with state := .timedOut } := ⟨_,rfl⟩
  rw [← hctx] at hcancel
  have hlinks : links (r.setCtx c ctx) = links r := links_same r c ctx (by rw [hctx])
  have h0 : Inv A B started (r.setCtx c ctx) T [] loose held pool := by
    refine ⟨⟨h.base.kept,h.base.queue,h.base.idle,h.base.flight,h.base.known⟩,
      fun hA => ⟨(h.blocks hA).tagged,(h.blocks hA).balanced,(h.blocks hA).wild⟩,fun hB => ?_,
      h.started⟩
    obtain ⟨W,R,hch⟩ := h.chains hB
    refine ⟨W,R,fun y hy => ?_,?_,hch.all,hch.nodup⟩
    · rw [hlinks]
      exact hch.chain y hy
    · rw [hlinks]
      exact hch.run
  have hname : ctxName (r.setCtx c ctx) c w.garbage = ctxName r c w.garbage := by
    rw [ctxName, set_ctx_self, hctx]
    rfl
  have h1 := cancel_inv A B started _ T loose held pool fuel c w r1 h0
    (Or.inr (by rw [set_ctx_self, hctx])) (fun hB => by
      obtain ⟨x,xs,hx,hxs,hc⟩ := hwaits hB
      refine ⟨x,xs,?_,?_,hc⟩
      · rw [hname]
        exact hx
      · rw [hlinks]
        exact hxs) hcancel
  exact expire_loop_inv A B started _ T loose held pool fuel 2 w.now r'
    (inv_called A B started r1 T [] loose held pool c h1) hexpire

theorem call_next_inv (h : Inv A B started r T [] loose held pool) (hrun : callNext r = some r') :
    Inv A B started r' T [] loose held pool := by
  have hsame : ∃ ctx running called, r' = { r with ctx := ctx, running := running, called := called } := by
    rw [callNext] at hrun
    cases hr : r.running with
    | nil =>
      rw [hr] at hrun
      cases hrun
    | cons p rest =>
      obtain ⟨c,reply⟩ := p
      rw [hr] at hrun
      rw [← Option.some.inj hrun]
      cases (r.ctx c).next <;> exact ⟨_,_,_,rfl⟩
  obtain ⟨ctx,running,called,heq⟩ := hsame
  refine ⟨?_,fun hA => ?_,fun hB => ?_,?_⟩
  · rw [heq]
    exact ⟨h.base.kept,h.base.queue,h.base.idle,h.base.flight,h.base.known⟩
  · rw [heq]
    exact ⟨(h.blocks hA).tagged,(h.blocks hA).balanced,(h.blocks hA).wild⟩
  · obtain ⟨W,R,hch⟩ := h.chains hB
    obtain ⟨R',hch'⟩ := chains_call_next r W R held pool r' hch hrun
    exact ⟨W,R',hch'⟩
  · rw [heq]
    exact h.started

end Passes

section Responses
variable (A B : Prop) (started : List ℕ) (r : Resolver) (T : RedBlackTree.Tree ℕ) (loose held pool : List ℕ) (x : ℕ)
  (w : World)

theorem answered_inv (rn : ResolverNode) (now : ℤ) (extra : List ℕ) (r' : Resolver)
    (h : Inv A B started r T [] (extra++loose) held pool) (hname : SameName (r.node x) rn)
    (hblocks : A → (extra++nodeBlocks x (r.node x)).Perm (nodeBlocks x rn))
    (htag : A → Tagged r.ledger (r.node x) → Tagged r.ledger rn)
    (hrun : answered r x rn now = some r') :
    r'.ctx = r.ctx ∧ r'.ledger = r.ledger ∧ r'.rbtree = r.rbtree ∧
      ∃ ws, (B → Chain (links r) (r.node x).waiting ws) ∧
        Inv A B started r' T [] loose (ws++held) pool := by
  obtain ⟨r1,hremove,rfl⟩ := Option.map_eq_some_iff.mp hrun
  obtain ⟨hx,rfl,hold,ws,hws,h1⟩ := inv_take A B started r T _ held pool x r1 h hremove
  refine ⟨rfl,rfl,rfl,ws,hws,?_⟩
  have h2 := inv_set_hand A B started _ T _ _ pool x
    { rn with valid := now+r.valid, expire := now+r.expire, waiting := none } h1
    ⟨hname.name,hname.nlen⟩
  obtain ⟨hbase,hb,hc,hstarted⟩ := h2
  have h3 : Inv A B started ((removed r x).setNode x
      { rn with valid := now+r.valid, expire := now+r.expire, waiting := none }) T [x]
      (nodeBlocks x rn++loose) (ws++held) pool := by
    refine ⟨hbase,fun hA => blocks_loose _ _ _ (hb hA) ?_,hc,hstarted⟩
    rw [← List.append_assoc]
    exact (List.perm_append_comm.trans (hblocks hA)).append_right loose
  exact inv_put_expire A B started _ T loose _ pool x
    { rn with valid := now+r.valid, expire := now+r.expire, waiting := none } h3 (set_node_self ..)
    (fun hA => ⟨(htag hA (hold hA)).cname,(htag hA (hold hA)).addrs,(htag hA (hold hA)).other⟩) rfl

variable (fuel : ℕ)

theorem process_error_inv (code : ℕ) (r' : Resolver) (h : Inv A B started r T [] loose held pool)
    (hrun : processError fuel r x code = some r') :
    ∃ T', Inv A B started r' T' [] loose held pool := by
  obtain ⟨r1,hremove,hrest⟩ := Option.bind_eq_some_iff.mp hrun
  obtain ⟨t,hdelete,rfl⟩ := Option.map_eq_some_iff.mp hrest
  obtain ⟨hx,rfl,htag,ws,hws,h1⟩ := inv_take A B started r T loose held pool x r1 h hremove
  obtain ⟨T',h2⟩ := drop_inv A B started _ T loose _ pool fuel x t h1 htag hdelete
  refine ⟨T',inv_call A B started _ T' [] loose held pool _ _ ws h2 (fun hB => ?_)⟩
  have hf := frees_free_node { removed r x with rbtree := t } x
  have hlinks : links (ngxResolverFreeNode { removed r x with rbtree := t } x) = links r := by
    rw [hf.same]
    rfl
  rw [hlinks]
  exact hws hB

/-- What an answer may find in a node: nothing that it overwrites. -/
structure AnswerFits (rn : ResolverNode) (w : World) (naddrs : ℕ)
    (cname : Option (Option (List ℕ))) : Prop where
  addr : naddrs = 1 → rn.cnlen = 0 ∧ rn.naddrs ≤ 1
  addrs : 1 < naddrs → w.allocAddrs ≠ none → rn.cnlen = 0 ∧ rn.naddrs ≤ 1 ∧ w.dup = true
  cname : naddrs = 0 → ∀ name, cname = some (some name) → (name = [] ∨ w.allocCname ≠ none) →
    rn.cnlen = 0 ∧ rn.naddrs ≤ 1 ∧ (name ≠ [] → rn.naddrs = 0)

theorem answer_blocks_nil (rn : ResolverNode) (hc : rn.cnlen = 0) (hn : rn.naddrs ≤ 1) :
    answerBlocks rn = [] := by
  rw [answerBlocks, if_neg]
  omega

variable (r' : Resolver)

theorem links_congr (h : r'.ctx = r.ctx) : links r' = links r := by
  funext d
  rw [links, links, h]

theorem process_addrs_inv (naddrs addr : ℕ) (addrs : List ℕ) (r' : Resolver)
    (h : Inv A B started r T [] loose held pool) (hpos : naddrs ≠ 0) (hlt : naddrs < 2^16)
    (hfits : A → AnswerFits (r.node x) w naddrs none)
    (hfresh : ∀ p, w.allocAddrs = some p → p ∉ r.ledger.opened)
    (hrun : processAddrs r x naddrs addr addrs w = some r') :
    ∃ T', Inv A B started r' T' [] loose held pool := by
  rw [processAddrs] at hrun
  by_cases hone : naddrs = 1
  · rw [if_pos hone] at hrun
    obtain ⟨r1,hanswered,rfl⟩ := Option.map_eq_some_iff.mp hrun
    obtain ⟨hctx,-,-,ws,hws,h1⟩ := answered_inv A B started r T loose held pool x
      { r.node x with u := .addr addr, naddrs := naddrs } w.now [] r1 h ⟨rfl,rfl⟩ (fun hA => by
        obtain ⟨hc,hn⟩ := (hfits hA).addr hone
        rw [List.nil_append, nodeBlocks, nodeBlocks, answer_blocks_nil (r.node x) hc hn,
          answer_blocks_nil { r.node x with u := .addr addr, naddrs := naddrs } hc hone.le])
      (fun hA _ => by
        obtain ⟨hc,-⟩ := (hfits hA).addr hone
        refine ⟨fun hlt => ?_,fun hlt => ?_,by rintro _ _ _ ⟨⟩⟩
        · exact absurd hlt (by show ¬ 0 < (r.node x).cnlen; omega)
        · exact absurd hlt (by show ¬ 1 < naddrs; omega)) hanswered
    refine ⟨T,inv_call A B started r1 T [] loose held pool _ _ ws h1 (fun hB => ?_)⟩
    rw [links_congr r r1 hctx]
    exact hws hB
  rw [if_neg hone] at hrun
  cases hp : w.allocAddrs with
  | none =>
    rw [hp] at hrun
    cases hrun
    exact ⟨T,h⟩
  | some p =>
    rw [hp] at hrun
    simp only at hrun
    have hmore : 1 < naddrs := by omega
    have hsome : w.allocAddrs ≠ none := by
      rw [hp]
      rintro ⟨⟩
    have hopen := inv_open A B started r T [] loose held pool p h (hfresh p hp)
    by_cases hdup : w.dup = true
    · rw [if_pos hdup] at hrun
      obtain ⟨r1,hanswered,rfl⟩ := Option.map_eq_some_iff.mp hrun
      obtain ⟨hctx,-,-,ws,hws,h1⟩ := answered_inv A B started _ T loose held pool x
        { r.node x with u := .addrs p addrs, naddrs := naddrs % 2^16 } w.now [p] r1 hopen ⟨rfl,rfl⟩
        (fun hA => by
          obtain ⟨hc,hn,-⟩ := (hfits hA).addrs hmore hsome
          have hnew : answerBlocks { r.node x with u := .addrs p addrs, naddrs := naddrs % 2^16 } =
              [p] := by
            rw [answerBlocks, if_pos (Or.inr (by rw [Nat.mod_eq_of_lt hlt]; exact hmore))]
            rfl
          rw [nodeBlocks, nodeBlocks, hnew, answer_blocks_nil (r.node x) hc hn]
          refine List.perm_iff_count.mpr (fun a => ?_)
          simp only [List.count_append, List.count_cons, List.count_nil]
          omega)
        (fun hA _ => by
          obtain ⟨hc,hn,-⟩ := (hfits hA).addrs hmore hsome
          refine ⟨fun hlt => ?_,fun _ => ⟨p,addrs,rfl⟩,fun _ hle => ?_⟩
          · exact absurd hlt (by show ¬ 0 < (r.node x).cnlen; omega)
          · exact absurd hle (by show ¬ naddrs % 2^16 ≤ 1; rw [Nat.mod_eq_of_lt hlt]; omega))
        hanswered
      refine ⟨T,inv_call A B started r1 T [] loose held pool _ _ ws h1 (fun hB => ?_)⟩
      rw [links_congr _ r1 hctx]
      exact hws hB
    rw [if_neg hdup] at hrun
    rw [← Option.some.inj hrun]
    have hno : ¬ A := fun hA => hdup ((hfits hA).addrs hmore hsome).2.2
    have h1 : Inv A B started { r with ledger := r.ledger.open p } T [] loose held pool :=
      ⟨hopen.base,fun hA => absurd hA hno,hopen.chains,hopen.started⟩
    exact ⟨T,inv_set_kept A B started _ T loose held pool x { r.node x with u := .addrs p addrs } h1
      ⟨rfl,rfl⟩ rfl rfl (fun hA => absurd hA hno)⟩

structure Valid (r : Resolver) (w : World) : Prop where
  fresh : Fresh r w
  addrs : ∀ p, w.allocAddrs = some p → p ∉ r.ledger.opened
  cname : ∀ p, w.allocCname = some p → p ∉ r.ledger.opened ∧
    (∀ x garbage, w.alloc = some (x, garbage) → x ≠ p) ∧ w.allocName ≠ some p ∧ w.allocQuery ≠ some p

def Follows (r : Resolver) (x : ℕ) (name : List ℕ) (w : World) : Prop :=
  ∀ c, (r.node x).waiting = some c → ∀ r1, cnameAnswered r x name w = some r1 →
    Arrives r1 w (r.ctx c).event ((r.ctx c).next = none) name (r.ctx c).recursion

theorem cname_answered_inv (name : List ℕ) (r' : Resolver)
    (h : Inv A B started r T [] loose held pool) (hw : Valid r w) (hlen : name.length < 2^16)
    (hfits : A → AnswerFits (r.node x) w 0 (some (some name)))
    (hrun : cnameAnswered r x name w = some r') :
    r'.ctx = r.ctx ∧ Fresh r' w ∧ ∃ ws, (B → Chain (links r) (r.node x).waiting ws) ∧
      Inv A B started r' T [] loose (ws++held) pool := by
  rw [cnameAnswered] at hrun
  by_cases hnil : name = []
  · rw [if_pos hnil] at hrun
    obtain ⟨hctx,hl,ht,ws,hws,h1⟩ := answered_inv A B started r T loose held pool x
      { r.node x with cnlen := 0, u := .empty } w.now [] r' h ⟨rfl,rfl⟩ (fun hA => by
        obtain ⟨hc,hn,-⟩ := (hfits hA).cname rfl name rfl (Or.inl hnil)
        rw [List.nil_append, nodeBlocks, nodeBlocks, answer_blocks_nil (r.node x) hc hn,
          answer_blocks_nil { r.node x with cnlen := 0, u := .empty } rfl hn])
      (fun hA _ => by
        obtain ⟨-,hn,-⟩ := (hfits hA).cname rfl name rfl (Or.inl hnil)
        refine ⟨by rintro ⟨⟩,fun hlt => ?_,by rintro _ _ _ ⟨⟩⟩
        exact absurd hlt (by show ¬ 1 < (r.node x).naddrs; omega)) hrun
    exact ⟨hctx,fresh_alike r r' w hw.fresh ht hl,ws,hws,h1⟩
  rw [if_neg hnil] at hrun
  cases hp : w.allocCname with
  | none =>
    rw [hp] at hrun
    cases hrun
  | some p =>
    rw [hp] at hrun
    simp only at hrun
    obtain ⟨hfresh,hpx,hpn,hpq⟩ := hw.cname p hp
    have hsome : w.allocCname ≠ none := by
      rw [hp]
      rintro ⟨⟩
    have hopen := inv_open A B started r T [] loose held pool p h hfresh
    have hpos : 0 < name.length % 2^16 := by
      rw [Nat.mod_eq_of_lt hlen]
      exact List.length_pos_of_ne_nil hnil
    obtain ⟨hctx,hl,ht,ws,hws,h1⟩ := answered_inv A B started _ T loose held pool x
      { r.node x with cnlen := name.length % 2^16, u := .cname p name } w.now [p] r' hopen ⟨rfl,rfl⟩
      (fun hA => by
        obtain ⟨hc,hn,-⟩ := (hfits hA).cname rfl name rfl (Or.inr hsome)
        have hnew : answerBlocks { r.node x with cnlen := name.length % 2^16, u := .cname p name } =
            [p] := by
          rw [answerBlocks, if_pos (Or.inl hpos)]
          rfl
        rw [nodeBlocks, nodeBlocks, hnew, answer_blocks_nil (r.node x) hc hn]
        refine List.perm_iff_count.mpr (fun a => ?_)
        simp only [List.count_append, List.count_cons, List.count_nil]
        omega)
      (fun hA _ => by
        obtain ⟨-,-,hn⟩ := (hfits hA).cname rfl name rfl (Or.inr hsome)
        refine ⟨fun _ => ⟨hn hnil,p,name,rfl⟩,fun hlt => ?_,fun hz => ?_⟩
        · exact absurd hlt (by show ¬ 1 < (r.node x).naddrs; rw [hn hnil]; decide)
        · exact absurd hz (by show ¬ name.length % 2^16 = 0; omega)) hrun
    refine ⟨hctx,⟨hw.fresh.now,fun y garbage halloc => ?_,fun q hq => ?_,fun q hq => ?_⟩,ws,hws,h1⟩
    · obtain ⟨hy,hs,hstale⟩ := hw.fresh.node y garbage halloc
      rw [hl, ht]
      exact ⟨fun hm => (List.mem_cons.mp hm).elim (hpx y garbage halloc) hy,hs,hstale⟩
    · obtain ⟨hq1,hq2⟩ := hw.fresh.name q hq
      rw [hl]
      exact ⟨fun hm => (List.mem_cons.mp hm).elim (fun he => hpn (he ▸ hq)) hq1,hq2⟩
    · obtain ⟨hq1,hq2⟩ := hw.fresh.query q hq
      rw [hl]
      exact ⟨fun hm => (List.mem_cons.mp hm).elim (fun he => hpq (he ▸ hq)) hq1,hq2⟩

theorem process_cname_inv (name : List ℕ) (r' : Resolver) (h : Inv A B started r T [] loose [] pool)
    (hw : Valid r w) (hlen : name.length < 2^16)
    (hfits : A → AnswerFits (r.node x) w 0 (some (some name))) (hfollows : B → Follows r x name w)
    (hrun : processCname fuel r x name w = some r') :
    ∃ T', Inv A B started r' T' [] loose [] pool := by
  rw [processCname] at hrun
  simp only at hrun
  by_cases hfail : name ≠ [] ∧ w.allocCname = none
  · rw [if_pos hfail] at hrun
    cases hrun
    exact ⟨T,h⟩
  rw [if_neg hfail] at hrun
  obtain ⟨r1,hanswered,hrest⟩ := Option.bind_eq_some_iff.mp hrun
  obtain ⟨hctx,hfresh,ws,hws,h1⟩ := cname_answered_inv A B started r T loose [] pool x w name r1 h
    hw hlen hfits hanswered
  rw [List.append_nil] at h1
  cases hwait : (r.node x).waiting with
  | none =>
    rw [hwait] at hrest
    rw [← Option.some.inj hrest]
    refine ⟨T,h1.base,h1.blocks,fun hB => ?_,h1.started⟩
    have hnil : ws = [] := chain_none (links r) ws (by rw [← hwait]; exact hws hB)
    rw [hnil] at h1
    exact h1.chains hB
  | some c =>
    rw [hwait] at hrest hws
    simp only at hrest
    obtain ⟨ctx,hctx1⟩ : ∃ ctx : Ctx, ctx = { r1.ctx c with
      name := name, nameBlock := if name = [] then none else w.allocCname } := ⟨_,rfl⟩
    rw [← hctx1] at hrest
    obtain ⟨⟨rc,r2⟩,hresolve,rfl⟩ := Option.map_eq_some_iff.mp hrest
    have hlinks : links (r1.setCtx c ctx) = links r := by
      rw [links_same r1 c ctx (by rw [hctx1]), links_congr r r1 hctx]
    -- in a run that does not watch the chains any rest will do
    obtain ⟨rest,hrest',h2⟩ : ∃ rest, (B → Chain (links r) (some c) (c::rest)) ∧
        Inv A B started r1 T [] loose (c::rest) pool := by
      by_cases hB : B
      · obtain ⟨rest,rfl,hrest⟩ := chain_some _ _ _ (hws hB)
        exact ⟨rest,fun _ => ⟨rfl,hrest⟩,h1⟩
      · exact ⟨[],fun hb => absurd hb hB,h1.base,h1.blocks,fun hb => absurd hb hB,h1.started⟩
    have h3 := inv_ctx A B started r1 T [] loose _ pool c ctx h2 (fun _ => List.mem_cons_self)
    have harr : B → Arrives (r1.setCtx c ctx) w ((r1.setCtx c ctx).ctx c).event (rest = [])
        ((r1.setCtx c ctx).ctx c).name ((r1.setCtx c ctx).ctx c).recursion := by
      intro hB
      have hfollow := hfollows hB c hwait r1 hanswered
      have halone : (r.ctx c).next = none ↔ rest = [] := by
        obtain ⟨-,hchain⟩ := hrest' hB
        constructor
        · intro hnone
          have hlink : links r c = none := hnone
          rw [hlink] at hchain
          exact chain_none _ _ hchain
        · rintro rfl
          exact hchain
      rw [set_ctx_self, hctx1, hctx]
      rw [propext halone] at hfollow
      exact arrives_alike r1 _ w _ _ _ _ ⟨rfl,rfl,fun y => ⟨_,rfl⟩⟩ hfollow
    obtain ⟨T',h4⟩ := resolve_inv A B started _ T loose pool fuel 52 c rest w rc r2 h3
      (fresh_alike r1 _ w hfresh rfl rfl) (fun hB => by rw [hlinks]; exact hrest' hB)
      (fun hB => Or.inr (harr hB)) hresolve
    refine ⟨T',h4.base,h4.blocks,fun hB => ?_,h4.started⟩
    have hrc := resolve_arrives A B started _ T loose _ pool fuel 52 c w _ rc r2 h3 hfresh.now
      (fun _ => List.mem_cons_self) (harr hB) hresolve
    rw [if_neg hrc] at h4
    exact h4.chains hB

end Responses

end Nginx.ResolverResponses
