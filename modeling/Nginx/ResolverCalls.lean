import Nginx.ResolverBlocks
import Nginx.ResolverWaiting

/-!
# The calls of the resolver

The blocks of the nodes are kept in runs of one kind and the chains of the contexts in runs of
another kind, with the same queues. One lemma for each function says what it keeps of either.
-/

set_option autoImplicit false

namespace Nginx.ResolverCalls
open Nginx.RedBlackTree Nginx.NgxRbtree Nginx.RbtreeSearch Nginx.LinkedChain Nginx.Ledger
open Nginx.ResolverNames Nginx.ResolverQueues Nginx.ResolverBlocks Nginx.ResolverWaiting

structure Frees (r r' : Resolver) : Prop where
  same : r' = { r with ledger := r'.ledger, wild := r'.wild }
  opened : r'.ledger.opened = r.ledger.opened

theorem frees_refl (r : Resolver) : Frees r r := ⟨rfl,rfl⟩

theorem frees_trans (r r' r'' : Resolver) (h : Frees r r') (h' : Frees r' r'') : Frees r r'' := by
  refine ⟨?_,h'.opened.trans h.opened⟩
  rw [h'.same, h.same]

theorem frees_free (r : Resolver) (p : ℕ) : Frees r (r.free p) := ⟨rfl,rfl⟩

theorem frees_free_query (r : Resolver) (rn : ResolverNode) : Frees r (freeQuery r rn) := by
  rw [freeQuery]
  cases rn.query with
  | none => exact frees_refl r
  | some q => exact frees_free r q.1

theorem frees_free_union (r : Resolver) (u : Union) : Frees r (freeUnion r u) := by
  cases u with
  | empty => exact frees_refl r
  | addr a => exact ⟨rfl,rfl⟩
  | addrs p xs => exact frees_free r p
  | cname p name => exact frees_free r p

theorem frees_free_answer (r : Resolver) (rn : ResolverNode) : Frees r (freeAnswer r rn) := by
  rw [freeAnswer]
  have h1 : Frees r (if rn.cnlen ≠ 0 then freeUnion r rn.u else r) := by
    split_ifs
    · exact frees_free_union r rn.u
    · exact frees_refl r
  by_cases hn : rn.naddrs > 1
  · rw [if_pos hn]
    exact frees_trans _ _ _ h1 (frees_free_union _ rn.u)
  · rw [if_neg hn]
    exact h1

theorem frees_free_node (r : Resolver) (x : ℕ) : Frees r (ngxResolverFreeNode r x) :=
  frees_trans _ _ _ (frees_free_query r (r.node x)) (frees_trans _ _ _ (frees_free _ _)
    (frees_trans _ _ _ (frees_free_answer _ (r.node x)) (frees_free _ x)))

/-- The queues, with the blocks of the nodes if `A` and the chains of the contexts if `B`. -/
structure Inv (A B : Prop) (started : List ℕ) (r : Resolver) (T : RedBlackTree.Tree ℕ)
    (hand loose held pool : List ℕ) : Prop where
  base : Base r T hand
  blocks : A → Blocks r loose
  chains : B → ∃ W R, Chains r W R held pool
  started : r.started = started

section Calls
variable (A B : Prop) (started : List ℕ) (r : Resolver) (T : RedBlackTree.Tree ℕ) (hand loose held pool : List ℕ)

theorem inv_frees (loose' : List ℕ) (r' : Resolver) (h : Inv A B started r T hand loose held pool)
    (hf : Frees r r') (hb : A → Blocks r' loose') : Inv A B started r' T hand loose' held pool := by
  obtain ⟨hbase,-,hchains,hstarted⟩ := h
  have hsame := hf.same
  refine ⟨?_,hb,fun hB => ?_,?_⟩
  · rw [hsame]
    exact ⟨hbase.kept,hbase.queue,hbase.idle,hbase.flight,
      fun x hx => hf.opened ▸ hbase.known x hx⟩
  · obtain ⟨W,R,hc⟩ := hchains hB
    rw [hsame]
    exact ⟨W,R,hc.chain,hc.run,hc.all,hc.nodup⟩
  · rw [hsame]
    exact hstarted

theorem inv_open (p : ℕ) (h : Inv A B started r T hand loose held pool) (hp : p ∉ r.ledger.opened) :
    Inv A B started { r with ledger := r.ledger.open p } T hand (p::loose) held pool := by
  refine ⟨base_ledger r T hand _ h.base (fun x hx => List.mem_cons_of_mem _ hx),
    fun hA => blocks_open r loose p (h.blocks hA) hp,fun hB => ?_,h.started⟩
  obtain ⟨W,R,hc⟩ := h.chains hB
  exact ⟨W,R,hc.chain,hc.run,hc.all,hc.nodup⟩

theorem inv_ctx (c : ℕ) (ctx : Ctx) (h : Inv A B started r T hand loose held pool) (hc : B → c ∈ held) :
    Inv A B started (r.setCtx c ctx) T hand loose held pool := by
  refine ⟨⟨h.base.kept,h.base.queue,h.base.idle,h.base.flight,h.base.known⟩,
    fun hA => ⟨(h.blocks hA).tagged,(h.blocks hA).balanced,(h.blocks hA).wild⟩,fun hB => ?_,h.started⟩
  obtain ⟨W,R,hch⟩ := h.chains hB
  exact ⟨W,R,chains_ctx r W R held pool c ctx hch (hc hB)⟩

theorem inv_set_hand (x : ℕ) (rn : ResolverNode) (h : Inv A B started r T [x] loose held pool)
    (hname : SameName (r.node x) rn) : Inv A B started (r.setNode x rn) T [x] loose held pool := by
  have hx := hand_queued r T x h.base
  refine ⟨base_set_hand r T x rn h.base hname,fun hA => blocks_set_hand r x rn loose (h.blocks hA) hx,
    fun hB => ?_,h.started⟩
  obtain ⟨W,R,hch⟩ := h.chains hB
  exact ⟨W,R,chains_set_hand r W R held pool x rn hch hx⟩

theorem inv_delete (fuel x : ℕ) (t : Rbtree) (h : Inv A B started r T [x] loose held pool)
    (hrun : ngxRbtreeDelete fuel r.rbtree x = some t) :
    ∃ T', Inv A B started { r with rbtree := t } T' [] loose held pool := by
  obtain ⟨T',hbase⟩ := base_delete r T x fuel t h.base hrun
  refine ⟨T',hbase,fun hA => ⟨(h.blocks hA).tagged,(h.blocks hA).balanced,(h.blocks hA).wild⟩,
    fun hB => ?_,h.started⟩
  obtain ⟨W,R,hch⟩ := h.chains hB
  exact ⟨W,R,hch.chain,hch.run,hch.all,hch.nodup⟩

def handBlocks (x : ℕ) (rn : ResolverNode) : List ℕ := rn.query.toList.map Prod.fst++[rn.nameBlock, x]

theorem node_blocks_hand (x : ℕ) (rn : ResolverNode) :
    (nodeBlocks x rn).Perm (answerBlocks rn++handBlocks x rn) := by
  refine List.perm_iff_count.mpr (fun a => ?_)
  simp only [nodeBlocks, handBlocks, List.count_append, List.count_cons]
  omega

theorem inv_discard (x : ℕ) (rn : ResolverNode)
    (h : Inv A B started r T hand (handBlocks x rn++loose) held pool) :
    Inv A B started (((freeQuery r rn).free rn.nameBlock).free x) T hand loose held pool := by
  refine inv_frees A B started r T hand _ held pool loose _ h
    (frees_trans _ _ _ (frees_free_query r rn) (frees_trans _ _ _ (frees_free _ _) (frees_free _ x)))
    (fun hA => ?_)
  have hb := h.blocks hA
  rw [handBlocks, List.append_assoc] at hb
  exact blocks_free _ _ x (blocks_free _ _ rn.nameBlock (blocks_free_query r rn _ hb))

theorem inv_loose (loose' : List ℕ) (h : Inv A B started r T hand loose held pool)
    (hp : loose.Perm loose') : Inv A B started r T hand loose' held pool :=
  ⟨h.base,fun hA => blocks_loose r loose loose' (h.blocks hA) hp,h.chains,h.started⟩

theorem failed_query_inv (fuel x : ℕ) (rc : Rc) (r' : Resolver)
    (h : Inv A B started r T [x] (handBlocks x (r.node x)++loose) held pool)
    (hrun : failedQuery fuel r x = some (rc, r')) :
    rc = .error ∧ ∃ T', Inv A B started r' T' [] loose held pool := by
  obtain ⟨t,hdelete,heq⟩ := Option.map_eq_some_iff.mp hrun
  obtain ⟨T',hinv⟩ := inv_delete A B started r T _ held pool fuel x t h hdelete
  cases heq
  exact ⟨rfl,T',inv_discard A B started _ T' [] loose held pool x (r.node x) hinv⟩

theorem inv_put_resend (x : ℕ) (rn : ResolverNode) (ws : List ℕ)
    (h : Inv A B started r T [x] (nodeBlocks x rn++loose) (ws++held) pool) (hnode : r.node x = rn)
    (htag : A → Tagged r.ledger rn) (hws : B → Chain (links r) rn.waiting ws) (hvalid : rn.valid = 0) :
    Inv A B started { r with nameResendQueue := x::r.nameResendQueue } T [] loose held pool := by
  subst hnode
  have hx := hand_queued r T x h.base
  refine ⟨base_put_resend r T x h.base hvalid,
    fun hA => blocks_put r x loose _ (h.blocks hA) (htag hA) (List.Perm.refl _) rfl rfl rfl,
    fun hB => ?_,h.started⟩
  obtain ⟨W,R,hch⟩ := h.chains hB
  exact ⟨_,R,chains_put r W R held pool x ws _ hch hx (hws hB) (List.Perm.refl _) rfl rfl rfl rfl rfl⟩

theorem inv_put_expire (x : ℕ) (rn : ResolverNode)
    (h : Inv A B started r T [x] (nodeBlocks x rn++loose) held pool) (hnode : r.node x = rn)
    (htag : A → Tagged r.ledger rn) (hwait : rn.waiting = none) :
    Inv A B started { r with nameExpireQueue := x::r.nameExpireQueue } T [] loose held pool := by
  subst hnode
  have hx := hand_queued r T x h.base
  have hq : (queued { r with nameExpireQueue := x::r.nameExpireQueue }).Perm (x::queued r) :=
    List.perm_middle
  refine ⟨base_put_expire r T x h.base hwait,
    fun hA => blocks_put r x loose _ (h.blocks hA) (htag hA) hq rfl rfl rfl,fun hB => ?_,h.started⟩
  obtain ⟨W,R,hch⟩ := h.chains hB
  exact ⟨_,R,chains_put r W R held pool x [] _ hch hx hwait hq rfl rfl rfl rfl rfl⟩

theorem inv_hand (x : ℕ) (h : Inv A B started r T [] loose held pool) (hx : x ∈ queued r) :
    (A → Tagged r.ledger (r.node x)) ∧ ∃ ws, (B → Chain (links r) (r.node x).waiting ws) ∧
      Inv A B started (removed r x) T [x] (nodeBlocks x (r.node x)++loose) (ws++held) pool := by
  have hnodup := queued_nodup r T [] h.base
  refine ⟨fun hA => (blocks_remove r x loose (h.blocks hA) hnodup hx).2,?_⟩
  have hbase := base_remove r T x h.base hx
  have hblocks : A → Blocks (removed r x) (nodeBlocks x (r.node x)++loose) :=
    fun hA => (blocks_remove r x loose (h.blocks hA) hnodup hx).1
  by_cases hB : B
  · obtain ⟨W,R,hch⟩ := h.chains hB
    exact ⟨W x,fun _ => hch.chain x hx,hbase,hblocks,
      fun _ => ⟨W,R,chains_remove r W R held pool x hch hnodup hx⟩,h.started⟩
  · exact ⟨[],fun hb => absurd hb hB,hbase,hblocks,fun hb => absurd hb hB,h.started⟩

theorem inv_take (x : ℕ) (r' : Resolver) (h : Inv A B started r T [] loose held pool)
    (hrun : ngxQueueRemove r x = some r') : x ∈ queued r ∧ r' = removed r x ∧
      (A → Tagged r.ledger (r.node x)) ∧ ∃ ws, (B → Chain (links r) (r.node x).waiting ws) ∧
        Inv A B started r' T [x] (nodeBlocks x (r.node x)++loose) (ws++held) pool := by
  obtain ⟨hx,rfl⟩ := queue_remove_eq r T x r' h.base hrun
  exact ⟨hx,rfl,inv_hand A B started r T loose held pool x h hx⟩

theorem inv_hand_idle (x : ℕ) (h : Inv A B started r T [] loose held pool) (hx : x ∈ queued r)
    (hidle : (r.node x).waiting = none) : (A → Tagged r.ledger (r.node x)) ∧
      Inv A B started (removed r x) T [x] (nodeBlocks x (r.node x)++loose) held pool := by
  obtain ⟨htag,ws,hws,h1⟩ := inv_hand A B started r T loose held pool x h hx
  refine ⟨htag,h1.base,h1.blocks,fun hB => ?_,h1.started⟩
  have hnil : ws = [] := chain_none (links r) ws (by rw [← hidle]; exact hws hB)
  rw [hnil] at h1
  exact h1.chains hB

theorem inv_called (c : ℕ) (h : Inv A B started r T hand loose (c::held) pool) :
    Inv A B started { r with called := c::r.called } T hand loose held pool := by
  refine ⟨⟨h.base.kept,h.base.queue,h.base.idle,h.base.flight,h.base.known⟩,
    fun hA => ⟨(h.blocks hA).tagged,(h.blocks hA).balanced,(h.blocks hA).wild⟩,fun hB => ?_,
    h.started⟩
  obtain ⟨W,R,hch⟩ := h.chains hB
  exact ⟨W,R,chains_called r W R held pool c hch⟩

theorem send_query_inv (fuel x c : ℕ) (rest : List ℕ) (w : World) (rc : Rc) (r' : Resolver)
    (h : Inv A B started r T [x] (handBlocks x (r.node x)++loose) (c::rest) pool)
    (hstale : A → ∀ p, (r.node x).u.ptr = some p → r.ledger.closes p ≠ 0)
    (hc : B → Chain (links r) (some c) (c::rest))
    (halone : B → rest = [] ∨ emptyLabel (r.ctx c).name = false)
    (hrun : sendQuery fuel r x c w = some (rc, r')) :
    ∃ T', Inv A B started r' T' [] loose (if rc = .error then c::rest else []) pool := by
  have hfailed : failedQuery fuel r x = some (rc, r') →
      ∃ T', Inv A B started r' T' [] loose (if rc = .error then c::rest else []) pool := by
    intro hrun
    obtain ⟨hrc,hinv⟩ := failed_query_inv A B started r T loose _ pool fuel x rc r' h hrun
    rw [if_pos hrc]
    exact hinv
  rw [sendQuery] at hrun
  by_cases hempty : emptyLabel (r.ctx c).name = true
  · rw [if_pos hempty] at hrun
    obtain ⟨t,hdelete,heq⟩ := Option.map_eq_some_iff.mp hrun
    obtain ⟨T',h1⟩ := inv_delete A B started r T _ _ pool fuel x t h hdelete
    have h2 := inv_discard A B started _ T' [] loose _ pool x (r.node x) h1
    simp only at heq
    generalize ((freeQuery { r with rbtree := t } (r.node x)).free (r.node x).nameBlock).free x = r1
      at h2 heq
    have h3 := inv_ctx A B started r1 T' [] loose _ pool c { r1.ctx c with state := .code 3 } h2
      (fun _ => List.mem_cons_self)
    cases heq
    rw [if_neg nofun]
    refine ⟨T',?_⟩
    have h4 := inv_called A B started _ T' [] loose rest pool c h3
    refine ⟨h4.base,h4.blocks,fun hB => ?_,h4.started⟩
    have hrest : rest = [] := (halone hB).resolve_right (by rw [hempty]; exact nofun)
    rw [hrest] at h4
    exact h4.chains hB
  rw [if_neg hempty] at hrun
  by_cases hsend : w.send x = false
  · rw [if_pos hsend] at hrun
    exact hfailed hrun
  rw [if_neg hsend] at hrun
  by_cases hevent : (r.ctx c).event = false ∧ w.allocEvent = false
  · rw [if_pos hevent] at hrun
    exact hfailed hrun
  rw [if_neg hevent] at hrun
  cases hrun
  have h1 := inv_ctx A B started r T [x] _ _ pool c
    { r.ctx c with event := true, state := .again } h (fun _ => List.mem_cons_self)
  have h2 := inv_set_hand A B started _ T _ _ pool x { r.node x with
    expire := w.now+r.resendTimeout, cnlen := 0, naddrs := 0, valid := 0, waiting := some c } h1
    ⟨rfl,rfl⟩
  rw [if_neg nofun]
  refine ⟨T,inv_put_resend A B started _ T loose [] pool x _ (c::rest) ?_ (set_node_self ..)
    (fun hA => ⟨nofun,nofun,fun _ _ => hstale hA⟩) (fun hB => ?_) rfl⟩
  · rw [List.append_nil]
    exact inv_loose A B started _ T [x] _ _ pool _ h2
      ((node_blocks_hand x { r.node x with
        expire := w.now+r.resendTimeout, cnlen := 0, naddrs := 0, valid := 0,
        waiting := some c }).symm.append_right loose)
  · show Chain (links (r.setCtx c _)) (some c) (c::rest)
    rw [links_same r c { r.ctx c with event := true, state := .again } rfl]
    exact hc hB

theorem start_query_inv (fuel x c : ℕ) (rest : List ℕ) (w : World) (rc : Rc) (r' : Resolver)
    (h : Inv A B started r T [x] (handBlocks x (r.node x)++loose) (c::rest) pool)
    (hquery : (r.node x).query = none)
    (hstale : A → ∀ p, (r.node x).u.ptr = some p → r.ledger.closes p ≠ 0)
    (hfresh : ∀ p, w.allocQuery = some p → p ∉ r.ledger.opened)
    (hc : B → Chain (links r) (some c) (c::rest))
    (halone : B → rest = [] ∨ emptyLabel (r.ctx c).name = false)
    (hrun : startQuery fuel r x c w = some (rc, r')) :
    ∃ T', Inv A B started r' T' [] loose (if rc = .error then c::rest else []) pool := by
  rw [startQuery] at hrun
  cases hq : w.allocQuery with
  | none =>
    rw [hq] at hrun
    obtain ⟨hrc,hinv⟩ := failed_query_inv A B started r T loose _ pool fuel x rc r' h hrun
    rw [if_pos hrc]
    exact hinv
  | some p =>
    rw [hq] at hrun
    obtain ⟨rn,hrn⟩ : ∃ rn, rn = { r.node x with query := some (p, w.ident % 2^16) } := ⟨_,rfl⟩
    have hset := inv_set_hand A B started r T _ _ pool x rn h (by rw [hrn]; exact ⟨rfl,rfl⟩)
    have hopen := inv_open A B started _ T _ _ _ pool p hset (hfresh p hq)
    have hnode := set_node_self r x rn
    simp only [← hrn] at hrun
    refine send_query_inv A B started { r.setNode x rn with ledger := (r.setNode x rn).ledger.open p } T
      loose pool fuel x c rest w rc r' ?_ (fun hA => ?_) hc halone hrun
    · show Inv A B started _ T [x] (handBlocks x ((r.setNode x rn).node x)++loose) _ _
      rw [hnode, hrn]
      rw [handBlocks, hquery] at hopen
      rw [hrn] at hopen
      exact hopen
    · show ∀ q, ((r.setNode x rn).node x).u.ptr = some q → _
      rw [hnode, hrn]
      exact hstale hA

theorem inv_call (next : Option ℕ) (reply : Reply) (ws : List ℕ)
    (h : Inv A B started r T hand loose (ws++held) pool) (hws : B → Chain (links r) next ws) :
    Inv A B started (callHandlers r next reply) T hand loose held pool := by
  have hsame : ∃ running, callHandlers r next reply = { r with running := running } := by
    cases next <;> exact ⟨_,rfl⟩
  obtain ⟨running,hrun⟩ := hsame
  refine ⟨?_,fun hA => ?_,fun hB => ?_,?_⟩
  · rw [hrun]
    exact ⟨h.base.kept,h.base.queue,h.base.idle,h.base.flight,h.base.known⟩
  · rw [hrun]
    exact ⟨(h.blocks hA).tagged,(h.blocks hA).balanced,(h.blocks hA).wild⟩
  · obtain ⟨W,R,hch⟩ := h.chains hB
    obtain ⟨R',hch'⟩ := chains_call r W R held pool next reply ws hch (hws hB)
    exact ⟨W,R',hch'⟩
  · rw [hrun]
    exact h.started

/-- A change of the nodes that a lookup and the branches after it do not see. -/
structure Alike (r r' : Resolver) : Prop where
  rbtree : r'.rbtree = r.rbtree
  ledger : r'.ledger = r.ledger
  node : ∀ y, ∃ e, r'.node y = { r.node y with expire := e }

theorem touch_inv (x : ℕ) (now : ℤ) (r' : Resolver) (h : Inv A B started r T [] loose held pool)
    (hnow : 0 < now) (hvalid : now ≤ (r.node x).valid) (hrun : touch r x now = some r') :
    Inv A B started r' T [] loose held pool ∧ (r'.node x).waiting = none ∧ Alike r r' ∧
      r'.ctx = r.ctx := by
  obtain ⟨r1,hremove,rfl⟩ := Option.map_eq_some_iff.mp hrun
  obtain ⟨hx,rfl⟩ := queue_remove_eq r T x r1 h.base hremove
  have hidle := valid_idle r T x now h.base hx hnow hvalid
  obtain ⟨htag,hinv⟩ := inv_hand_idle A B started r T loose held pool x h hx hidle
  have hset := inv_set_hand A B started _ T _ _ pool x { r.node x with expire := now+r.expire } hinv
    ⟨rfl,rfl⟩
  refine ⟨inv_put_expire A B started _ T loose held pool x { r.node x with expire := now+r.expire } hset
    (set_node_self ..)
    (fun hA => ⟨(htag hA).cname,(htag hA).addrs,(htag hA).other⟩) hidle,?_,⟨rfl,rfl,fun y => ?_⟩,rfl⟩
  · show (((removed r x).setNode x { r.node x with expire := now+r.expire }).node x).waiting = none
    rw [set_node_self]
    exact hidle
  · by_cases hyx : y = x
    · subst hyx
      exact ⟨now+r.expire,set_node_self ..⟩
    · exact ⟨(r.node y).expire,set_node_of_ne (removed r x) x y _ hyx⟩

theorem answer_waiting_inv (x c : ℕ) (rest : List ℕ) (reply : Reply)
    (h : Inv A B started r T [] loose (c::rest) pool) (hidle : (r.node x).waiting = none)
    (halone : B → rest = []) :
    Inv A B started (answerWaiting r x c reply) T [] loose [] pool := by
  have hset := inv_ctx A B started r T [] loose _ pool c { r.ctx c with next := (r.node x).waiting } h
    (fun _ => List.mem_cons_self)
  have hsame : (r.setCtx c { r.ctx c with next := (r.node x).waiting }).setNode x
      { r.node x with waiting := none } = r.setCtx c { r.ctx c with next := (r.node x).waiting } := by
    have hnode : { r.node x with waiting := none } = r.node x := by rw [← hidle]
    rw [hnode, Resolver.setNode]
    show { r.setCtx c _ with node := Function.update r.node x (r.node x) } = _
    rw [Function.update_eq_self]
    rfl
  have hrun : answerWaiting r x c reply =
      callHandlers (r.setCtx c { r.ctx c with next := (r.node x).waiting }) (some c) reply := by
    rw [← hsame]
    rfl
  rw [hrun]
  refine inv_call A B started _ T [] loose [] pool (some c) reply (c::rest)
    (by rwa [List.append_nil]) (fun hB => ?_)
  rw [halone hB, links_set]
  refine ⟨rfl,?_⟩
  show Function.update (links r) c (r.node x).waiting c = none
  rw [Function.update_self, hidle]

theorem join_waiting_inv (x c : ℕ) (rest : List ℕ) (h : Inv A B started r T [] loose (c::rest) pool)
    (hx : x ∈ queued r) (hwait : (r.node x).waiting ≠ none) (halone : B → rest = []) :
    Inv A B started (joinWaiting r x c) T [] loose [] pool := by
  have hflight := waiting_flight r T x h.base hwait
  have hset := inv_ctx A B started r T [] loose _ pool c
    { r.ctx c with next := (r.node x).waiting, state := .again } h (fun _ => List.mem_cons_self)
  have hnode : ∀ y, y ≠ x → (joinWaiting r x c).node y = r.node y :=
    fun y hy => set_node_of_ne (r.setCtx c _) x y _ hy
  have hself : (joinWaiting r x c).node x = { r.node x with waiting := some c } :=
    set_node_self (r.setCtx c _) x _
  refine ⟨base_set_flight _ T x _ hset.base hflight ⟨rfl,rfl⟩ rfl,fun hA => ?_,fun hB => ?_,
    h.started⟩
  · have hb := h.blocks hA
    refine ⟨fun y hy => ?_,?_,hb.wild⟩
    · by_cases hyx : y = x
      · subst hyx
        rw [hself]
        exact ⟨(hb.tagged y hx).cname,(hb.tagged y hx).addrs,(hb.tagged y hx).other⟩
      · rw [hnode y hyx]
        exact hb.tagged y hy
    · have hsame : blocks (joinWaiting r x c) (queued r) = blocks r (queued r) := by
        refine List.flatMap_congr (fun y _ => ?_)
        by_cases hyx : y = x
        · subst hyx
          rw [hself]
          rfl
        · rw [hnode y hyx]
      show Balanced r.ledger (blocks (joinWaiting r x c) (queued r)++loose)
      rw [hsame]
      exact hb.balanced
  · obtain ⟨W,R,hch⟩ := h.chains hB
    rw [halone hB] at hch
    exact ⟨_,R,chains_join r W R [] pool x c hch (queued_nodup r T [] h.base) hx⟩

/-- What the allocator and the clock give to a call. Free memory holds no pointer to a block that
is in use. -/
structure Fresh (r : Resolver) (w : World) : Prop where
  now : 0 < w.now
  node : ∀ x garbage, w.alloc = some (x, garbage) → x ∉ r.ledger.opened ∧ x ≠ r.rbtree.sentinel ∧
    ∀ p, garbage.u.ptr = some p → r.ledger.closes p ≠ 0
  name : ∀ p, w.allocName = some p → p ∉ r.ledger.opened ∧
    ∀ x garbage, w.alloc = some (x, garbage) → p ≠ x
  query : ∀ p, w.allocQuery = some p → p ∉ r.ledger.opened ∧
    (∀ x garbage, w.alloc = some (x, garbage) → p ≠ x) ∧ ∀ q, w.allocName = some q → p ≠ q

theorem fresh_alike (r r' : Resolver) (w : World) (h : Fresh r w) (hr : r'.rbtree = r.rbtree)
    (hl : r'.ledger = r.ledger) : Fresh r' w := by
  refine ⟨h.now,?_,?_,?_⟩
  · rw [hr, hl]
    exact h.node
  · rw [hl]
    exact h.name
  · rw [hl]
    exact h.query

theorem new_node_inv (fuel c : ℕ) (rest : List ℕ) (w : World) (rc : Rc) (r' : Resolver)
    (h : Inv A B started r T [] loose (c::rest) pool) (hw : Fresh r w)
    (hc : B → Chain (links r) (some c) (c::rest))
    (halone : B → rest = [] ∨ emptyLabel (r.ctx c).name = false)
    (hrun : newNode fuel r c w = some (rc, r')) :
    ∃ T', Inv A B started r' T' [] loose (if rc = .error then c::rest else []) pool := by
  rw [newNode] at hrun
  cases halloc : w.alloc with
  | none =>
    rw [halloc] at hrun
    cases hrun
    exact ⟨T,h⟩
  | some entry =>
    obtain ⟨x,garbage⟩ := entry
    obtain ⟨hx,hs,hgarbage⟩ := hw.node x garbage halloc
    have hopen := inv_open A B started r T [] loose _ pool x h hx
    cases hname : w.allocName with
    | none =>
      rw [halloc, hname] at hrun
      cases hrun
      refine ⟨T,inv_frees A B started _ T [] _ _ pool loose _ hopen (frees_free _ x) (fun hA => ?_)⟩
      exact blocks_free _ loose x (hopen.blocks hA)
    | some p =>
      obtain ⟨hp,hpx⟩ := hw.name p hname
      rw [halloc, hname] at hrun
      obtain ⟨rn,hrn⟩ : ∃ rn, rn = { garbage with
        name := (r.ctx c).name, nameBlock := p, nlen := (r.ctx c).name.length % 2^16,
        query := none } := ⟨_,rfl⟩
      simp only [← hrn] at hrun
      obtain ⟨t,hinsert,hstart⟩ := Option.bind_eq_some_iff.mp hrun
      have hp' : p ∉ (r.ledger.open x).opened := by
        intro hm
        rcases List.mem_cons.mp hm with he | hm
        · exact hpx x garbage halloc he
        · exact hp hm
      obtain ⟨T1,hbase⟩ := base_insert r T fuel x (ngxCrc32Short (r.ctx c).name) rn
        ((r.ledger.open x).open p) t h.base hx hs
        (fun y hy => List.mem_cons_of_mem _ (List.mem_cons_of_mem _ hy))
        (List.mem_cons_of_mem _ List.mem_cons_self) hinsert
      have hqueue : x ∉ queued r := fun hm => hx (h.base.known x ((queued_mem r T x h.base).mp hm))
      have hnode : (r.setNode x rn).node x = rn := set_node_self ..
      have hopen2 := inv_open A B started _ T [] _ _ pool p hopen hp'
      refine start_query_inv A B started { r.setNode x rn with
        rbtree := t, ledger := (r.ledger.open x).open p } T1 loose pool fuel x c rest w rc r'
        ⟨hbase,fun hA => ?_,fun hB => ?_,h.started⟩ ?_ (fun hA => ?_) (fun q hq hm => ?_) hc halone
        hstart
      · have hset := blocks_set_hand _ x rn _ (hopen2.blocks hA) hqueue
        show Blocks _ (handBlocks x ((r.setNode x rn).node x)++loose)
        rw [hnode, hrn]
        rw [hrn] at hset
        exact ⟨hset.tagged,hset.balanced,hset.wild⟩
      · obtain ⟨W,R,hch⟩ := h.chains hB
        have hset := chains_set_hand r W R _ pool x rn hch hqueue
        exact ⟨W,R,hset.chain,hset.run,hset.all,hset.nodup⟩
      · show ((r.setNode x rn).node x).query = none
        rw [hnode, hrn]
      · show ∀ q, ((r.setNode x rn).node x).u.ptr = some q → r.ledger.closes q ≠ 0
        rw [hnode, hrn]
        exact hgarbage
      · obtain ⟨hq1,hq2,hq3⟩ := hw.query q hq
        rcases List.mem_cons.mp hm with he | hm
        · exact hq3 p hname he
        rcases List.mem_cons.mp hm with he | hm
        · exact hq2 x garbage halloc he
        · exact hq1 hm

def Finds (r : Resolver) (name : List ℕ) (found : Option ℕ) : Prop :=
  ∃ fuel, ngxResolverLookupName fuel r name = some found

/-- A query for a name goes out, and does not decline it unless one context waits alone. -/
structure QueryGoes (w : World) (event : Bool) (alone : Prop) (name : List ℕ) (x : ℕ) : Prop where
  alloc : w.allocQuery ≠ none
  declined : emptyLabel name = true → alone
  sent : emptyLabel name = false → w.send x = true ∧ (event = true ∨ w.allocEvent = true)

/-- The contexts of a chain all arrive, where a name leads them: `alone` says that there is one. -/
inductive Arrives (r : Resolver) (w : World) (event : Bool) (alone : Prop) : List ℕ → ℕ → Prop where
  | answered (name : List ℕ) (recursion x : ℕ) (hx : Finds r name (some x))
      (hv : w.now ≤ (r.node x).valid) (hn : (r.node x).naddrs ≠ 0) (ha : alone)
      (hdup : (r.node x).naddrs = 1 ∨ w.dup = true) : Arrives r w event alone name recursion
  | limit (name : List ℕ) (recursion x : ℕ) (hx : Finds r name (some x))
      (hv : w.now ≤ (r.node x).valid) (hn : (r.node x).naddrs = 0) (hr : 50 ≤ recursion) (ha : alone) :
      Arrives r w event alone name recursion
  | follow (name : List ℕ) (recursion x : ℕ) (hx : Finds r name (some x))
      (hv : w.now ≤ (r.node x).valid) (hn : (r.node x).naddrs = 0) (hr : recursion < 50)
      (h : Arrives r w event alone (nodeCname (r.node x) w.garbage).1 (recursion+1)) :
      Arrives r w event alone name recursion
  | joined (name : List ℕ) (recursion x : ℕ) (hx : Finds r name (some x))
      (hv : ¬ w.now ≤ (r.node x).valid) (hw : (r.node x).waiting ≠ none) (ha : alone) :
      Arrives r w event alone name recursion
  | query (name : List ℕ) (recursion x : ℕ) (hx : Finds r name (some x))
      (hv : ¬ w.now ≤ (r.node x).valid) (hw : (r.node x).waiting = none)
      (hq : QueryGoes w event alone name x) : Arrives r w event alone name recursion
  | absent (name : List ℕ) (recursion x : ℕ) (garbage : ResolverNode) (hx : Finds r name none)
      (hn : w.alloc = some (x, garbage)) (hname : w.allocName ≠ none)
      (hq : QueryGoes w event alone name x) : Arrives r w event alone name recursion

theorem finds_alike (r r' : Resolver) (name : List ℕ) (found : Option ℕ) (hr : r'.rbtree = r.rbtree)
    (hn : ∀ y, nodeName r' y = nodeName r y) (h : Finds r name found) : Finds r' name found := by
  obtain ⟨fuel,hrun⟩ := h
  refine ⟨fuel,?_⟩
  rw [ngxResolverLookupName, hr]
  simp only [hn]
  exact hrun

theorem alike_name (r r' : Resolver) (h : Alike r r') (y : ℕ) : nodeName r' y = nodeName r y := by
  obtain ⟨e,he⟩ := h.node y
  rw [nodeName, nodeName, he]

theorem arrives_alike (r r' : Resolver) (w : World) (event : Bool) (alone : Prop) (name : List ℕ)
    (recursion : ℕ) (hr : Alike r r') (h : Arrives r w event alone name recursion) :
    Arrives r' w event alone name recursion := by
  have hfinds : ∀ name found, Finds r name found → Finds r' name found :=
    fun name found hf => finds_alike r r' name found hr.rbtree (alike_name r r' hr) hf
  induction h with
  | answered name recursion x hx hv hn ha hdup =>
    obtain ⟨e,he⟩ := hr.node x
    exact Arrives.answered name recursion x (hfinds _ _ hx) (by rw [he]; exact hv)
      (by rw [he]; exact hn) ha (by rw [he]; exact hdup)
  | limit name recursion x hx hv hn hlimit ha =>
    obtain ⟨e,he⟩ := hr.node x
    exact Arrives.limit name recursion x (hfinds _ _ hx) (by rw [he]; exact hv)
      (by rw [he]; exact hn) hlimit ha
  | follow name recursion x hx hv hn hlimit _ ih =>
    obtain ⟨e,he⟩ := hr.node x
    exact Arrives.follow name recursion x (hfinds _ _ hx) (by rw [he]; exact hv)
      (by rw [he]; exact hn) hlimit (by rw [he]; exact ih)
  | joined name recursion x hx hv hwait ha =>
    obtain ⟨e,he⟩ := hr.node x
    exact Arrives.joined name recursion x (hfinds _ _ hx) (by rw [he]; exact hv)
      (by rw [he]; exact hwait) ha
  | query name recursion x hx hv hwait hq =>
    obtain ⟨e,he⟩ := hr.node x
    exact Arrives.query name recursion x (hfinds _ _ hx) (by rw [he]; exact hv)
      (by rw [he]; exact hwait) hq
  | absent name recursion x garbage hx hn hname hq =>
    exact Arrives.absent name recursion x garbage (hfinds _ _ hx) hn hname hq

theorem finds_agree (r : Resolver) (name : List ℕ) (found found' : Option ℕ) (h : Finds r name found)
    (h' : Finds r name found') : found = found' := by
  obtain ⟨m,hm⟩ := h
  obtain ⟨n,hn⟩ := h'
  exact Nginx.RbtreeKept.runs_agree (fun n => ngxResolverLookupName n r name)
    (fun n u hu => search_more _ _ n _ u hu) m n found found' hm hn

section Arrives
variable (w : World) (event : Bool) (alone : Prop) (name : List ℕ) (recursion x : ℕ)

theorem arrives_valid (h : Arrives r w event alone name recursion) (hx : Finds r name (some x))
    (hv : w.now ≤ (r.node x).valid) :
    ((r.node x).naddrs ≠ 0 → alone ∧ ((r.node x).naddrs = 1 ∨ w.dup = true)) ∧
      ((r.node x).naddrs = 0 → 50 ≤ recursion → alone) ∧
      ((r.node x).naddrs = 0 → recursion < 50 →
        Arrives r w event alone (nodeCname (r.node x) w.garbage).1 (recursion+1)) := by
  cases h with
  | answered _ _ y hy hvy hn ha hdup =>
    cases finds_agree r _ _ _ hx hy
    exact ⟨fun _ => ⟨ha,hdup⟩,fun hz => absurd hz hn,fun hz => absurd hz hn⟩
  | limit _ _ y hy hvy hn hr ha =>
    cases finds_agree r _ _ _ hx hy
    exact ⟨fun hz => absurd hn hz,fun _ _ => ha,fun _ hlt => absurd hr (Nat.not_le_of_lt hlt)⟩
  | follow _ _ y hy hvy hn hr h =>
    cases finds_agree r _ _ _ hx hy
    exact ⟨fun hz => absurd hn hz,fun _ hle => absurd hr (Nat.not_lt_of_le hle),fun _ _ => h⟩
  | joined _ _ y hy hvy =>
    cases finds_agree r _ _ _ hx hy
    exact absurd hv hvy
  | query _ _ y hy hvy =>
    cases finds_agree r _ _ _ hx hy
    exact absurd hv hvy
  | absent _ _ y garbage hy => cases finds_agree r _ _ _ hx hy

theorem arrives_stale (h : Arrives r w event alone name recursion) (hx : Finds r name (some x))
    (hv : ¬ w.now ≤ (r.node x).valid) : ((r.node x).waiting ≠ none → alone) ∧
      ((r.node x).waiting = none → QueryGoes w event alone name x) := by
  cases h with
  | answered _ _ y hy hvy =>
    cases finds_agree r _ _ _ hx hy
    exact absurd hvy hv
  | limit _ _ y hy hvy =>
    cases finds_agree r _ _ _ hx hy
    exact absurd hvy hv
  | follow _ _ y hy hvy =>
    cases finds_agree r _ _ _ hx hy
    exact absurd hvy hv
  | joined _ _ y hy hvy hw ha =>
    cases finds_agree r _ _ _ hx hy
    exact ⟨fun _ => ha,fun hz => absurd hz hw⟩
  | query _ _ y hy hvy hw hq =>
    cases finds_agree r _ _ _ hx hy
    exact ⟨fun hz => absurd hw hz,fun _ => hq⟩
  | absent _ _ y garbage hy => cases finds_agree r _ _ _ hx hy

theorem arrives_absent (h : Arrives r w event alone name recursion) (hx : Finds r name none) :
    ∃ y garbage, w.alloc = some (y, garbage) ∧ w.allocName ≠ none ∧ QueryGoes w event alone name y := by
  cases h with
  | answered _ _ y hy => cases finds_agree r _ _ _ hx hy
  | limit _ _ y hy => cases finds_agree r _ _ _ hx hy
  | follow _ _ y hy => cases finds_agree r _ _ _ hx hy
  | joined _ _ y hy => cases finds_agree r _ _ _ hx hy
  | query _ _ y hy => cases finds_agree r _ _ _ hx hy
  | absent _ _ y garbage hy hn hname hq => exact ⟨y,garbage,hn,hname,hq⟩

theorem query_goes_alone (hq : QueryGoes w event alone name x) : alone ∨ emptyLabel name = false := by
  by_cases hempty : emptyLabel name = true
  · exact Or.inl (hq.declined hempty)
  · exact Or.inr (by simpa using hempty)

end Arrives

theorem requery_inv (fuel x c : ℕ) (rest : List ℕ) (w : World) (rc : Rc) (r' : Resolver)
    (h : Inv A B started (removed r x) T [x] (nodeBlocks x (r.node x)++loose) (c::rest) pool)
    (htag : A → Tagged r.ledger (r.node x)) (hw : Fresh r w)
    (hc : B → Chain (links r) (some c) (c::rest))
    (halone : B → rest = [] ∨ emptyLabel (r.ctx c).name = false)
    (hrun : startQuery fuel ((freeAnswer (freeQuery (removed r x) (r.node x)) (r.node x)).setNode x
      { r.node x with query := none }) x c w = some (rc, r')) :
    ∃ T', Inv A B started r' T' [] loose (if rc = .error then c::rest else []) pool := by
  have hf1 := frees_free_query (removed r x) (r.node x)
  have hf := frees_trans _ _ _ hf1 (frees_free_answer (freeQuery (removed r x) (r.node x)) (r.node x))
  have htag1 : A → Tagged (freeQuery (removed r x) (r.node x)).ledger (r.node x) :=
    fun hA => free_query_tagged (removed r x) (r.node x) (r.node x) (htag hA)
  have hfreed := inv_frees A B started _ T [x] _ _ pool ([(r.node x).nameBlock, x]++loose) _ h hf
    (fun hA => by
      have hb := h.blocks hA
      have hassoc : nodeBlocks x (r.node x)++loose = (r.node x).query.toList.map Prod.fst++
          ((r.node x).nameBlock::(answerBlocks (r.node x)++[x])++loose) := List.append_assoc ..
      rw [hassoc] at hb
      refine blocks_free_answer _ (r.node x) _ (blocks_loose _ _ _
        (blocks_free_query _ (r.node x) _ hb) (List.perm_iff_count.mpr (fun a => ?_))) (htag1 hA)
      simp only [List.count_append, List.count_cons]
      omega)
  have hstale : A → ∀ p, (r.node x).u.ptr = some p →
      (freeAnswer (freeQuery (removed r x) (r.node x)) (r.node x)).ledger.closes p ≠ 0 :=
    fun hA => free_answer_stale _ (r.node x) (htag1 hA)
  generalize freeAnswer (freeQuery (removed r x) (r.node x)) (r.node x) = r2 at hrun hf hfreed hstale
  have hctx : r2.ctx = r.ctx := by
    rw [hf.same]
    rfl
  have hnode2 : r2.node = r.node := by
    rw [hf.same]
    rfl
  have hlinks : links (r2.setNode x { r.node x with query := none }) = links r := by
    funext d
    show (r2.ctx d).next = _
    rw [hctx, links]
  have hset := inv_set_hand A B started r2 T _ _ pool x { r.node x with query := none } hfreed
    (by rw [hnode2]; exact ⟨rfl,rfl⟩)
  have hnode := set_node_self r2 x { r.node x with query := none }
  refine start_query_inv A B started _ T loose pool fuel x c rest w rc r' ?_ ?_ (fun hA => ?_)
    (fun p hp => ?_) (fun hB => ?_) (fun hB => ?_) hrun
  · rw [hnode]
    exact hset
  · rw [hnode]
  · rw [hnode]
    exact hstale hA
  · show p ∉ r2.ledger.opened
    rw [hf.opened]
    exact (hw.query p hp).1
  · rw [hlinks]
    exact hc hB
  · show rest = [] ∨ emptyLabel (r2.ctx c).name = false
    rw [hctx]
    exact halone hB

/-- The contexts from `c` are taken to where the name of `c` leads them, or are still in hand. -/
theorem resolve_inv (fuel k c : ℕ) (rest : List ℕ) (w : World) (rc : Rc) (r' : Resolver)
    (h : Inv A B started r T [] loose (c::rest) pool) (hw : Fresh r w)
    (hc : B → Chain (links r) (some c) (c::rest))
    (halone : B → rest = [] ∨
      Arrives r w (r.ctx c).event (rest = []) (r.ctx c).name (r.ctx c).recursion)
    (hrun : ngxResolveNameLocked fuel w k r c = some (rc, r')) :
    ∃ T', Inv A B started r' T' [] loose (if rc = .error then c::rest else []) pool := by
  induction k generalizing r T with
  | zero => cases hrun
  | succ k ih =>
    rw [ngxResolveNameLocked] at hrun
    obtain ⟨found,hlookup,hrun⟩ := Option.bind_eq_some_iff.mp hrun
    have hfinds : Finds r (r.ctx c).name found := ⟨fuel,hlookup⟩
    cases found with
    | none =>
      refine new_node_inv A B started r T loose pool fuel c rest w rc r' h hw hc (fun hB => ?_) hrun
      rcases halone hB with hrest | harrives
      · exact Or.inl hrest
      · obtain ⟨y,garbage,-,-,hq⟩ := arrives_absent r w _ _ _ _ harrives hfinds
        exact query_goes_alone w _ _ _ y hq
    | some x =>
      have hx := lookup_queued r T fuel x _ h.base hlookup
      simp only at hrun
      by_cases hvalid : w.now ≤ (r.node x).valid
      · rw [if_pos hvalid] at hrun
        obtain ⟨r1,htouch,hrun⟩ := Option.bind_eq_some_iff.mp hrun
        obtain ⟨h1,hidle,halike,hctx⟩ := touch_inv A B started r T loose _ pool x w.now r1 h hw.now
          hvalid htouch
        have hlinks : links r1 = links r := by
          funext d
          rw [links, links, hctx]
        have hfollow : B → rest = [] ∨ _ := fun hB => (halone hB).imp id
          (fun harr => arrives_valid r w _ _ _ _ x harr hfinds hvalid)
        by_cases hn : (r.node x).naddrs ≠ 0
        · rw [if_pos hn] at hrun
          by_cases hdup : (r.node x).naddrs ≠ 1 ∧ w.dup = false
          · rw [if_pos hdup] at hrun
            cases hrun
            exact ⟨T,h1⟩
          rw [if_neg hdup] at hrun
          cases hrun
          exact ⟨T,answer_waiting_inv A B started r1 T loose pool x c rest _ h1 hidle
            (fun hB => (hfollow hB).elim id (fun hf => (hf.1 hn).1))⟩
        have hz := not_not.mp hn
        rw [if_neg hn] at hrun
        by_cases hrec : (r1.ctx c).recursion < 50
        · rw [if_pos hrec] at hrun
          obtain ⟨ctx1,hctx1⟩ : ∃ ctx1 : Ctx, ctx1 = { r1.ctx c with
            recursion := (r1.ctx c).recursion+1, name := (nodeCname (r.node x) w.garbage).1,
            nameBlock := (nodeCname (r.node x) w.garbage).2 } := ⟨_,rfl⟩
          have hrun' : ngxResolveNameLocked fuel w k (r1.setCtx c ctx1) c = some (rc, r') := by
            rw [hctx1]
            exact hrun
          refine ih (r1.setCtx c ctx1) T
            (inv_ctx A B started r1 T [] loose _ pool c ctx1 h1 (fun _ => List.mem_cons_self))
            (fresh_alike r _ w hw halike.rbtree halike.ledger) (fun hB => ?_) (fun hB => ?_) hrun'
          · rw [links_same r1 c ctx1 (by rw [hctx1]), hlinks]
            exact hc hB
          · rw [set_ctx_self, hctx1]
            refine (hfollow hB).imp id (fun hf => ?_)
            have harr := hf.2.2 hz (by rw [← hctx]; exact hrec)
            rw [hctx]
            exact arrives_alike r _ w _ _ _ _ ⟨halike.rbtree,halike.ledger,halike.node⟩ harr
        rw [if_neg hrec] at hrun
        cases hrun
        refine ⟨T,answer_waiting_inv A B started (r1.setCtx c _) T loose pool x c rest _
          (inv_ctx A B started r1 T [] loose _ pool c _ h1 (fun _ => List.mem_cons_self)) hidle
          (fun hB => (hfollow hB).elim id (fun hf => hf.2.1 hz ?_))⟩
        rw [← hctx]
        exact Nat.le_of_not_lt hrec
      rw [if_neg hvalid] at hrun
      have hstale : B → rest = [] ∨ _ := fun hB => (halone hB).imp id
        (fun harr => arrives_stale r w _ _ _ _ x harr hfinds hvalid)
      by_cases hwait : (r.node x).waiting ≠ none
      · rw [if_pos hwait] at hrun
        cases hrun
        exact ⟨T,join_waiting_inv A B started r T loose pool x c rest h hx hwait
          (fun hB => (hstale hB).elim id (fun hs => hs.1 hwait))⟩
      rw [if_neg hwait] at hrun
      have hidle := not_not.mp hwait
      obtain ⟨r1,hremove,hstart⟩ := Option.bind_eq_some_iff.mp hrun
      obtain ⟨-,rfl⟩ := queue_remove_eq r T x r1 h.base hremove
      obtain ⟨htag,h1⟩ := inv_hand_idle A B started r T loose _ pool x h hx hidle
      exact requery_inv A B started r T loose pool fuel x c rest w rc r' h1 htag hw hc
        (fun hB => (hstale hB).elim Or.inl
          (fun hs => query_goes_alone w _ _ _ x (hs.2 hidle))) hstart


theorem send_query_goes (fuel x c : ℕ) (w : World) (alone : Prop) (rc : Rc) (r' : Resolver)
    (hq : QueryGoes w (r.ctx c).event alone (r.ctx c).name x)
    (hrun : startQuery fuel r x c w = some (rc, r')) : rc ≠ .error := by
  rw [startQuery] at hrun
  cases hp : w.allocQuery with
  | none => exact absurd hp hq.alloc
  | some p =>
    rw [hp] at hrun
    simp only [sendQuery] at hrun
    by_cases hempty : emptyLabel (r.ctx c).name = true
    · have hrun := (if_pos hempty).symm.trans hrun
      obtain ⟨t,-,heq⟩ := Option.map_eq_some_iff.mp hrun
      cases heq
      exact nofun
    obtain ⟨hsend,hevent⟩ := hq.sent (by simpa using hempty)
    have hrun := (if_neg hempty).symm.trans hrun
    have hrun := (if_neg (by rw [hsend]; exact nofun)).symm.trans hrun
    have hno : ¬ ((r.ctx c).event = false ∧ w.allocEvent = false) := by
      rintro ⟨h1,h2⟩
      rw [h1, h2] at hevent
      exact hevent.elim nofun nofun
    have hrun := (if_neg hno).symm.trans hrun
    cases hrun
    exact nofun

theorem resolve_arrives (fuel k c : ℕ) (w : World) (alone : Prop) (rc : Rc) (r' : Resolver)
    (h : Inv A B started r T [] loose held pool) (hnow : 0 < w.now) (hheld : B → c ∈ held)
    (harr : Arrives r w (r.ctx c).event alone (r.ctx c).name (r.ctx c).recursion)
    (hrun : ngxResolveNameLocked fuel w k r c = some (rc, r')) : rc ≠ .error := by
  induction k generalizing r T with
  | zero => cases hrun
  | succ k ih =>
    rw [ngxResolveNameLocked] at hrun
    obtain ⟨found,hlookup,hrun⟩ := Option.bind_eq_some_iff.mp hrun
    have hfinds : Finds r (r.ctx c).name found := ⟨fuel,hlookup⟩
    cases found with
    | none =>
      obtain ⟨x,garbage,halloc,hname,hq⟩ := arrives_absent r w _ _ _ _ harr hfinds
      simp only [newNode, halloc] at hrun
      cases hp : w.allocName with
      | none => exact absurd hp hname
      | some p =>
        rw [hp] at hrun
        obtain ⟨t,-,hstart⟩ := Option.bind_eq_some_iff.mp hrun
        refine send_query_goes _ fuel x c w alone rc r' ?_ hstart
        exact hq
    | some x =>
      simp only at hrun
      by_cases hvalid : w.now ≤ (r.node x).valid
      · obtain ⟨h1,-,h3⟩ := arrives_valid r w _ _ _ _ x harr hfinds hvalid
        rw [if_pos hvalid] at hrun
        obtain ⟨r1,htouch,hrun⟩ := Option.bind_eq_some_iff.mp hrun
        obtain ⟨hinv,-,halike,hctx⟩ := touch_inv A B started r T loose _ pool x w.now r1 h hnow
          hvalid htouch
        by_cases hn : (r.node x).naddrs ≠ 0
        · have hdup : ¬ ((r.node x).naddrs ≠ 1 ∧ w.dup = false) := by
            rintro ⟨hne,hfalse⟩
            rcases (h1 hn).2 with hone | htrue
            · exact hne hone
            · exact absurd (htrue.symm.trans hfalse) (by decide)
          rw [if_pos hn, if_neg hdup] at hrun
          cases hrun
          exact nofun
        have hz := not_not.mp hn
        rw [if_neg hn] at hrun
        by_cases hrec : (r1.ctx c).recursion < 50
        · rw [if_pos hrec] at hrun
          obtain ⟨ctx1,hctx1⟩ : ∃ ctx1 : Ctx, ctx1 = { r1.ctx c with
            recursion := (r1.ctx c).recursion+1, name := (nodeCname (r.node x) w.garbage).1,
            nameBlock := (nodeCname (r.node x) w.garbage).2 } := ⟨_,rfl⟩
          have hrun' : ngxResolveNameLocked fuel w k (r1.setCtx c ctx1) c = some (rc, r') := by
            rw [hctx1]
            exact hrun
          refine ih (r1.setCtx c ctx1) T (inv_ctx A B started r1 T [] loose _ pool c ctx1 hinv hheld)
            ?_ hrun'
          rw [set_ctx_self, hctx1]
          have hlast := h3 hz (by rw [← hctx]; exact hrec)
          rw [hctx]
          exact arrives_alike r _ w _ _ _ _ ⟨halike.rbtree,halike.ledger,halike.node⟩ hlast
        rw [if_neg hrec] at hrun
        cases hrun
        exact nofun
      obtain ⟨-,h2⟩ := arrives_stale r w _ _ _ _ x harr hfinds hvalid
      rw [if_neg hvalid] at hrun
      by_cases hwait : (r.node x).waiting ≠ none
      · rw [if_pos hwait] at hrun
        cases hrun
        exact nofun
      rw [if_neg hwait] at hrun
      obtain ⟨r1,hremove,hstart⟩ := Option.bind_eq_some_iff.mp hrun
      have hq := h2 (not_not.mp hwait)
      obtain ⟨-,rfl⟩ := queue_remove_eq r T x r1 h.base hremove
      have hf := frees_trans _ _ _ (frees_free_query (removed r x) (r.node x))
        (frees_free_answer (freeQuery (removed r x) (r.node x)) (r.node x))
      generalize freeAnswer (freeQuery (removed r x) (r.node x)) (r.node x) = r2 at hstart hf
      have hctx : r2.ctx = r.ctx := by
        rw [hf.same]
        rfl
      refine send_query_goes (r2.setNode x { r.node x with query := none }) fuel x c w alone rc r' ?_
        hstart
      show QueryGoes w (r2.ctx c).event alone (r2.ctx c).name x
      rw [hctx]
      exact hq

end Calls

end Nginx.ResolverCalls
