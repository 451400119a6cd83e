import Nginx.ResolverResponses
import Nginx.Runs
import Nginx.RbtreeLaw

/-!
# What holds in the resolver

Requests resolve names and cancel, contexts time out, responses come in and the queries are
sent again, in any order, and handlers run in between. The nodes keep their blocks while
every answer comes to a node that it does not overwrite, and the contexts are kept while
every alias leads all that follow it to a place where they wait.
-/

set_option autoImplicit false

namespace Nginx.ResolverLaw
open Nginx.RedBlackTree Nginx.NgxRbtree Nginx.RbtreeShape Nginx.RbtreeKept Nginx.RbtreeLaw
open Nginx.LinkedChain Nginx.Ledger Nginx.ResolverNames Nginx.ResolverQueues Nginx.ResolverBlocks
open Nginx.ResolverWaiting Nginx.ResolverCalls Nginx.ResolverResponses

inductive Call where
  | resolveName (c : ℕ) (name : List ℕ) (w : World)
  | response (res : Response) (w : World)
  | resend (w : World)
  | nameDone (c : ℕ) (w : World)
  | timeout (c : ℕ) (w : World)
  | handler

def run (fuel : ℕ) (r : Resolver) : Call → Option Resolver
  | .resolveName c name w => ngxResolveName fuel r c name w
  | .response res w => ngxResolverProcessA fuel r res w
  | .resend w => ngxResolverResend fuel w fuel r
  | .nameDone c w => ngxResolveNameDone fuel r c w
  | .timeout c w => ngxResolverTimeoutHandler fuel r c w
  | .handler => callNext r

/-- The counts of a response have 16 bits, and its names are shorter than it. -/
structure Readable (res : Response) : Prop where
  answers : res.answers.length < 2^16
  names : ∀ name, Answer.cname (some name) ∈ res.answers → name.length < 2^16

/-- A context is resolved once, and events do not interrupt a loop over handlers. -/
def Possible (r : Resolver) : Call → Prop
  | .resolveName c _ w => c ∉ r.started ∧ Valid r w
  | .response res w => r.running = [] ∧ Valid r w ∧ Readable res
  | .resend _ => r.running = []
  | .nameDone c _ => c ∈ r.started ∧ (r.ctx c).state ≠ .timedOut
  | .timeout c _ => r.running = [] ∧ c ∈ r.started ∧ (r.ctx c).state = .again ∧ (r.ctx c).event = true
  | .handler => True

structure Taken (r : Resolver) (res : Response) (x : ℕ) : Prop where
  name : ∃ name, res.name = some name ∧ Finds r name (some x)
  ident : ∃ p, (r.node x).query = some (p, res.ident)
  code : res.code = 0

def Fits (r : Resolver) : Call → Prop
  | .response res w => ∀ x, Taken r res x → ∀ naddrs addr cname,
      scanAnswers res.answers (0, 0, none) = some (naddrs, addr, cname) →
        AnswerFits (r.node x) w naddrs cname
  | .resend w => Resends r w
  | _ => True

def Keeps (r : Resolver) : Call → Prop
  | .response res w => ∀ x, Taken r res x → ∀ addr name,
      scanAnswers res.answers (0, 0, none) = some (0, addr, some (some name)) → Follows r x name w
  | .resend w => Resends r w
  | .nameDone c w => (r.ctx c).state = .again → Waits r c w
  | .timeout c w => Waits r c w
  | _ => True

inductive Reached (cond : Resolver → Call → Prop) : Resolver → Prop where
  | create (nodes : ℕ → Node) (sentinel : ℕ) (node : ℕ → ResolverNode) (ctx : ℕ → Ctx) (valid : ℕ) :
      Reached cond (ngxResolverCreate nodes sentinel node ctx valid)
  | step (r r' : Resolver) (call : Call) (fuel : ℕ) (h : Reached cond r) (hp : Possible r call)
      (hc : cond r call) (hrun : run fuel r call = some r') : Reached cond r'

theorem scan_answers_spec (answers : List Answer) (res res' : ℕ × ℕ × Option (Option (List ℕ)))
    (hrun : scanAnswers answers res = some res') : res'.1 ≤ res.1+answers.length ∧
      (res'.2.2 = res.2.2 ∨ ∃ name, res'.2.2 = some name ∧ Answer.cname name ∈ answers) := by
  induction answers generalizing res with
  | nil =>
    cases hrun
    exact ⟨Nat.le_refl _,Or.inl rfl⟩
  | cons answer answers ih =>
    obtain ⟨naddrs,addr,cname⟩ := res
    have hlift : ∀ c : Option (Option (List ℕ)), (res'.2.2 = c ∨
        ∃ name, res'.2.2 = some name ∧ Answer.cname name ∈ answers) → (res'.2.2 = c ∨
        ∃ name, res'.2.2 = some name ∧ Answer.cname name ∈ answer::answers) := by
      rintro c (h | ⟨name,h,hm⟩)
      · exact Or.inl h
      · exact Or.inr ⟨name,h,List.mem_cons_of_mem _ hm⟩
    cases answer with
    | a addr' =>
      obtain ⟨h1,h2⟩ := ih _ hrun
      simp only [List.length_cons] at h1 ⊢
      exact ⟨by omega,hlift cname h2⟩
    | cname name =>
      obtain ⟨h1,h2⟩ := ih _ hrun
      simp only [List.length_cons] at h1 ⊢
      refine ⟨by omega,Or.inr ?_⟩
      rcases h2 with h2 | ⟨name',h2,hm⟩
      · exact ⟨name,h2,List.mem_cons_self⟩
      · exact ⟨name',h2,List.mem_cons_of_mem _ hm⟩
    | dname =>
      obtain ⟨h1,h2⟩ := ih _ hrun
      simp only [List.length_cons] at h1 ⊢
      exact ⟨by omega,hlift cname h2⟩
    | other =>
      obtain ⟨h1,h2⟩ := ih _ hrun
      simp only [List.length_cons] at h1 ⊢
      exact ⟨by omega,hlift cname h2⟩
    | short => cases hrun
    | invalid => cases hrun

section Steps
variable (A B : Prop) (started : List ℕ) (r : Resolver) (T : RedBlackTree.Tree ℕ)

variable (fuel x : ℕ)

theorem process_node_inv (res : Response) (w : World) (r' : Resolver)
    (h : Inv A B started r T [] [] [] started) (hw : Valid r w) (hres : Readable res)
    (hfits : A → res.code = 0 → ∀ naddrs addr cname, scanAnswers res.answers (0, 0, none) = some
      (naddrs, addr, cname) → AnswerFits (r.node x) w naddrs cname)
    (hkept : B → res.code = 0 → ∀ addr name, scanAnswers res.answers (0, 0, none) = some (0, addr,
      some (some name)) → Follows r x name w) (hrun : processNode fuel r x res w = some r') :
    ∃ T', Inv A B started r' T' [] [] [] started := by
  rw [processNode] at hrun
  obtain ⟨code,hcode⟩ : ∃ code, code = if res.code = 0 ∧ res.answers.length = 0 then 3
    else res.code := ⟨_,rfl⟩
  rw [← hcode] at hrun
  by_cases herror : code ≠ 0
  · rw [if_pos herror] at hrun
    exact process_error_inv A B started r T [] [] started x fuel code r' h hrun
  rw [if_neg herror] at hrun
  have hzero : res.code = 0 := by
    split_ifs at hcode with hempty
    · exact hempty.1
    · omega
  cases hscan : scanAnswers res.answers (0, 0, none) with
  | none =>
    rw [hscan] at hrun
    cases hrun
    exact ⟨T,h⟩
  | some found =>
    obtain ⟨naddrs,addr,cname⟩ := found
    obtain ⟨hle,hname⟩ := scan_answers_spec res.answers _ _ hscan
    have hanswers := hres.answers
    simp only [Nat.zero_add] at hle hname
    rw [hscan] at hrun
    simp only at hrun
    by_cases hn : naddrs ≠ 0
    · rw [if_pos hn] at hrun
      refine process_addrs_inv A B started r T [] [] started x w naddrs addr res.addrs r' h hn
        (by omega) (fun hA => ?_) hw.addrs hrun
      have hfit := hfits hA hzero naddrs addr cname hscan
      exact ⟨hfit.addr,hfit.addrs,fun hz => absurd hz hn⟩
    have hz := not_not.mp hn
    subst hz
    rw [if_neg hn] at hrun
    cases cname with
    | none =>
      cases hrun
      exact ⟨T,h⟩
    | some copied =>
      cases copied with
      | none =>
        cases hrun
        exact ⟨T,h⟩
      | some name =>
        have hmem : Answer.cname (some name) ∈ res.answers := by
          rcases hname with hname | ⟨name',hname,hm⟩
          · cases hname
          · cases hname
            exact hm
        exact process_cname_inv A B started r T [] started x w fuel name r' h hw
          (hres.names name hmem) (fun hA => hfits hA hzero 0 addr _ hscan)
          (fun hB => hkept hB hzero addr name hscan) hrun

theorem process_a_inv (res : Response) (w : World) (r' : Resolver)
    (h : Inv A B started r T [] [] [] started) (hw : Valid r w) (hres : Readable res)
    (hfits : A → Fits r (.response res w)) (hkept : B → Keeps r (.response res w))
    (hrun : ngxResolverProcessA fuel r res w = some r') :
    ∃ T', Inv A B started r' T' [] [] [] started := by
  rw [ngxResolverProcessA] at hrun
  cases hname : res.name with
  | none =>
    rw [hname] at hrun
    cases hrun
    exact ⟨T,h⟩
  | some name =>
    rw [hname] at hrun
    obtain ⟨found,hlookup,hrun⟩ := Option.bind_eq_some_iff.mp hrun
    cases found with
    | none =>
      cases hrun
      exact ⟨T,h⟩
    | some x =>
      simp only at hrun
      cases hquery : (r.node x).query with
      | none =>
        rw [hquery] at hrun
        cases hrun
        exact ⟨T,h⟩
      | some q =>
        obtain ⟨p,ident⟩ := q
        rw [hquery] at hrun
        simp only at hrun
        by_cases hident : res.ident = ident
        · rw [if_pos hident] at hrun
          have htaken : res.code = 0 → Taken r res x :=
            fun hcode => ⟨⟨name,hname,fuel,hlookup⟩,⟨p,by rw [hident]; exact hquery⟩,hcode⟩
          exact process_node_inv A B started r T fuel x res w r' h hw hres
            (fun hA hcode => hfits hA x (htaken hcode)) (fun hB hcode => hkept hB x (htaken hcode)) hrun
        rw [if_neg hident] at hrun
        cases hrun
        exact ⟨T,h⟩

theorem resolve_name_inv (c : ℕ) (name : List ℕ) (w : World) (r' : Resolver)
    (h : Inv A B started r T [] [] [] started) (hc : c ∉ started) (hw : Valid r w)
    (hrun : ngxResolveName fuel r c name w = some r') :
    ∃ T', Inv A B r'.started r' T' [] [] [] r'.started := by
  obtain ⟨⟨rc,r1⟩,hresolve,rfl⟩ := Option.map_eq_some_iff.mp hrun
  have hold : Inv A B started r T [] [] [c] (c::started) := by
    refine ⟨h.base,h.blocks,fun hB => ?_,h.started⟩
    obtain ⟨W,R,hch⟩ := h.chains hB
    refine ⟨W,R,hch.chain,hch.run,?_,List.nodup_cons.mpr ⟨hc,hch.nodup⟩⟩
    refine List.Perm.trans (List.perm_iff_count.mpr (fun a => ?_)) (hch.all.cons c)
    simp only [List.count_append, List.count_cons, List.count_nil]
    omega
  have hset := inv_ctx A B started r T [] [] _ _ c ⟨none,name,none,0,.ok,false,[]⟩ hold
    (fun _ => List.mem_cons_self)
  obtain ⟨T',h1⟩ := resolve_inv A B started _ T [] _ fuel 52 c [] w rc r1 hset
    (fresh_alike r _ w hw.fresh rfl rfl) (fun _ => ⟨rfl,by
      rw [links_set, Function.update_self]
      exact rfl⟩) (fun _ => Or.inl rfl) hresolve
  refine ⟨T',?_⟩
  simp only
  by_cases hrc : rc = .error
  · rw [if_pos hrc] at h1 ⊢
    rw [h1.started]
    refine ⟨h1.base,h1.blocks,fun hB => ?_,h1.started⟩
    obtain ⟨W,R,hch⟩ := h1.chains hB
    refine ⟨W,R,hch.chain,hch.run,?_,(List.nodup_cons.mp hch.nodup).2⟩
    refine List.Perm.cons_inv (a := c) (List.Perm.trans (List.perm_iff_count.mpr (fun a => ?_)) hch.all)
    simp only [List.count_append, List.count_cons, List.count_nil]
    omega
  rw [if_neg hrc] at h1 ⊢
  show Inv A B (c::r1.started) { r1 with started := c::r1.started } T' [] [] [] (c::r1.started)
  rw [h1.started]
  refine ⟨⟨h1.base.kept,h1.base.queue,h1.base.idle,h1.base.flight,h1.base.known⟩,
    fun hA => ⟨(h1.blocks hA).tagged,(h1.blocks hA).balanced,(h1.blocks hA).wild⟩,fun hB => ?_,rfl⟩
  obtain ⟨W,R,hch⟩ := h1.chains hB
  exact ⟨W,R,hch.chain,hch.run,hch.all,hch.nodup⟩

variable (r' : Resolver)

theorem run_inv (call : Call) (h : Inv A B r.started r T [] [] [] r.started) (hp : Possible r call)
    (hs : ∀ w, call = .resend w → Resends r w) (hfits : A → Fits r call) (hkept : B → Keeps r call)
    (hrun : run fuel r call = some r') : ∃ T', Inv A B r'.started r' T' [] [] [] r'.started := by
  have hend : (∃ T', Inv A B r.started r' T' [] [] [] r.started) →
      ∃ T', Inv A B r'.started r' T' [] [] [] r'.started := by
    rintro ⟨T',h'⟩
    refine ⟨T',?_⟩
    rw [h'.started]
    exact h'
  cases call with
  | resolveName c name w => exact resolve_name_inv A B r.started r T fuel c name w r' h hp.1 hp.2 hrun
  | response res w =>
    exact hend (process_a_inv A B r.started r T fuel res w r' h hp.2.1 hp.2.2 hfits hkept hrun)
  | resend w => exact hend (resend_inv A B r.started r T [] [] _ fuel fuel w r' h (hs w rfl) hrun)
  | nameDone c w => exact hend (name_done_inv A B r.started r T [] [] _ fuel c w r' h hp.2 hkept hrun)
  | timeout c w => exact hend (timeout_inv A B r.started r T [] [] _ fuel c w r' h hkept hrun)
  | handler => exact hend ⟨T,call_next_inv A B r.started r T [] [] _ r' h hrun⟩

theorem create_inv (nodes : ℕ → Node) (sentinel : ℕ) (node : ℕ → ResolverNode) (ctx : ℕ → Ctx)
    (valid : ℕ) : Inv A B [] (ngxResolverCreate nodes sentinel node ctx valid) .leaf [] [] [] [] :=
  ⟨⟨kept_init nodes sentinel _,List.Perm.nil,nofun,nofun,nofun⟩,
    fun _ => ⟨nofun,⟨List.nodup_nil,nofun,fun _ _ => rfl,nofun⟩,rfl⟩,
    fun _ => ⟨fun _ => [],[],nofun,List.Forall₂.nil,List.Perm.nil,List.nodup_nil⟩,rfl⟩

theorem reached_fits (h : Reached Fits r) : ∃ T, Inv True False r.started r T [] [] [] r.started := by
  induction h with
  | create nodes sentinel node ctx valid => exact ⟨.leaf,create_inv _ _ nodes sentinel node ctx valid⟩
  | step r r' call fuel _ hp hc hrun ih =>
    obtain ⟨T,hT⟩ := ih
    exact run_inv True False r T fuel r' call hT hp (fun w hw => by subst hw; exact hc) (fun _ => hc)
      False.elim hrun

theorem reached_kept (h : Reached Keeps r) : ∃ T, Inv False True r.started r T [] [] [] r.started := by
  induction h with
  | create nodes sentinel node ctx valid => exact ⟨.leaf,create_inv _ _ nodes sentinel node ctx valid⟩
  | step r r' call fuel _ hp hc hrun ih =>
    obtain ⟨T,hT⟩ := ih
    exact run_inv False True r T fuel r' call hT hp (fun w hw => by subst hw; exact hc) False.elim
      (fun _ => hc) hrun

end Steps

def Live (r : Resolver) (p : ℕ) : Prop := p ∈ r.ledger.opened ∧ r.ledger.closes p = 0

/-- The nodes `xs` of the tree hold in their unions what the lengths say, and every other block
that has been allocated has been freed once. A node is freed with the blocks it holds. -/
structure NodesLaw (r : Resolver) (xs : List ℕ) : Prop where
  tree : InOrder r.rbtree r.rbtree.root xs
  one : ∀ x ∈ xs, ¬ (0 < (r.node x).cnlen ∧ 0 < (r.node x).naddrs)
  cname : ∀ x ∈ xs, (∃ p name, (r.node x).u = .cname p name ∧ Live r p) ↔ 0 < (r.node x).cnlen
  addrs : ∀ x ∈ xs, (∃ p addrs, (r.node x).u = .addrs p addrs ∧ Live r p) ↔ 1 < (r.node x).naddrs
  held : ∀ x ∈ xs, ∀ p ∈ nodeBlocks x (r.node x), Live r p
  freed : ∀ p ∈ r.ledger.opened, (∀ x ∈ xs, p ∉ nodeBlocks x (r.node x)) → r.ledger.closes p = 1
  wild : r.wild = 0
  free : ∀ x ∈ xs, (ngxResolverFreeNode r x).wild = 0 ∧ ∀ p, (ngxResolverFreeNode r x).ledger.closes p =
    if p ∈ nodeBlocks x (r.node x) then 1 else r.ledger.closes p

def withQueues (r : Resolver) (resend expire : List ℕ) : Resolver :=
  { r with nameResendQueue := resend, nameExpireQueue := expire }

variable (r : Resolver)

theorem free_union_queues (resend expire : List ℕ) (u : Union) :
    freeUnion (withQueues r resend expire) u = withQueues (freeUnion r u) resend expire := by
  cases u <;> rfl

theorem free_answer_queues (resend expire : List ℕ) (rn : ResolverNode) :
    freeAnswer (withQueues r resend expire) rn = withQueues (freeAnswer r rn) resend expire := by
  rw [freeAnswer, freeAnswer]
  by_cases hc : rn.cnlen ≠ 0
  · rw [if_pos hc, if_pos hc, free_union_queues]
    by_cases hn : rn.naddrs > 1
    · rw [if_pos hn, if_pos hn, free_union_queues]
    · rw [if_neg hn, if_neg hn]
  rw [if_neg hc, if_neg hc]
  by_cases hn : rn.naddrs > 1
  · rw [if_pos hn, if_pos hn, free_union_queues]
  · rw [if_neg hn, if_neg hn]

theorem free_node_queues (r : Resolver) (resend expire : List ℕ) (x : ℕ) :
    ngxResolverFreeNode (withQueues r resend expire) x = withQueues (ngxResolverFreeNode r x) resend expire := by
  have hquery : freeQuery (withQueues r resend expire) (r.node x) =
      withQueues (freeQuery r (r.node x)) resend expire := by
    rw [freeQuery, freeQuery]
    cases (r.node x).query <;> rfl
  rw [ngxResolverFreeNode, ngxResolverFreeNode]
  show Resolver.free (freeAnswer (Resolver.free (freeQuery (withQueues r resend expire) (r.node x)) _) _) x = _
  rw [hquery]
  show Resolver.free (freeAnswer (withQueues (Resolver.free (freeQuery r (r.node x)) _) resend expire) _) x = _
  rw [free_answer_queues]
  rfl

theorem inv_nodes_law (T : RedBlackTree.Tree ℕ) (started pool : List ℕ)
    (h : Inv True False started r T [] [] [] pool) : NodesLaw r T.ids := by
  obtain ⟨⟨above,hat⟩,hsound,-⟩ := h.base.kept
  have hb := h.blocks trivial
  have hbal := hb.balanced
  rw [List.append_nil] at hbal
  have hq : ∀ x, x ∈ queued r ↔ x ∈ T.ids := fun x => queued_mem r T x h.base
  have hheld : ∀ x ∈ T.ids, ∀ p ∈ nodeBlocks x (r.node x), Live r p := by
    intro x hx p hp
    have hmem : p ∈ blocks r (queued r) := List.mem_flatMap.mpr ⟨x,(hq x).mpr hx,hp⟩
    exact ⟨hbal.known p hmem,hbal.unclosed p (Or.inl hmem)⟩
  have hanswer : ∀ x p, (r.node x).u.ptr = some p → (0 < (r.node x).cnlen ∨ 1 < (r.node x).naddrs) →
      p ∈ nodeBlocks x (r.node x) := by
    intro x p hp hlen
    rw [nodeBlocks, answerBlocks, if_pos hlen, hp]
    simp
  refine ⟨(holds_balanced _ above T hat hsound).inOrder,fun x hx => ?_,fun x hx => ?_,fun x hx => ?_,
    hheld,fun p hp hno => ?_,hb.wild,fun x hx => ?_⟩
  · rintro ⟨hc,hn⟩
    have hzero := ((hb.tagged x ((hq x).mpr hx)).cname hc).1
    omega
  · have htag := hb.tagged x ((hq x).mpr hx)
    constructor
    · rintro ⟨p,name,hu,hlive⟩
      by_contra hc
      by_cases hn : 1 < (r.node x).naddrs
      · obtain ⟨q,addrs,hu'⟩ := htag.addrs hn
        rw [hu] at hu'
        cases hu'
      · exact htag.other (by omega) (by omega) p (by rw [hu]; rfl) hlive.2
    · intro hc
      obtain ⟨-,p,name,hu⟩ := htag.cname hc
      exact ⟨p,name,hu,hheld x hx p (hanswer x p (by rw [hu]; rfl) (Or.inl hc))⟩
  · have htag := hb.tagged x ((hq x).mpr hx)
    constructor
    · rintro ⟨p,addrs,hu,hlive⟩
      by_contra hn
      by_cases hc : 0 < (r.node x).cnlen
      · obtain ⟨-,q,name,hu'⟩ := htag.cname hc
        rw [hu] at hu'
        cases hu'
      · exact htag.other (by omega) (by omega) p (by rw [hu]; rfl) hlive.2
    · intro hn
      obtain ⟨p,addrs,hu⟩ := htag.addrs hn
      exact ⟨p,addrs,hu,hheld x hx p (hanswer x p (by rw [hu]; rfl) (Or.inr hn))⟩
  · refine hbal.closed p hp (fun hm => ?_)
    obtain ⟨x,hx,hpx⟩ := List.mem_flatMap.mp hm
    exact hno x ((hq x).mp hx) hpx
  · have hnodup := queued_nodup r T [] h.base
    have hxq := (hq x).mpr hx
    obtain ⟨hrest,htag⟩ := blocks_remove r x [] hb hnodup hxq
    have hfree := blocks_free_node (removed r x) x [] hrest htag
    have hfrees := frees_free_node r x
    have hqueues := free_node_queues r (r.nameResendQueue.erase x) (r.nameExpireQueue.erase x) x
    change ngxResolverFreeNode (removed r x) x = _ at hqueues
    rw [hqueues] at hfree
    refine ⟨hfree.wild,fun p => ?_⟩
    have hafter := hfree.balanced
    rw [List.append_nil] at hafter
    have hperm := queued_removed r x hnodup hxq
    have hblocks : (blocks r (queued r)).Perm (nodeBlocks x (r.node x)++blocks r (queued (removed r x))) :=
      hperm.flatMap_right _
    have hrestBlocks : blocks (withQueues (ngxResolverFreeNode r x) (r.nameResendQueue.erase x)
        (r.nameExpireQueue.erase x)) (queued (removed r x)) = blocks r (queued (removed r x)) := by
      refine List.flatMap_congr (fun y _ => ?_)
      show nodeBlocks y ((ngxResolverFreeNode r x).node y) = _
      rw [hfrees.same]
    have hopened : (ngxResolverFreeNode r x).ledger.opened = r.ledger.opened := hfrees.opened
    change Balanced (ngxResolverFreeNode r x).ledger (blocks _ (queued (removed r x))) at hafter
    rw [hrestBlocks] at hafter
    have hsplit := List.nodup_append'.mp (hblocks.nodup_iff.mp hbal.distinct)
    by_cases hp : p ∈ nodeBlocks x (r.node x)
    · rw [if_pos hp]
      refine hafter.closed p ?_ (fun hm => hsplit.2.2 hp hm)
      rw [hopened]
      exact (hheld x hx p hp).1
    rw [if_neg hp]
    by_cases hm : p ∈ blocks r (queued (removed r x))
    · rw [hafter.unclosed p (Or.inl hm),
        hbal.unclosed p (Or.inl (hblocks.mem_iff.mpr (List.mem_append_right _ hm)))]
    by_cases ho : p ∈ r.ledger.opened
    · rw [hafter.closed p (hopened ▸ ho) hm]
      refine (hbal.closed p ho (fun hall => ?_)).symm
      exact (List.mem_append.mp (hblocks.mem_iff.mp hall)).elim hp hm
    · rw [hafter.unclosed p (Or.inr (hopened ▸ ho)), hbal.unclosed p (Or.inr ho)]

/-- While answers come to nodes that they do not overwrite, every node of the tree holds what
its lengths say. -/
theorem resolver_nodes_law (r : Resolver) (h : Reached Fits r) : ∃ xs, NodesLaw r xs := by
  obtain ⟨T,hT⟩ := reached_fits r h
  exact ⟨T.ids,inv_nodes_law r T _ _ hT⟩

def callAll : ℕ → Resolver → Option Resolver
  | 0, r => some r
  | n+1, r => (callNext r).bind (callAll n)

theorem call_all_chain (next : Option ℕ) (reply : Reply) (ws : List ℕ) (h : Chain (links r) next ws)
    (hnodup : ws.Nodup) :
    ∃ r', callAll ws.length (callHandlers r next reply) = some r' ∧ r'.running = r.running ∧
      r'.called = ws.reverse++r.called ∧ (∀ c, c ∉ ws → r'.ctx c = r.ctx c) ∧
      ∀ c ∈ ws, (r'.ctx c).state = reply.state := by
  induction ws generalizing r next with
  | nil =>
    cases h
    exact ⟨r,rfl,rfl,rfl,fun _ _ => rfl,nofun⟩
  | cons c ws ih =>
    obtain ⟨rfl,hws⟩ := h
    obtain ⟨hc,hnodup⟩ := List.nodup_cons.mp hnodup
    obtain ⟨ctx,hctx⟩ : ∃ ctx : Ctx, ctx = { r.ctx c with
      state := reply.state, addrs := reply.addrs.getD (r.ctx c).addrs } := ⟨_,rfl⟩
    obtain ⟨r1,hr1⟩ : ∃ r1, r1 = { r.setCtx c ctx with called := c::r.called } := ⟨_,rfl⟩
    have hnext : callNext (callHandlers r (some c) reply) =
        some (callHandlers r1 (r.ctx c).next reply) := by
      rw [hr1, hctx]
      rfl
    have hlinks : links r1 = links r := by
      rw [hr1]
      exact links_same r c ctx (by rw [hctx])
    obtain ⟨r',hrun,hrunning,hcalled,hother,hstates⟩ := ih r1 (r.ctx c).next (by rw [hlinks]; exact hws)
      hnodup
    refine ⟨r',?_,?_,?_,fun d hd => ?_,fun d hd => ?_⟩
    · show (callNext (callHandlers r (some c) reply)).bind (callAll ws.length) = some r'
      rw [hnext]
      exact hrun
    · rw [hrunning, hr1]
      rfl
    · rw [hcalled, hr1, List.reverse_cons, List.append_assoc]
      rfl
    · have hne : d ≠ c := fun he => hd (he ▸ List.mem_cons_self)
      rw [hother d (fun hm => hd (List.mem_cons_of_mem _ hm)), hr1]
      exact set_ctx_of_ne r c d ctx hne
    · rcases List.mem_cons.mp hd with rfl | hd
      · rw [hother d hc, hr1]
        show ((r.setCtx d ctx).ctx d).state = _
        rw [set_ctx_self, hctx]
      · exact hstates d hd

/-- All handlers of `ws` are called, the first one first, and told `state`. -/
def Told (r r' : Resolver) (ws : List ℕ) (state : Status) : Prop :=
  ∃ r'', callAll ws.length r' = some r'' ∧ r''.running = r.running ∧ r''.called = ws.reverse++r.called ∧
    ∀ c ∈ ws, (r''.ctx c).state = state

/-- The contexts wait in the chains `W` of the nodes `xs`, or are next in the chains `R` of the
loops, or have been called or cancelled. -/
structure WaitersLaw (r : Resolver) (xs : List ℕ) (W : ℕ → List ℕ) (R : List (List ℕ)) : Prop where
  tree : InOrder r.rbtree r.rbtree.root xs
  chain : ∀ x ∈ xs, Chain (links r) (r.node x).waiting (W x)
  loops : List.Forall₂ (fun p ws => Chain (links r) (some p.1) ws) r.running R
  once : ∀ c, (xs.flatMap W).count c+R.flatten.count c+r.called.count c+r.cancelled.count c =
    if c ∈ r.started then 1 else 0
  waits : r.running = [] → ∀ c ∈ r.started, c ∉ r.called → c ∉ r.cancelled →
    ∃ x ∈ xs, c ∈ W x ∧ ∀ y ∈ xs, c ∈ W y → y = x
  error : ∀ fuel x code r', x ∈ xs → processError fuel r x code = some r' →
    Told r r' (W x) (.code code)
  addrs : ∀ x naddrs addr addrs w r', x ∈ xs → processAddrs r x naddrs addr addrs w = some r' →
    Told r r' (W x) .ok ∨ (r'.node x).waiting = (r.node x).waiting

variable (r' : Resolver) (x : ℕ)

theorem answered_fields (rn : ResolverNode) (now : ℤ) (hrun : answered r x rn now = some r') :
    r'.ctx = r.ctx ∧ r'.running = r.running ∧ r'.called = r.called := by
  obtain ⟨r1,hremove,rfl⟩ := Option.map_eq_some_iff.mp hrun
  rw [ngxQueueRemove] at hremove
  split_ifs at hremove <;> cases hremove <;> exact ⟨rfl,rfl,rfl⟩

theorem told_answered (rn : ResolverNode) (now : ℤ) (next : Option ℕ) (reply : Reply) (ws : List ℕ)
    (h : Chain (links r) next ws) (hnodup : ws.Nodup)
    (hrun : (answered r x rn now).map (fun r => callHandlers r next reply) = some r') :
    Told r r' ws reply.state := by
  obtain ⟨r1,hanswered,rfl⟩ := Option.map_eq_some_iff.mp hrun
  obtain ⟨hctx,hrunning,hcalled⟩ := answered_fields r r1 x rn now hanswered
  obtain ⟨r'',hall,h1,h2,-,h3⟩ := call_all_chain r1 next reply ws
    (by rw [links_congr r r1 hctx]; exact h) hnodup
  exact ⟨r'',hall,h1.trans hrunning,by rw [h2, hcalled],h3⟩

variable (fuel : ℕ)

theorem told_error (x code : ℕ) (ws : List ℕ) (h : Chain (links r) (r.node x).waiting ws)
    (hnodup : ws.Nodup) (hrun : processError fuel r x code = some r') :
    Told r r' ws (.code code) := by
  obtain ⟨r1,hremove,hrest⟩ := Option.bind_eq_some_iff.mp hrun
  obtain ⟨t,-,rfl⟩ := Option.map_eq_some_iff.mp hrest
  have hsame : r1.ctx = r.ctx ∧ r1.running = r.running ∧ r1.called = r.called := by
    rw [ngxQueueRemove] at hremove
    split_ifs at hremove <;> cases hremove <;> exact ⟨rfl,rfl,rfl⟩
  obtain ⟨hctx,hrunning,hcalled⟩ := hsame
  have hf := frees_free_node { r1 with rbtree := t } x
  generalize ngxResolverFreeNode { r1 with rbtree := t } x = r2 at hf
  have hctx2 : r2.ctx = r.ctx := by
    rw [hf.same]
    exact hctx
  obtain ⟨r'',hall,h1,h2,-,h3⟩ := call_all_chain r2 (r.node x).waiting ⟨.code code,none⟩ ws
    (by rw [links_congr r r2 hctx2]; exact h) hnodup
  refine ⟨r'',hall,?_,?_,h3⟩
  · rw [h1, hf.same]
    exact hrunning
  · rw [h2, hf.same]
    exact congrArg (ws.reverse++·) hcalled

theorem told_addrs (naddrs addr : ℕ) (addrs : List ℕ) (w : World) (ws : List ℕ)
    (h : Chain (links r) (r.node x).waiting ws) (hnodup : ws.Nodup)
    (hrun : processAddrs r x naddrs addr addrs w = some r') :
    Told r r' ws .ok ∨ (r'.node x).waiting = (r.node x).waiting := by
  rw [processAddrs] at hrun
  by_cases hone : naddrs = 1
  · rw [if_pos hone] at hrun
    exact Or.inl (told_answered r r' x _ w.now _ _ ws h hnodup hrun)
  rw [if_neg hone] at hrun
  cases hp : w.allocAddrs with
  | none =>
    rw [hp] at hrun
    cases hrun
    exact Or.inr rfl
  | some p =>
    rw [hp] at hrun
    simp only at hrun
    by_cases hdup : w.dup = true
    · rw [if_pos hdup] at hrun
      exact Or.inl (told_answered { r with ledger := r.ledger.open p } r' x _ w.now _ _ ws h hnodup hrun)
    rw [if_neg hdup] at hrun
    rw [← Option.some.inj hrun]
    right
    show ((r.setNode x _).node x).waiting = _
    rw [set_node_self]

theorem inv_waiters_law (T : RedBlackTree.Tree ℕ)
    (h : Inv False True r.started r T [] [] [] r.started) : ∃ W R, WaitersLaw r T.ids W R := by
  obtain ⟨⟨above,hat⟩,hsound,-⟩ := h.base.kept
  obtain ⟨W,R,hch⟩ := h.chains trivial
  have hq : (queued r).Perm T.ids := h.base.queue
  have hflat : ((queued r).flatMap W).Perm (T.ids.flatMap W) := hq.flatMap_right W
  have honce : ∀ c, (T.ids.flatMap W).count c+R.flatten.count c+r.called.count c+
      r.cancelled.count c = if c ∈ r.started then 1 else 0 := by
    intro c
    have hcount := hch.all.count_eq c
    have hsame := hflat.count_eq c
    rw [hch.nodup.count] at hcount
    simp only [List.count_append, List.count_nil] at hcount
    omega
  have hchain : ∀ x ∈ T.ids, Chain (links r) (r.node x).waiting (W x) :=
    fun x hx => hch.chain x (hq.mem_iff.mpr hx)
  have hone : ∀ c, (T.ids.flatMap W).count c ≤ 1 := by
    intro c
    have hc := honce c
    split_ifs at hc <;> omega
  have hdistinct : ∀ x ∈ T.ids, (W x).Nodup := fun x hx =>
    (List.nodup_flatMap.mp (List.nodup_iff_count_le_one.mpr hone)).1 x hx
  refine ⟨W,R,(holds_balanced _ above T hat hsound).inOrder,hchain,hch.run,honce,
    fun hidle c hc hcalled hcancelled => ?_,
    fun fuel x code r' hx hrun => told_error r r' fuel x code (W x) (hchain x hx) (hdistinct x hx) hrun,
    fun x naddrs addr addrs w r' hx hrun =>
      told_addrs r r' x naddrs addr addrs w (W x) (hchain x hx) (hdistinct x hx) hrun⟩
  have hR : R = [] := by
    have hloops := hch.run
    rw [hidle] at hloops
    exact List.forall₂_nil_left_iff.mp hloops
  have hcount := honce c
  rw [hR, if_pos hc, List.flatten_nil, List.count_nil, List.count_eq_zero_of_not_mem hcalled,
    List.count_eq_zero_of_not_mem hcancelled] at hcount
  have hmem : c ∈ T.ids.flatMap W := List.count_pos_iff.mp (by omega)
  obtain ⟨x,hx,hcx⟩ := List.mem_flatMap.mp hmem
  refine ⟨x,hx,hcx,fun y hy hcy => ?_⟩
  by_contra hne
  have hsplit : (T.ids.flatMap W).count c = (W x++(T.ids.erase x).flatMap W).count c :=
    ((List.perm_cons_erase hx).flatMap_right W).count_eq c
  have hrest : c ∈ (T.ids.erase x).flatMap W :=
    List.mem_flatMap.mpr ⟨y,(List.mem_erase_of_ne hne).mpr hy,hcy⟩
  have h1 := List.count_pos_iff.mpr hcx
  have h2 := List.count_pos_iff.mpr hrest
  rw [List.count_append] at hsplit
  omega

/-- While an alias leads all that wait for it to a place where they wait, nobody is lost. -/
theorem resolver_waiters_law (r : Resolver) (h : Reached Keeps r) : ∃ xs W R, WaitersLaw r xs W R := by
  obtain ⟨T,hT⟩ := reached_kept r h
  exact ⟨T.ids,inv_waiters_law r T hT⟩

section Aliased

def unusedNode : ResolverNode := ⟨[],0,0,none,.empty,0,0,0,0,none⟩

def answersFrom (now : ℤ) (p : ℕ) : World :=
  ⟨now,7,some (p, unusedNode),some (p+1),some (p+2),some (p+3),some (p+4),true,fun _ => true,
    true,[]⟩

theorem answers_from_valid (now : ℤ) (p : ℕ) (hnow : 0 < now)
    (hopened : ∀ q ∈ r.ledger.opened, q < p) (hs : r.rbtree.sentinel < p) :
    Valid r (answersFrom now p) := by
  have hfresh : ∀ n, p+n ∉ r.ledger.opened := by
    intro n hm
    have hlt := hopened _ hm
    omega
  refine ⟨⟨hnow,fun x garbage h => ?_,fun q h => ?_,fun q h => ?_⟩,fun q h => ?_,fun q h => ?_⟩
  · cases h
    exact ⟨hfresh 0,by omega,nofun⟩
  · cases h
    refine ⟨hfresh 1,fun x garbage h => ?_⟩
    cases h
    omega
  · cases h
    refine ⟨hfresh 2,fun x garbage h => ?_,fun q h => ?_⟩ <;> cases h <;> omega
  · cases h
    exact hfresh 3
  · cases h
    refine ⟨hfresh 4,fun x garbage h => ?_,fun h => ?_,fun h => ?_⟩
    · cases h
      omega
    · have he : p+1 = p+4 := Option.some.inj h
      omega
    · have he : p+2 = p+4 := Option.some.inj h
      omega

def emptyResolver : Resolver :=
  ngxResolverCreate (fun _ => ⟨0,fun _ => 0,0,true⟩) 1 (fun _ => unusedNode)
    (fun _ => ⟨none,[],none,0,.ok,false,[]⟩) 100

/-- What happens in a run in which all memory is there and all queries go out. -/
inductive Turn where
  | ask (c : ℕ) (name : List ℕ)
  | cname (name target : List ℕ)
  | address (name : List ℕ) (addr : ℕ)
  | handler

def world (r : Resolver) : World :=
  answersFrom 1 (r.ledger.opened.foldr max r.rbtree.sentinel+1)

def Turn.call (r : Resolver) : Turn → Call
  | .ask c name => .resolveName c name (world r)
  | .cname name target => .response ⟨some name,7,0,[.cname (some target)],[]⟩ (world r)
  | .address name addr => .response ⟨some name,7,0,[.a addr],[addr]⟩ (world r)
  | .handler => .handler

def runTurn (r : Resolver) (t : Turn) : Option Resolver := run 9 r (t.call r)

def possible (r : Resolver) : Turn → Bool
  | .ask c _ => c ∉ r.started
  | .cname _ target => r.running.length = 0 && target.length < 2^16
  | .address _ _ => r.running.length = 0
  | .handler => true

/-- The node of the name has no answer yet, and the target of an alias is a new name. -/
def clean (r : Resolver) (t : Turn) : Bool :=
  match t with
  | .cname name target => (ngxResolverLookupName 9 r name).any fun found =>
      found.all fun x => (r.node x).cnlen = 0 && (r.node x).naddrs = 0 && !emptyLabel target &&
        (cnameAnswered r x target (world r)).all fun r1 =>
          ngxResolverLookupName 9 r1 target == some none
  | .address name _ => (ngxResolverLookupName 9 r name).any fun found =>
      found.all fun x => (r.node x).cnlen = 0 && (r.node x).naddrs = 0
  | _ => true

theorem world_valid : Valid r (world r) := by
  have hle : ∀ qs : List ℕ, r.rbtree.sentinel ≤ qs.foldr max r.rbtree.sentinel ∧
      ∀ q ∈ qs, q ≤ qs.foldr max r.rbtree.sentinel := by
    intro qs
    induction qs with
    | nil => exact ⟨Nat.le_refl _,nofun⟩
    | cons p qs ih =>
      refine ⟨ih.1.trans (Nat.le_max_right ..),fun q hq => ?_⟩
      rcases List.mem_cons.mp hq with rfl | hq
      · exact Nat.le_max_left ..
      · exact (ih.2 q hq).trans (Nat.le_max_right ..)
  obtain ⟨hs,hopened⟩ := hle r.ledger.opened
  exact answers_from_valid r 1 _ (by decide) (fun q hq => Nat.lt_succ_of_le (hopened q hq))
    (Nat.lt_succ_of_le hs)

theorem turn_possible (t : Turn) (h : possible r t = true) : Possible r (t.call r) := by
  cases t with
  | ask c name => exact ⟨of_decide_eq_true h,world_valid r⟩
  | cname name target =>
    obtain ⟨hidle,hlen⟩ := Bool.and_eq_true_iff.mp h
    refine ⟨List.length_eq_zero_iff.mp (of_decide_eq_true hidle),world_valid r,show 1 < 2^16 by decide,?_⟩
    intro name hm
    cases List.mem_singleton.mp hm
    exact of_decide_eq_true hlen
  | address name addr =>
    refine ⟨List.length_eq_zero_iff.mp (of_decide_eq_true h),world_valid r,show 1 < 2^16 by decide,?_⟩
    intro name hm
    cases List.mem_singleton.mp hm
  | handler => trivial

theorem turn_reached (cond : Resolver → Call → Prop) (check : Resolver → Turn → Bool)
    (hcheck : ∀ r t, check r t = true → cond r (t.call r)) (ts : List Turn)
    (last : Resolver → Bool) (h : (Runs.run runTurn (fun r t => possible r t && check r t)
      emptyResolver ts).any last = true) : ∃ r, Reached cond r ∧ last r = true := by
  refine Runs.run_reaches runTurn _ (Reached cond) (fun r t r' hr ht hrun => ?_) ts emptyResolver
    (Reached.create _ _ _ _ _) last h
  obtain ⟨hp,hc⟩ := Bool.and_eq_true_iff.mp ht
  exact hr.step r r' (t.call r) 9 (turn_possible r t hp) (hcheck r t hc) hrun

theorem clean_fits (t : Turn) (h : clean r t = true) : Fits r (t.call r) := by
  cases t with
  | ask => trivial
  | handler => trivial
  | cname name target =>
    obtain ⟨found,hfound,h⟩ := (Option.any_eq_true _ _).mp h
    rintro x ⟨⟨name',hname,hx⟩,-,-⟩ naddrs addr cname hscan
    cases hname
    cases hscan
    cases finds_agree r name _ _ ⟨9,hfound⟩ hx
    simp only [Option.all_some, Bool.and_eq_true, decide_eq_true_eq] at h
    obtain ⟨⟨⟨hcn,hna⟩,-⟩,-⟩ := h
    exact ⟨nofun,by omega,fun _ _ _ _ => ⟨hcn,hna ▸ Nat.zero_le 1,fun _ => hna⟩⟩
  | address name addr =>
    obtain ⟨found,hfound,h⟩ := (Option.any_eq_true _ _).mp h
    rintro x ⟨⟨name',hname,hx⟩,-,-⟩ naddrs addr' cname hscan
    cases hname
    cases hscan
    cases finds_agree r name _ _ ⟨9,hfound⟩ hx
    simp only [Option.all_some, Bool.and_eq_true, decide_eq_true_eq] at h
    exact ⟨fun _ => ⟨h.1,h.2 ▸ Nat.zero_le 1⟩,by omega,nofun⟩

theorem clean_keeps (t : Turn) (h : clean r t = true) : Keeps r (t.call r) := by
  cases t with
  | ask => trivial
  | handler => trivial
  | cname name target =>
    obtain ⟨found,hfound,h⟩ := (Option.any_eq_true _ _).mp h
    rintro x ⟨⟨name',hname,hx⟩,-,-⟩ addr target' hscan c hc r1 hr1
    cases hname
    cases hscan
    cases finds_agree r name _ _ ⟨9,hfound⟩ hx
    simp only [Option.all_some, Bool.and_eq_true, Bool.not_eq_true', hr1, beq_iff_eq] at h
    obtain ⟨⟨-,hlabel⟩,hnone⟩ := h
    refine Arrives.absent target _ _ _ ⟨9,hnone⟩ rfl nofun ⟨nofun,fun he => ?_,fun _ => ⟨rfl,Or.inr rfl⟩⟩
    rw [hlabel] at he
    cases he
  | address name addr =>
    rintro x - addr' target hscan
    cases hscan

/-- Two contexts follow an alias, and are called when the address comes. -/
def followed : List Turn :=
  [.ask 1 [97], .ask 2 [97], .cname [97] [98], .address [98] 5, .handler, .handler]

theorem followed_run : (Runs.run runTurn (fun r t => possible r t && clean r t)
    emptyResolver followed).any (fun r => decide (r.called = [1,2] ∧
      nodesBelow r.rbtree 9 r.rbtree.root = some [5,2])) = true := by
  decide +kernel

theorem resolver_nodes_law_followed : ∃ r, nodesBelow r.rbtree 9 r.rbtree.root = some [5,2] ∧
    ∃ xs, NodesLaw r xs := by
  obtain ⟨r,hr,hlast⟩ := turn_reached Fits clean clean_fits followed _ followed_run
  exact ⟨r,(of_decide_eq_true hlast).2,resolver_nodes_law r hr⟩

theorem resolver_waiters_law_followed : ∃ r, r.called = [1,2] ∧ ∃ xs W R, WaitersLaw r xs W R := by
  obtain ⟨r,hr,hlast⟩ := turn_reached Keeps clean clean_keeps followed _ followed_run
  exact ⟨r,(of_decide_eq_true hlast).1,resolver_waiters_law r hr⟩

theorem doubled_run : (Runs.run runTurn (fun r t => possible r t && true) emptyResolver
    [.ask 1 [97], .cname [97] [98], .address [97] 5]).any (fun r => decide (
      (0 < (r.node 2).cnlen ∧ 0 < (r.node 2).naddrs) ∧
      ngxResolverLookupName 9 r [97] = some (some 2) ∧ (ngxResolverFreeNode r 2).wild = 1 ∧
      nodesBelow r.rbtree 9 r.rbtree.root = some [5,2])) = true := by
  decide +kernel

/-- A second answer to the same query puts an address over a cname, whose block is lost, and
the free of the node frees the address. -/
theorem cname_overwritten : ∃ r, Reached (fun _ _ => True) r ∧
    (0 < (r.node 2).cnlen ∧ 0 < (r.node 2).naddrs) ∧
    ngxResolverLookupName 9 r [97] = some (some 2) ∧ (ngxResolverFreeNode r 2).wild = 1 ∧
    ∀ xs, ¬ NodesLaw r xs := by
  obtain ⟨r,hr,hlast⟩ := turn_reached (fun _ _ => True) (fun _ _ => true) (fun _ _ _ => trivial) _ _
    doubled_run
  obtain ⟨hboth,hfound,hwild,hbelow⟩ := of_decide_eq_true hlast
  refine ⟨r,hr,hboth,hfound,hwild,fun xs hlaw => ?_⟩
  have hxs := in_order_eq _ _ _ _ hlaw.tree (nodes_below_in_order _ _ _ _ hbelow)
  exact hlaw.one 2 (by rw [hxs]; decide) hboth

theorem lost_run : (Runs.run runTurn (fun r t => possible r t && true) emptyResolver
    [.ask 1 [98], .address [98] 5, .handler, .ask 2 [97], .ask 3 [97], .cname [97] [98],
      .handler]).any (fun r => decide ((2 ∈ r.started ∧ 2 ∉ r.called ∧ 2 ∉ r.cancelled ∧
      r.running.length = 0) ∧ nodesBelow r.rbtree 9 r.rbtree.root = some [2,5] ∧
      (r.node 2).waiting = none ∧ (r.node 5).waiting = none)) = true := by
  decide +kernel

/-- Two contexts wait for an alias of a name whose address is known: the head of the chain is
answered, and the other one is in no chain any more, neither called nor cancelled. -/
theorem waiter_lost : ∃ r, Reached (fun _ _ => True) r ∧ (2 ∈ r.started ∧ 2 ∉ r.called ∧
    2 ∉ r.cancelled ∧ r.running.length = 0) ∧ ∀ xs W R, ¬ WaitersLaw r xs W R := by
  obtain ⟨r,hr,hlast⟩ := turn_reached (fun _ _ => True) (fun _ _ => true) (fun _ _ _ => trivial) _ _
    lost_run
  obtain ⟨⟨hstarted,hnever,hcancelled,hidle⟩,hbelow,hnobody⟩ := of_decide_eq_true hlast
  refine ⟨r,hr,⟨hstarted,hnever,hcancelled,hidle⟩,fun xs W R hlaw => ?_⟩
  have hxs := in_order_eq _ _ _ _ hlaw.tree (nodes_below_in_order _ _ _ _ hbelow)
  obtain ⟨x,hx,hmem,-⟩ := hlaw.waits (List.length_eq_zero_iff.mp hidle) 2 hstarted hnever hcancelled
  have hchain := hlaw.chain x hx
  have hnone : (r.node x).waiting = none := by
    rcases List.mem_pair.mp (hxs ▸ hx) with rfl | rfl
    · exact hnobody.1
    · exact hnobody.2
  rw [hnone] at hchain
  rw [chain_none _ _ hchain] at hmem
  cases hmem

end Aliased

end Nginx.ResolverLaw
