import Nginx.RbtreeSearch
import Nginx.Ledger

/-!
# The names of the resolver

Nodes and contexts live in memories indexed by their addresses. A node stands in the tree
of the names, and in the queue of the queries to send again or in the one of the answers to
expire. What the allocator, the socket, the clock and the random generator answer are
parameters of a call. A loop that calls the handlers of a chain is suspended before each
call, for handlers call the resolver again.
-/

set_option autoImplicit false

namespace Nginx.ResolverNames
open Nginx.NgxRbtree Nginx.RbtreeSearch Nginx.Ledger

/-- The states of a context, with the codes of the errors in responses. -/
inductive Status where
  | ok
  | again
  | code (n : ℕ)
  | timedOut
  deriving DecidableEq, Repr

/-- `nameBlock` is the block of a node that `name.data` points into. -/
structure Ctx where
  next : Option ℕ
  name : List ℕ
  nameBlock : Option ℕ
  recursion : ℕ
  state : Status
  event : Bool
  addrs : List ℕ

inductive Union where
  | empty
  | addr (a : ℕ)
  | addrs (p : ℕ) (xs : List ℕ)
  | cname (p : ℕ) (name : List ℕ)

def Union.ptr : Union → Option ℕ
  | .addrs p _ => some p
  | .cname p _ => some p
  | _ => none

structure ResolverNode where
  name : List ℕ
  nameBlock : ℕ
  nlen : ℕ
  query : Option (ℕ × ℕ)
  u : Union
  naddrs : ℕ
  cnlen : ℕ
  expire : ℤ
  valid : ℤ
  waiting : Option ℕ

structure Reply where
  state : Status
  addrs : Option (List ℕ)

/-- `running` has the loops over contexts with the next context of each, the innermost first.
From `ledger` on the fields are not in the source: the blocks of the nodes, the frees of a
word that is no pointer, and the contexts that a call has taken, whose handlers have been
called, and that have been cancelled. -/
structure Resolver where
  rbtree : Rbtree
  node : ℕ → ResolverNode
  ctx : ℕ → Ctx
  nameResendQueue : List ℕ
  nameExpireQueue : List ℕ
  resendTimeout : ℤ
  expire : ℤ
  valid : ℕ
  running : List (ℕ × Reply)
  ledger : Handles
  wild : ℕ
  started : List ℕ
  called : List ℕ
  cancelled : List ℕ

/-- The answers of the world around a call. The node from `alloc` holds anything, and `garbage`
is what a read through a wrong pointer gives. -/
structure World where
  now : ℤ
  ident : ℕ
  alloc : Option (ℕ × ResolverNode)
  allocName : Option ℕ
  allocQuery : Option ℕ
  allocAddrs : Option ℕ
  allocCname : Option ℕ
  dup : Bool
  send : ℕ → Bool
  allocEvent : Bool
  garbage : List ℕ

/-- A resource record, as the loop over the answers reads it. A name that cannot be copied is
`none`. -/
inductive Answer where
  | a (addr : ℕ)
  | cname (name : Option (List ℕ))
  | dname
  | other
  | short
  | invalid

/-- A response with one question of class IN and type A. `addrs` is what the second loop over
the answers reads. -/
structure Response where
  name : Option (List ℕ)
  ident : ℕ
  code : ℕ
  answers : List Answer
  addrs : List ℕ

inductive Rc where
  | ok
  | again
  | error
  deriving DecidableEq, Repr

def Resolver.setNode (r : Resolver) (x : ℕ) (rn : ResolverNode) : Resolver :=
  { r with node := Function.update r.node x rn }

def Resolver.setCtx (r : Resolver) (c : ℕ) (ctx : Ctx) : Resolver :=
  { r with ctx := Function.update r.ctx c ctx }

def Resolver.free (r : Resolver) (p : ℕ) : Resolver := { r with ledger := r.ledger.close p }

def nodeName (r : Resolver) (x : ℕ) : List ℕ := (r.node x).name.take (r.node x).nlen

def ngxResolverLookupName (fuel : ℕ) (r : Resolver) (name : List ℕ) : Option (Option ℕ) :=
  search r.rbtree (fun x => lookupCmp (ngxCrc32Short name) name (r.rbtree.key x) (nodeName r x)) fuel
    r.rbtree.root

/-- The links of a node that no queue has are stale, and their use is not modelled. -/
def ngxQueueRemove (r : Resolver) (x : ℕ) : Option Resolver :=
  if x ∈ r.nameResendQueue then some { r with nameResendQueue := r.nameResendQueue.erase x }
  else if x ∈ r.nameExpireQueue then some { r with nameExpireQueue := r.nameExpireQueue.erase x }
  else none

/-- `ngx_resolver_free_locked` of a pointer that is read from the union. -/
def freeUnion (r : Resolver) : Union → Resolver
  | .empty => r
  | .addr _ => { r with wild := r.wild+1 }
  | .addrs p _ => r.free p
  | .cname p _ => r.free p

@[grind =] def freeAnswer (r : Resolver) (rn : ResolverNode) : Resolver :=
  let r := if rn.cnlen ≠ 0 then freeUnion r rn.u else r
  if rn.naddrs > 1 then freeUnion r rn.u else r

def freeQuery (r : Resolver) (rn : ResolverNode) : Resolver :=
  match rn.query with
  | some (p, _) => r.free p
  | none => r

def ngxResolverFreeNode (r : Resolver) (x : ℕ) : Resolver :=
  let rn := r.node x
  (freeAnswer ((freeQuery r rn).free rn.nameBlock) rn).free x

def callHandlers (r : Resolver) (next : Option ℕ) (reply : Reply) : Resolver :=
  match next with
  | some c => { r with running := (c, reply)::r.running }
  | none => r

def callNext (r : Resolver) : Option Resolver :=
  match r.running with
  | [] => none
  | (c, reply)::rest =>
    let ctx := r.ctx c
    let r := r.setCtx c { ctx with state := reply.state, addrs := reply.addrs.getD ctx.addrs }
    some (callHandlers { r with running := rest, called := c::r.called } ctx.next reply)

def nodeAddrs (rn : ResolverNode) (garbage : List ℕ) : List ℕ :=
  match rn.u with
  | .addr a => if rn.naddrs = 1 then [a] else garbage
  | .addrs _ xs => if rn.naddrs = 1 then garbage else xs.take rn.naddrs
  | _ => garbage

def nodeCname (rn : ResolverNode) (garbage : List ℕ) : List ℕ × Option ℕ :=
  match rn.u with
  | .cname p name => (name.take rn.cnlen, some p)
  | _ => (garbage.take rn.cnlen, none)

def answerWaiting (r : Resolver) (x c : ℕ) (reply : Reply) : Resolver :=
  let r := r.setCtx c { r.ctx c with next := (r.node x).waiting }
  callHandlers (r.setNode x { r.node x with waiting := none }) (some c) reply

/-- Whether `ngx_resolver_create_name_query` declines a name, for a label without bytes. -/
def emptyLabel : List ℕ → Bool
  | [] => false
  | a::name => (a = 46 ∧ (name.head?.getD 46 = 46)) || emptyLabel name

def failedQuery (fuel : ℕ) (r : Resolver) (x : ℕ) : Option (Rc × Resolver) :=
  (ngxRbtreeDelete fuel r.rbtree x).map (fun t =>
    let rn := r.node x
    (.error, ((freeQuery { r with rbtree := t } rn).free rn.nameBlock).free x))

def sendQuery (fuel : ℕ) (r : Resolver) (x c : ℕ) (w : World) : Option (Rc × Resolver) :=
  if emptyLabel (r.ctx c).name then
    (ngxRbtreeDelete fuel r.rbtree x).map (fun t =>
      let rn := r.node x
      let r := ((freeQuery { r with rbtree := t } rn).free rn.nameBlock).free x
      (.ok, { r.setCtx c { r.ctx c with state := .code 3 } with called := c::r.called }))
  else if w.send x = false then failedQuery fuel r x
  else if (r.ctx c).event = false ∧ w.allocEvent = false then failedQuery fuel r x
  else
    let r := r.setCtx c { r.ctx c with event := true, state := .again }
    let r := r.setNode x { r.node x with expire := w.now+r.resendTimeout, cnlen := 0, naddrs := 0,
                                         valid := 0, waiting := some c }
    some (.again, { r with nameResendQueue := x::r.nameResendQueue })

def startQuery (fuel : ℕ) (r : Resolver) (x c : ℕ) (w : World) : Option (Rc × Resolver) :=
  match w.allocQuery with
  | none => failedQuery fuel r x
  | some p =>
    let r := r.setNode x { r.node x with query := some (p, w.ident % 2^16) }
    sendQuery fuel { r with ledger := r.ledger.open p } x c w

def touch (r : Resolver) (x : ℕ) (now : ℤ) : Option Resolver :=
  (ngxQueueRemove r x).map (fun r =>
    let r := r.setNode x { r.node x with expire := now+r.expire }
    { r with nameExpireQueue := x::r.nameExpireQueue })

def joinWaiting (r : Resolver) (x c : ℕ) : Resolver :=
  let r := r.setCtx c { r.ctx c with next := (r.node x).waiting, state := .again }
  r.setNode x { r.node x with waiting := some c }

def newNode (fuel : ℕ) (r : Resolver) (c : ℕ) (w : World) : Option (Rc × Resolver) :=
  match w.alloc, w.allocName with
  | none, _ => some (.error, r)
  | some (x, _), none => some (.error, { r with ledger := (r.ledger.open x).close x })
  | some (x, garbage), some p =>
    let name := (r.ctx c).name
    let rn := { garbage with name := name, nameBlock := p, nlen := name.length % 2^16, query := none }
    let r := { r.setNode x rn with rbtree := r.rbtree.setKey x (ngxCrc32Short name),
                                   ledger := (r.ledger.open x).open p }
    (ngxRbtreeInsert (dataGoesLeft (nodeName r)) fuel r.rbtree x).bind (fun t =>
      startQuery fuel { r with rbtree := t } x c w)

/-- `ngx_resolve_name_locked` in its last `k` calls of itself. -/
@[grind =] def ngxResolveNameLocked (fuel : ℕ) (w : World) : ℕ → Resolver → ℕ → Option (Rc × Resolver)
  | 0, _, _ => none
  | k+1, r, c =>
    (ngxResolverLookupName fuel r (r.ctx c).name).bind (fun found =>
      match found with
      | none => newNode fuel r c w
      | some x =>
        let rn := r.node x
        if w.now ≤ rn.valid then
          (touch r x w.now).bind (fun r =>
            if rn.naddrs ≠ 0 then
              if rn.naddrs ≠ 1 ∧ w.dup = false then some (.error, r)
              else some (.ok, answerWaiting r x c ⟨.ok,some (nodeAddrs rn w.garbage)⟩)
            else
              let ctx := { r.ctx c with recursion := (r.ctx c).recursion+1 }
              if (r.ctx c).recursion < 50 then
                let cname := nodeCname rn w.garbage
                ngxResolveNameLocked fuel w k
                  (r.setCtx c { ctx with name := cname.1, nameBlock := cname.2 }) c
              else some (.ok, answerWaiting (r.setCtx c ctx) x c ⟨.code 3,none⟩))
        else if rn.waiting ≠ none then some (.again, joinWaiting r x c)
        else
          (ngxQueueRemove r x).bind (fun r =>
            let r := freeAnswer (freeQuery r rn) rn
            startQuery fuel (r.setNode x { rn with query := none }) x c w))

def ngxResolveName (fuel : ℕ) (r : Resolver) (c : ℕ) (name : List ℕ) (w : World) : Option Resolver :=
  let r := r.setCtx c ⟨none,name,none,0,.ok,false,[]⟩
  (ngxResolveNameLocked fuel w 52 r c).map (fun (rc, r) =>
    if rc = .error then r else { r with started := c::r.started })

@[grind =] def expireLoop (fuel : ℕ) (now : ℤ) : ℕ → Resolver → Option Resolver
  | 0, r => some r
  | k+1, r =>
    match r.nameExpireQueue.getLast? with
    | none => some r
    | some x =>
      if now ≤ (r.node x).expire then some r
      else
        (ngxRbtreeDelete fuel r.rbtree x).bind (fun t =>
          let r := { r with nameExpireQueue := r.nameExpireQueue.erase x, rbtree := t }
          expireLoop fuel now k (ngxResolverFreeNode r x))

def ngxResolverExpire (fuel : ℕ) (r : Resolver) (now : ℤ) : Option Resolver :=
  expireLoop fuel now 2 r

@[grind =] def ngxResolverResend (fuel : ℕ) (w : World) : ℕ → Resolver → Option Resolver
  | 0, _ => none
  | k+1, r =>
    match r.nameResendQueue.getLast? with
    | none => some r
    | some x =>
      if w.now < (r.node x).expire then some r
      else
        let r := { r with nameResendQueue := r.nameResendQueue.erase x }
        if (r.node x).waiting ≠ none then
          if w.send x then
            let r := r.setNode x { r.node x with expire := w.now+r.resendTimeout }
            ngxResolverResend fuel w k { r with nameResendQueue := x::r.nameResendQueue }
          else ngxResolverResend fuel w k r
        else
          (ngxRbtreeDelete fuel r.rbtree x).bind (fun t =>
            ngxResolverResend fuel w k (ngxResolverFreeNode { r with rbtree := t } x))

/-- The loop over the waiting contexts of `x` in `ngx_resolve_name_done`, behind the context
`prev`. -/
@[grind =] def cancelLoop (x c : ℕ) : ℕ → Resolver → Option ℕ → Option ℕ → Option Resolver
  | _, r, _, none => some r
  | 0, _, _, some _ => none
  | k+1, r, prev, some d =>
    let next := (r.ctx d).next
    if d = c then
      some (match prev with
        | none => r.setNode x { r.node x with waiting := next }
        | some e => r.setCtx e { r.ctx e with next := next })
    else cancelLoop x c k r (some d) next

/-- The name of a context, unless the block has been freed that it points into. -/
def ctxName (r : Resolver) (c : ℕ) (garbage : List ℕ) : List ℕ :=
  match (r.ctx c).nameBlock with
  | some p => if r.ledger.closes p = 0 then (r.ctx c).name else garbage
  | none => (r.ctx c).name

def cancel (fuel : ℕ) (r : Resolver) (c : ℕ) (w : World) : Option Resolver :=
  if (r.ctx c).state = .again ∨ (r.ctx c).state = .timedOut then
    (ngxResolverLookupName fuel r (ctxName r c w.garbage)).bind (fun found =>
      match found with
      | some x => cancelLoop x c fuel r none (r.node x).waiting
      | none => some r)
  else some r

def ngxResolveNameDone (fuel : ℕ) (r : Resolver) (c : ℕ) (w : World) : Option Resolver :=
  (cancel fuel r c w).bind (fun r' =>
    ngxResolverExpire fuel
      (if (r.ctx c).state = .again then { r' with cancelled := c::r'.cancelled } else r') w.now)

/-- `ngx_resolver_timeout_handler`, with a handler that calls `ngx_resolve_name_done`. -/
def ngxResolverTimeoutHandler (fuel : ℕ) (r : Resolver) (c : ℕ) (w : World) : Option Resolver :=
  (cancel fuel (r.setCtx c { r.ctx c with state := .timedOut }) c w).bind (fun r =>
    ngxResolverExpire fuel { r with called := c::r.called } w.now)

def scanAnswers : List Answer → ℕ × ℕ × Option (Option (List ℕ)) →
    Option (ℕ × ℕ × Option (Option (List ℕ)))
  | [], res => some res
  | .a addr::answers, (naddrs, _, cname) => scanAnswers answers (naddrs+1, addr, cname)
  | .cname name::answers, (naddrs, addr, _) => scanAnswers answers (naddrs, addr, some name)
  | .dname::answers, res => scanAnswers answers res
  | .other::answers, res => scanAnswers answers res
  | .short::_, _ => none
  | .invalid::_, _ => none

/-- A node is answered: it goes to the queue of the answers and its contexts are taken off. -/
def answered (r : Resolver) (x : ℕ) (rn : ResolverNode) (now : ℤ) : Option Resolver :=
  (ngxQueueRemove r x).map (fun r =>
    let r := r.setNode x { rn with valid := now+r.valid, expire := now+r.expire, waiting := none }
    { r with nameExpireQueue := x::r.nameExpireQueue })

def processError (fuel : ℕ) (r : Resolver) (x code : ℕ) : Option Resolver :=
  let next := (r.node x).waiting
  (ngxQueueRemove r x).bind (fun r =>
    (ngxRbtreeDelete fuel r.rbtree x).map (fun t =>
      callHandlers (ngxResolverFreeNode { r with rbtree := t } x) next ⟨.code code,none⟩))

/-- The part of `ngx_resolver_process_a` for addresses. -/
def processAddrs (r : Resolver) (x naddrs addr : ℕ) (addrs : List ℕ) (w : World) : Option Resolver :=
  let rn := r.node x
  if naddrs = 1 then
    (answered r x { rn with u := .addr addr, naddrs := naddrs } w.now).map (fun r =>
      callHandlers r rn.waiting ⟨.ok,some [addr]⟩)
  else match w.allocAddrs with
    | none => some r
    | some p =>
      let rn := { rn with u := .addrs p addrs }
      let r := { r with ledger := r.ledger.open p }
      if w.dup then
        (answered r x { rn with naddrs := naddrs % 2^16 } w.now).map (fun r =>
          callHandlers r rn.waiting ⟨.ok,some addrs⟩)
      else some (r.setNode x rn)

def cnameAnswered (r : Resolver) (x : ℕ) (name : List ℕ) (w : World) : Option Resolver :=
  let rn := r.node x
  if name = [] then answered r x { rn with cnlen := 0, u := .empty } w.now
  else match w.allocCname with
    | none => none
    | some p =>
      answered { r with ledger := r.ledger.open p } x
        { rn with cnlen := name.length % 2^16, u := .cname p name } w.now

def processCname (fuel : ℕ) (r : Resolver) (x : ℕ) (name : List ℕ) (w : World) : Option Resolver :=
  let next := (r.node x).waiting
  if name ≠ [] ∧ w.allocCname = none then some r
  else (cnameAnswered r x name w).bind (fun r =>
    match next with
    | none => some r
    | some c =>
      let block := if name = [] then none else w.allocCname
      (ngxResolveNameLocked fuel w 52 (r.setCtx c { r.ctx c with name := name, nameBlock := block }) c).map
        Prod.snd)

/-- `ngx_resolver_process_a` from the found node on. -/
def processNode (fuel : ℕ) (r : Resolver) (x : ℕ) (res : Response) (w : World) : Option Resolver :=
  let code := if res.code = 0 ∧ res.answers.length = 0 then 3 else res.code
  if code ≠ 0 then processError fuel r x code
  else match scanAnswers res.answers (0, 0, none) with
    | none => some r
    | some (naddrs, addr, cname) =>
      if naddrs ≠ 0 then processAddrs r x naddrs addr res.addrs w
      else match cname with
        | some (some name) => processCname fuel r x name w
        | _ => some r

def ngxResolverProcessA (fuel : ℕ) (r : Resolver) (res : Response) (w : World) : Option Resolver :=
  match res.name with
  | none => some r
  | some name =>
    (ngxResolverLookupName fuel r name).bind (fun found =>
      match found with
      | none => some r
      | some x =>
        match (r.node x).query with
        | none => some r
        | some (_, ident) => if res.ident = ident then processNode fuel r x res w else some r)

def ngxResolverCreate (nodes : ℕ → Node) (sentinel : ℕ) (node : ℕ → ResolverNode) (ctx : ℕ → Ctx)
    (valid : ℕ) : Resolver :=
  ⟨ngxRbtreeInit nodes sentinel,node,ctx,[],[],5,30,valid,[],⟨[],fun _ => 0⟩,0,[],[],[]⟩

end Nginx.ResolverNames
