import Nginx.RbtreeSearch
import Nginx.RbtreeLaw
import Mathlib.Algebra.Order.Ring.Int

/-!
# A leaky bucket for each key

A zone holds a tree with a node for each key value, and a queue of the nodes from the
most to the least recently used one. Times are in milliseconds, rates and excesses in
thousandths of a request. Requests of all workers run one at a time under the mutex
of the slab pool, and the slab allocator is a parameter of a request.
-/

set_option autoImplicit false

namespace Nginx.LimitReq
open Nginx.NgxRbtree Nginx.RbtreeSearch Nginx.RbtreeLaw

/-- `rate` is a field of the configuration, and the same for all requests. -/
structure Zone where
  rate : ℕ
  rbtree : Rbtree
  len : ℕ → ℕ
  data : ℕ → List ℕ
  last : ℕ → ℕ
  excess : ℕ → ℕ
  queue : List ℕ

def Zone.stored (z : Zone) (node : ℕ) : List ℕ := (z.data node).take (z.len node)

def signed (x : ℤ) : ℤ := (x+2^63) % 2^64-2^63

def elapsed (now last : ℕ) : ℕ := (signed ((now : ℤ)-last)).natAbs

def leaked (rate ms : ℕ) : ℕ := rate*ms % 2^64/1000

inductive Rc where
  | declined
  | ok
  | busy
  | again
  deriving DecidableEq, Repr

inductive Answer where
  | declined
  | again
  | serviceUnavailable
  | internalServerError
  deriving DecidableEq, Repr

/-- What the handler reads: the flag of the main request, the burst of a location with
a zone, its `nodelay`, the value of the variable, the time, the slab allocator, and
whether `ngx_handle_read_event` succeeds. -/
structure Request where
  limitReqSet : Bool
  burst : Option ℕ
  nodelay : Bool
  value : Option (List ℕ)
  now : ℕ
  alloc : Zone → Option ℕ
  readEvent : Bool

/-- `admitted` is not in the source: the request has advanced the bucket of its key.
`expired` are the nodes that it has removed. -/
structure Outcome where
  answer : Answer
  limitReqSet : Bool
  zone : Zone
  admitted : Bool
  expired : List ℕ

def ngxHttpLimitReqRbtreeInsertValue (z : Zone) : Rbtree → ℕ → ℕ → Bool := dataGoesLeft z.stored

def charge (z : Zone) (burst now node : ℕ) : Rc × ℕ × Zone :=
  let z := { z with queue := node::z.queue.erase node }
  let ms := elapsed now (z.last node)
  let excess := signed ((z.excess node : ℤ)-leaked z.rate ms+1000)
  let excess := if excess < 0 then 0 else excess.toNat
  if excess > burst then (.busy, excess, z)
  else
    let z := { z with excess := Function.update z.excess node excess,
                      last := Function.update z.last node now }
    (if excess ≠ 0 then .again else .ok, excess, z)

/-- `ngx_http_limit_req_lookup`, with the value it stores in `*ep`. -/
def ngxHttpLimitReqLookup (fuel : ℕ) (z : Zone) (burst hash : ℕ) (value : List ℕ) (now : ℕ) :
    Option (Rc × ℕ × Zone) :=
  (search z.rbtree (fun node => lookupCmp hash value (z.rbtree.key node) (z.stored node)) fuel
      z.rbtree.root).map (fun found =>
    match found with
    | some node => charge z burst now node
    | none => (.declined, 0, z))

@[grind =] def expireLoop (fuel now : ℕ) : ℕ → Zone → Option (Zone × List ℕ)
  | 0, z => some (z, [])
  | k+1, z =>
    match z.queue.getLast? with
    | none => some (z, [])
    | some lr =>
      let ms := elapsed now (z.last lr)
      if k ≠ 2 ∧ (ms < 60000 ∨ signed ((z.excess lr : ℤ)-leaked z.rate ms) > 0) then some (z, [])
      else
        (ngxRbtreeDelete fuel z.rbtree lr).bind (fun t =>
          (expireLoop fuel now k { z with queue := z.queue.erase lr, rbtree := t }).map
            (fun (z, expired) => (z, lr::expired)))

def ngxHttpLimitReqExpire (fuel now n : ℕ) (z : Zone) : Option (Zone × List ℕ) :=
  expireLoop fuel now (3-n) z

/-- The handler behind a lookup that has found nothing, with a node for the key. -/
def newBucket (fuel : ℕ) (z : Zone) (hash : ℕ) (value : List ℕ) (now : ℕ) (expired : List ℕ)
    (node : ℕ) : Option Outcome :=
  let z := { z with rbtree := z.rbtree.setKey node hash,
                    len := Function.update z.len node (value.length % 2^8),
                    last := Function.update z.last node now,
                    excess := Function.update z.excess node 0,
                    data := Function.update z.data node value }
  (ngxRbtreeInsert (ngxHttpLimitReqRbtreeInsertValue z) fuel z.rbtree node).map (fun t =>
    ⟨.declined,true,{ z with rbtree := t, queue := node::z.queue },true,expired⟩)

def answer (r : Request) : Rc → Answer
  | .busy => .serviceUnavailable
  | .again =>
    if r.nodelay then .declined else if r.readEvent then .again else .internalServerError
  | _ => .declined

def enterZone (fuel : ℕ) (z : Zone) (r : Request) (burst hash : ℕ) (value : List ℕ) :
    Option Outcome :=
  (ngxHttpLimitReqExpire fuel r.now 1 z).bind (fun (z, expired) =>
    (ngxHttpLimitReqLookup fuel z burst hash value r.now).bind (fun (rc, _, z) =>
      if rc = .declined then
        match r.alloc z with
        | some node => newBucket fuel z hash value r.now expired node
        | none =>
          (ngxHttpLimitReqExpire fuel r.now 0 z).bind (fun (z, forced) =>
            match r.alloc z with
            | some node => newBucket fuel z hash value r.now (expired++forced) node
            | none => some ⟨.serviceUnavailable,true,z,false,expired++forced⟩)
      else some ⟨answer r rc,true,z,rc ≠ .busy,expired⟩))

def ngxHttpLimitReqHandler (fuel : ℕ) (z : Zone) (r : Request) :
    Option Outcome :=
  let declined : Outcome := ⟨.declined,r.limitReqSet,z,false,[]⟩
  if r.limitReqSet then some declined
  else
    match r.burst, r.value with
    | some burst, some value =>
      if value.length = 0 then some declined
      else if value.length > 65535 then some declined
      else enterZone fuel z r burst (ngxCrc32Short value) value
    | _, _ => some declined

end Nginx.LimitReq
