import Nginx.RbtreeSearch
import Nginx.RbtreeLaw

/-!
# Counting connections by key

A zone holds a tree with a node for each key value that has admitted requests.
Requests and the cleanup handlers of admitted requests of all workers run one at a
time under the mutex of the slab pool. The slab allocator is a parameter of the
request: it gives a node that is not in use, or none.
-/

set_option autoImplicit false

namespace Nginx.LimitZone
open Nginx.NgxRbtree Nginx.RbtreeSearch Nginx.RbtreeLaw

/-- `data` is the part of `lz->data` that `lz->len` covers. -/
structure Zone where
  rbtree : Rbtree
  data : ℕ → List ℕ
  conn : ℕ → ℕ

inductive Answer where
  | declined
  | internalServerError
  | serviceUnavailable
  deriving DecidableEq, Repr

/-- What the handler reads: the flag of the main request, the limit of a location
with a zone, the value of the variable, and whether the cleanup and the node could be
allocated. -/
structure Request where
  limitZoneSet : Bool
  conn : Option ℕ
  value : Option (List ℕ)
  cleanup : Bool
  alloc : Option ℕ
  deriving DecidableEq, Repr

/-- `node` is the one in `lzcln`, where the cleanup got its handler. -/
structure Outcome where
  answer : Answer
  limitZoneSet : Bool
  zone : Zone
  node : Option ℕ

def ngxHttpLimitZoneRbtreeInsertValue (z : Zone) : Rbtree → ℕ → ℕ → Bool := dataGoesLeft z.data

def enterZone (fuel : ℕ) (z : Zone) (r : Request) (conn hash : ℕ) (value : List ℕ) :
    Option Outcome :=
  (search z.rbtree (fun node => lookupCmp hash value (z.rbtree.key node) (z.data node)) fuel
      z.rbtree.root).bind (fun found =>
    match found with
    | some node =>
      if z.conn node < conn then
        some ⟨.declined,true,
          { z with conn := Function.update z.conn node ((z.conn node+1) % 2^16) },some node⟩
      else some ⟨.serviceUnavailable,true,z,none⟩
    | none =>
      match r.alloc with
      | none => some ⟨.serviceUnavailable,true,z,none⟩
      | some node =>
        let z := { z with rbtree := z.rbtree.setKey node hash,
                          data := Function.update z.data node value,
                          conn := Function.update z.conn node 1 }
        (ngxRbtreeInsert (ngxHttpLimitZoneRbtreeInsertValue z) fuel z.rbtree node).map
          (fun t => ⟨.declined,true,{ z with rbtree := t },some node⟩))

def ngxHttpLimitZoneHandler (fuel : ℕ) (z : Zone) (r : Request) :
    Option Outcome :=
  let declined : Outcome := ⟨.declined,r.limitZoneSet,z,none⟩
  if r.limitZoneSet then some declined
  else
    match r.conn, r.value with
    | some conn, some value =>
      if value.length = 0 then some declined
      else if value.length > 255 then some declined
      else if !r.cleanup then some ⟨.internalServerError,true,z,none⟩
      else enterZone fuel z r conn (ngxCrc32Short value) value
    | _, _ => some declined

def ngxHttpLimitZoneCleanup (fuel : ℕ) (z : Zone) (node : ℕ) : Option Zone :=
  let z := { z with conn := Function.update z.conn node ((z.conn node+(2^16-1)) % 2^16) }
  if z.conn node = 0 then
    (ngxRbtreeDelete fuel z.rbtree node).map (fun t => { z with rbtree := t })
  else some z

/-- The cleanup of an admitted request, with the key it was admitted for. -/
structure Pending where
  node : ℕ
  value : List ℕ
  deriving DecidableEq, Repr

structure State where
  zone : Zone
  pending : List Pending

def State.after (s : State) (r : Request) (o : Outcome) : State :=
  ⟨o.zone,match o.node with
    | some node => ⟨node,r.value.getD []⟩::s.pending
    | none => s.pending⟩

/-- The limit is one that `ngx_http_limit_conn` accepts, and the allocator gives a node
that is not in use. -/
structure Valid (z : Zone) (r : Request) : Prop where
  conn : ∀ conn, r.conn = some conn → 0 < conn ∧ conn ≤ 65535
  alloc : ∀ node, r.alloc = some node → node ≠ z.rbtree.sentinel ∧
    ∀ xs, InOrder z.rbtree z.rbtree.root xs → node ∉ xs

inductive Reached : State → Prop where
  | init (nodes : ℕ → Node) (sentinel : ℕ) (data : ℕ → List ℕ) (conn : ℕ → ℕ) :
      Reached ⟨⟨ngxRbtreeInit nodes sentinel,data,conn⟩,[]⟩
  | request (s : State) (r : Request) (fuel : ℕ) (o : Outcome) (h : Reached s)
      (hvalid : Valid s.zone r) (hrun : ngxHttpLimitZoneHandler fuel s.zone r = some o) :
      Reached (s.after r o)
  | cleanup (s : State) (p : Pending) (fuel : ℕ) (z : Zone) (h : Reached s)
      (hp : p ∈ s.pending) (hrun : ngxHttpLimitZoneCleanup fuel s.zone p.node = some z) :
      Reached ⟨z,s.pending.erase p⟩

def admitted (s : State) (value : List ℕ) : ℕ := s.pending.countP (fun p => p.value = value)

end Nginx.LimitZone
