import Nginx.ResolverCopy

/-!
# The answers of a response

`ngx_resolver_process_a` goes through the answers once to count the addresses,
and once more to store them when there are several. The response is a memory with
an end; what stands behind it is unknown. Both passes list the offsets of the
records they visit, the first the addresses it sees and the second what it reads.
-/

set_option autoImplicit false

namespace Nginx.ResolverAnswers
open Nginx.ResolverCopy

section Passes
variable (buf : ℕ → UInt8) (last : ℕ)

def twoBytes (i : ℕ) : ℕ := (buf i).toNat*256+(buf (i+1)).toNat

/-- The number that `htonl` puts into network byte order -/
def inAddr (i : ℕ) : ℕ :=
  (buf i).toNat*2^24+(buf (i+1)).toNat*2^16+(buf (i+2)).toNat*2^8+(buf (i+3)).toNat

inductive Err where
  | short
  | invalidName
  deriving DecidableEq, Repr

def Err.text : Err → String
  | .short => "short dns response"
  | .invalidName => "invalid name in dns response"

/-- Header checks of `ngx_resolver_process_response` and the first test of
`ngx_resolver_process_a`: the question's name -/
def question : ℕ → ℕ → Option ℕ
  | 0, _ => none
  | k+1, i =>
    if i < last then
      if buf i = 0 then some (i+1) else question k (i+1+(buf i).toNat)
    else none

/-- The number of answers and where they begin, for a response without error to a query for
addresses -/
def responseHeader : Option (ℕ × ℕ) :=
  if last < 12 then none
  else if twoBytes buf 2 < 2^15 then none
  else if twoBytes buf 2%2^7 ≠ 0 then none
  else if twoBytes buf 4 ≠ 1 then none
  else (question buf last last 12).bind fun i =>
    let nan := twoBytes buf 6
    if last < i+4+nan*12 then none
    else if twoBytes buf (i+2) ≠ 1 then none
    else if twoBytes buf i ≠ 1 then none
    else if nan = 0 then none
    else some (nan, i+4)

/-- The `while` loop over the name of an answer, up to the label `found` -/
@[grind =] def skipName (start : ℕ) : ℕ → ℕ → Except Err ℕ
  | 0, _ => .error .short
  | k+1, i =>
    if i < last then
      if IsPointer (buf i).toNat then .ok (i+2)
      else if buf i = 0 then
        if i+1-start < 2 then .error .invalidName else .ok (i+1)
      else skipName start k (i+1+(buf i).toNat)
    else .error .short

structure First where
  i : ℕ
  naddrs : ℕ
  addr : ℕ
  cname : Option ℕ
  qtype : ℕ
  starts : List ℕ
  seen : List ℕ
  deriving DecidableEq, Repr

def firstTurn (s : First) : Except Err First :=
  match skipName buf last s.i (last-s.i) s.i with
  | .error e => .error e
  | .ok i =>
    if last ≤ i+10 then .error .short
    else
      let qtype := twoBytes buf i
      let len := twoBytes buf (i+8)
      let s := { s with qtype := qtype, starts := s.starts++[s.i] }
      if qtype = 1 then
        if last < i+10+len then .error .short
        else .ok { s with
          addr := inAddr buf (i+10)
          naddrs := s.naddrs+1
          seen := s.seen++[inAddr buf (i+10)]
          i := i+10+len }
      else if qtype = 5 then .ok { s with cname := some (i+10), i := i+10+len }
      else if qtype = 39 then .ok { s with i := i+10+len }
      -- "unexpected qtype": logged only
      else .ok { s with i := i }

@[grind =] def firstPass : ℕ → First → Except Err First
  | 0, s => .ok s
  | nan+1, s =>
    match firstTurn buf last s with
    | .error e => .error e
    | .ok s => firstPass nan s

/-- The loop over the name of an answer in the second pass, with what it reads -/
@[grind =] def skipAgain : ℕ → ℕ → Option (ℕ × List ℕ)
  | 0, _ => none
  | fuel+1, i =>
    if IsPointer (buf i).toNat then some (i+2, [i])
    else if buf i = 0 then some (i+1, [i])
    else (skipAgain fuel (i+1+(buf i).toNat)).map fun r => (r.1, i::r.2)

structure Second where
  i : ℕ
  starts : List ℕ
  reads : List ℕ
  stored : List ℕ
  deriving DecidableEq, Repr

@[grind =] def secondPass (fuel naddrs : ℕ) : ℕ → Second → Option Second
  | 0, s => some s
  | nan+1, s =>
    (skipAgain buf fuel s.i).bind fun r =>
      let i := r.1
      let len := twoBytes buf (i+8)
      let s := { s with starts := s.starts++[s.i], reads := s.reads++r.2++[i, i+1, i+8, i+9] }
      if twoBytes buf i = 1 then
        let s := { s with
          reads := s.reads++[i+10, i+11, i+12, i+13]
          stored := s.stored++[inAddr buf (i+10)] }
        if s.stored.length = naddrs then some s
        else secondPass fuel naddrs nan { s with i := i+10+len }
      else secondPass fuel naddrs nan { s with i := i+10+len }

def counted (nan ans : ℕ) : Except Err First :=
  firstPass buf last nan ⟨ans,0,0,none,0,[],[]⟩

def storing (fuel naddrs nan ans : ℕ) : Option Second :=
  secondPass buf fuel naddrs nan ⟨ans,[],[],[]⟩

def addresses (fuel nan ans : ℕ) : Option (List ℕ) :=
  match counted buf last nan ans with
  | .error _ => some []
  | .ok s =>
    if s.naddrs = 0 then some []
    else if s.naddrs = 1 then some [s.addr]
    else (storing buf fuel s.naddrs nan ans).map (·.stored)

/-! ## The walk -/

/-- A record as the first pass finds it: where it starts and where its name ends -/
structure Visit where
  start : ℕ
  header : ℕ
  deriving DecidableEq, Repr

def Visit.qtype (v : Visit) : ℕ := twoBytes buf v.header

def Visit.Known (v : Visit) : Prop := v.qtype buf = 1 ∨ v.qtype buf = 5 ∨ v.qtype buf = 39

instance (v : Visit) : Decidable (v.Known buf) := inferInstanceAs (Decidable (_ ∨ _))

def Visit.next (v : Visit) : ℕ :=
  if v.Known buf then v.header+10+twoBytes buf (v.header+8) else v.header

@[grind =] def visits : ℕ → ℕ → List Visit
  | 0, _ => []
  | nan+1, i =>
    match skipName buf last i (last-i) i with
    | .error _ => []
    | .ok j => ⟨i,j⟩::visits nan (Visit.next buf ⟨i,j⟩)

/-- No record of another type stands before one with an address, and the addresses have their
four bytes in the response. -/
structure InStep (vs : List Visit) : Prop where
  known : ∀ front v rest, vs = front++v::rest → ¬v.Known buf → ∀ w ∈ rest, w.qtype buf ≠ 1
  whole : ∀ v ∈ vs, v.qtype buf = 1 → v.header+14 ≤ last

/-- The second pass visits the records the first has visited, stores what that has seen, and
stays within the response. -/
structure Agrees (s : First) (o : Second) : Prop where
  starts : o.starts <+: s.starts
  stored : o.stored = s.seen
  reads : ∀ p ∈ o.reads, p < last

end Passes

end Nginx.ResolverAnswers
