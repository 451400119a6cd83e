import Mathlib.Data.List.Basic
import Nginx.OffT

/-!
# The write filter and the rate of a response

One call appends the new buffers to the saved chain and hands the chain to the
`send_chain` of the connection, unless the output is postponed, the write event
is delayed or the allowance of the response is spent. Between calls anything
but the count of sent bytes may change.
-/

set_option autoImplicit false

namespace Nginx.WriteFilter
open Nginx.OffT

structure Buf where
  size : ℤ
  inMemory : Bool
  inFile : Bool
  flush : Bool
  recycled : Bool
  lastBuf : Bool
  sync : Bool
  deriving DecidableEq, Repr

def Buf.special (b : Buf) : Bool := (b.flush || b.lastBuf || b.sync) && !b.inMemory && !b.inFile

/-- What `ngx_parse_size` gives is a `ssize_t`; a negative one is refused. -/
structure Conf where
  postponeOutput : ℕ
  limitRateAfter : ℕ
  sendfileMaxChunk : ℕ
  pagesize : ℕ
  limitRateAfter_lt : limitRateAfter < 2^63
  sendfileMaxChunk_lt : sendfileMaxChunk < 2^63

structure Request where
  limitRate : ℕ
  startSec : ℤ

structure Connection where
  error : Bool
  sent : ℤ
  delayed : Bool
  ready : Bool
  writeBuffered : Bool
  lowlevelBuffered : Bool
  deriving DecidableEq, Repr

structure State where
  connection : Connection
  out : List Buf
  postponed : Bool
  deriving DecidableEq, Repr

/-- What `send_chain` comes back with; no chain is `NGX_CHAIN_ERROR`. -/
structure Answer where
  bytes : ℤ
  chain : Option (List Buf)
  ready : Bool
  lowlevelBuffered : Bool

/-- A call, with what the connection has become since the last one and the number of chain
links the pool still gives -/
structure Turn where
  now : ℤ
  bufs : List Buf
  links : ℕ
  error : Bool
  delayed : Bool
  ready : Bool
  writeBuffered : Bool
  lowlevelBuffered : Bool
  out : List Buf
  postponed : Bool
  send : List Buf → ℤ → Answer

inductive Rc where
  | ok
  | again
  | error
  deriving DecidableEq, Repr

/-- The call's result, the limit it computed, the one `send_chain` was given and the timers
it armed -/
structure Outcome where
  rc : Rc
  state : State
  limit : Option ℤ
  given : Option ℤ
  timers : List ℕ
  deriving DecidableEq, Repr

structure Totals where
  size : ℤ
  flush : Bool
  last : Bool

def Totals.add (a : Totals) (b : Buf) : Totals :=
  ⟨offT (a.size+b.size),a.flush || b.flush || b.recycled,a.last || b.lastBuf⟩

def scan : List Buf → Totals → Option Totals
  | [], a => some a
  | b::cl, a => if b.size = 0 ∧ !b.special then none else scan cl (a.add b)

def append : ℕ → List Buf → List Buf → Totals → List Buf × Option Totals
  | _, [], out, a => (out, some a)
  | 0, _::_, out, _ => (out, none)
  | n+1, b::ln, out, a =>
    if b.size = 0 ∧ !b.special then (out++[b], none) else append n ln (out++[b]) (a.add b)

def accounted (conf : Conf) (sent : ℤ) : ℤ :=
  if conf.limitRateAfter = 0 then sent
  else if offT (sent-conf.limitRateAfter) < 0 then 0 else offT (sent-conf.limitRateAfter)

def sendChain (conf : Conf) (r : Request) (t : Turn) (s : State) (computed : Option ℤ)
    (limit : ℤ) : Outcome :=
  let a := t.send s.out limit
  let c : Connection := { s.connection with
    sent := offT (s.connection.sent+a.bytes)
    ready := a.ready
    lowlevelBuffered := a.lowlevelBuffered }
  match a.chain with
  | none => ⟨.error,{ s with connection := { c with error := true } },computed,some limit,[]⟩
  | some chain =>
    let sent := if r.limitRate ≠ 0 then accounted conf s.connection.sent else s.connection.sent
    let delay := if r.limitRate ≠ 0 then
      unsigned ((accounted conf c.sent-sent)*1000)/r.limitRate else 0
    let chunk : Bool := delay = 0 ∧ limit ≠ 0 ∧ c.ready ∧
      offT (limit-offT (2*conf.pagesize)) ≤ offT (c.sent-sent)
    let timers := if 0 < delay then [delay] else if chunk then [1] else []
    let c := { c with delayed := c.delayed || 0 < delay || chunk }
    if chain ≠ [] then
      ⟨.again,{ s with connection := { c with writeBuffered := true }, out := chain },
        computed,some limit,timers⟩
    else
      ⟨if c.lowlevelBuffered ∧ !s.postponed then .again else .ok,
        { s with connection := { c with writeBuffered := false }, out := chain },
        computed,some limit,timers⟩

def output (conf : Conf) (r : Request) (t : Turn) (s : State) : Outcome :=
  if r.limitRate ≠ 0 then
    let limit := offT (r.limitRate*(t.now-r.startSec+1)-(s.connection.sent-conf.limitRateAfter))
    if limit ≤ 0 then
      ⟨.again,{ s with connection := { s.connection with delayed := true, writeBuffered := true } },
        some limit,none,[(unsigned (-limit*1000)/r.limitRate+1)%2^64]⟩
    else if conf.sendfileMaxChunk ≠ 0 ∧ offT conf.sendfileMaxChunk < limit then
      sendChain conf r t s (some limit) (offT conf.sendfileMaxChunk)
    else sendChain conf r t s (some limit) limit
  else sendChain conf r t s none (offT conf.sendfileMaxChunk)

def ngxHttpWriteFilter (conf : Conf) (r : Request) (t : Turn) (s : State) : Outcome :=
  let c := s.connection
  if c.error then ⟨.error,s,none,none,[]⟩
  else match scan s.out ⟨0,false,false⟩ with
  | none => ⟨.error,s,none,none,[]⟩
  | some a =>
    match append t.links t.bufs s.out a with
    | (out, none) => ⟨.error,{ s with out := out },none,none,[]⟩
    | (out, some a) =>
      if !a.last ∧ !a.flush ∧ t.bufs ≠ [] ∧ a.size < offT conf.postponeOutput then
        ⟨.ok,{ s with out := out },none,none,[]⟩
      else if c.delayed then
        ⟨.again,{ s with connection := { c with writeBuffered := true }, out := out },
          none,none,[]⟩
      else if a.size = 0 ∧ !c.lowlevelBuffered then
        if a.last ∨ a.flush then
          ⟨.ok,{ s with connection := { c with writeBuffered := false }, out := [] },
            none,none,[]⟩
        else ⟨.error,{ s with out := out },none,none,[]⟩
      else output conf r t { s with out := out }

/-! ## Runs -/

/-- What a call finds: only the count of sent bytes is as the last one left it. -/
def Turn.found (t : Turn) (s : State) : State :=
  ⟨⟨t.error,s.connection.sent,t.delayed,t.ready,t.writeBuffered,t.lowlevelBuffered⟩,
    t.out,t.postponed⟩

structure Event where
  turn : Turn
  before : State
  outcome : Outcome

@[grind =] def trace (conf : Conf) (r : Request) : State → List Turn → List Event
  | _, [] => []
  | s, t::ts =>
    let o := ngxHttpWriteFilter conf r t (t.found s)
    ⟨t,t.found s,o⟩::trace conf r o.state ts

/-- A `send_chain` that sends at most its limit, rounded up by less than a page -/
def Obedient (conf : Conf) (send : List Buf → ℤ → Answer) : Prop :=
  ∀ out limit, 0 < limit → 0 ≤ (send out limit).bytes ∧
    (send out limit).bytes < limit+conf.pagesize

/-- A timer made of a count of bytes, which is not negative; the timer is not negative as
`ngx_msec_int_t` either, as long as a thousand times the count does not overflow. -/
structure Armed (r : Request) (bytes : ℤ) (extra timer : ℕ) : Prop where
  nonneg : 0 ≤ bytes
  made : timer = (unsigned (bytes*1000)/r.limitRate+extra)%2^64
  signed : bytes*1000 < 2^63-1 → 0 ≤ offT timer

structure Limited (conf : Conf) (r : Request) (e : Event) : Prop where
  bound : e.outcome.state.connection.sent ≤
    r.limitRate*(e.turn.now-r.startSec+1)+conf.limitRateAfter+conf.pagesize
  allowed : ∀ limit, e.outcome.limit = some limit → limit =
    offT (r.limitRate*(e.turn.now-r.startSec+1)-(e.before.connection.sent-conf.limitRateAfter))
  spent : ∀ limit, e.outcome.limit = some limit → limit ≤ 0 →
    e.outcome.given = none ∧ e.outcome.state.connection.sent = e.before.connection.sent
  delayed : e.before.connection.delayed = true →
    e.outcome.given = none ∧ e.outcome.state.connection.sent = e.before.connection.sent
  quiet : e.outcome.limit = none → e.outcome.timers = []
  /-- the delay until the limit is above zero again -/
  waits : ∀ limit, e.outcome.limit = some limit → limit ≤ 0 →
    ∃ timer, e.outcome.timers = [timer] ∧ Armed r (-limit) 1 timer
  /-- the delay for what has been sent, as long as the count of it has not overflowed -/
  sends : ∀ limit, e.outcome.limit = some limit → 0 < limit → 0 ≤ e.before.connection.sent →
    e.before.connection.sent ≤ e.outcome.state.connection.sent →
    ∀ timer ∈ e.outcome.timers, timer = 1 ∨ Armed r
      (accounted conf e.outcome.state.connection.sent-accounted conf e.before.connection.sent)
      0 timer

end Nginx.WriteFilter
