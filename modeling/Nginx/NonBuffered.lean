import Nginx.MemoryRange

/-!
# Proxying without buffering

One buffer is filled with what the upstream sends, and its parts are passed to the output filter
one after another. It is rewound when no part of it is busy. The filter takes bytes from the
front of what it was given, at any time and in any amounts. Sizes have 64 bits.
-/

set_option autoImplicit false

namespace Nginx.NonBuffered
open MemoryRange

/-- A part of the memory; `start` is that of memory of its own, of which there is none. -/
structure Buf where
  start : ℕ
  pos : ℕ
  last : ℕ
  tag : ℕ
  flush : Bool
  memory : Bool
  deriving DecidableEq, Repr

def ngxCallocBuf : Buf := ⟨0,0,0,0,false,false⟩

def ngxBufSize (b : Buf) : ℤ := if b.memory then (b.last : ℤ)-b.pos else 0

structure ReadEvent where
  ready : Bool
  eof : Bool
  error : Bool
  deriving DecidableEq, Repr

/-- `start`, `pos`, `last` and `final` belong to `u->buffer`, and `next` counts the buffers made.
Of the output filter there is what it keeps, what it was passed and what it has sent. -/
structure State where
  mem : ℕ → UInt8
  start : ℕ
  pos : ℕ
  last : ℕ
  final : ℕ
  length : ℕ
  responseLength : ℕ
  tag : ℕ
  bufs : ℕ → Buf
  next : ℕ
  freeBufs : List ℕ
  busyBufs : List ℕ
  outBufs : List ℕ
  read : ReadEvent
  pending : List ℕ
  passed : List UInt8
  sent : List UInt8

def ngxMaxSizeTValue : ℕ := 2^63-1

def ngxChainGetFreeBuf (alloc : Bool) (s : State) : Option (ℕ × State) :=
  match s.freeBufs with
  | p::free => some (p, { s with freeBufs := free })
  | [] =>
    if alloc then
      some (s.next,
        { s with bufs := Function.update s.bufs s.next ngxCallocBuf, next := s.next+1 })
    else none

/-- The loop of `ngx_chain_update_chains` over the busy chain, with the new free and busy ones -/
@[grind =] def updateLoop (tag : ℕ) :
    (ℕ → Buf) → List ℕ → List ℕ → (ℕ → Buf) × List ℕ × List ℕ
  | bufs, free, [] => (bufs, free, [])
  | bufs, free, p::busy =>
    if ngxBufSize (bufs p) ≠ 0 then (bufs, free, p::busy)
    else if (bufs p).tag ≠ tag then updateLoop tag bufs free busy
    else updateLoop tag (Function.update bufs p
      { bufs p with pos := (bufs p).start, last := (bufs p).start }) (p::free) busy

def ngxChainUpdateChains (s : State) : State :=
  let (bufs, free, busy) := updateLoop s.tag s.bufs s.freeBufs (s.busyBufs++s.outBufs)
  { s with bufs := bufs, freeBufs := free, busyBufs := busy, outBufs := [] }

/-- `ngx_http_upstream_non_buffered_filter`, or none where it returns `NGX_ERROR` -/
def nonBufferedFilter (alloc : Bool) (s : State) (bytes : ℕ) : Option State :=
  (ngxChainGetFreeBuf alloc s).map fun r =>
    let (p, s) := r
    let s := { s with
      outBufs := s.outBufs++[p]
      bufs := Function.update s.bufs p { s.bufs p with
        flush := true, memory := true, pos := s.last, last := s.last+bytes, tag := s.tag }
      last := s.last+bytes }
    if s.length = ngxMaxSizeTValue then s
    else { s with length := (s.length+(2^64-bytes % 2^64)) % 2^64 }

def sendByte (s : State) : State :=
  match s.pending with
  | [] => s
  | p::ps =>
    let b := s.bufs p
    { s with
      bufs := Function.update s.bufs p { b with pos := b.pos+1 }
      pending := if b.pos+1 = b.last then ps else p::ps
      sent := s.sent++[s.mem b.pos] }

def bufBytes (s : State) (p : ℕ) : List UInt8 := readRange s.mem (s.bufs p).pos (s.bufs p).last

/-- `ngx_http_output_filter` is passed `u->out_bufs` and sends some bytes. -/
def ngxHttpOutputFilter (s : State) (bytes : ℕ) : State :=
  Nat.iterate sendByte bytes { s with
    pending := s.pending++s.outBufs
    passed := s.passed++s.outBufs.flatMap (bufBytes s) }

/-- What `recv` returns; it never gives more than the stream has and the caller asks for. -/
inductive Recv where
  | again
  | error
  | bytes (n : ℕ)
  deriving DecidableEq, Repr

/-- What the calls of one turn answer: the output filter, with the bytes it sends, then `recv`,
with the flags it leaves, and the allocation of a buffer -/
structure Answer where
  filterError : Bool
  bytes : ℕ
  recv : Recv
  read : ReadEvent
  alloc : Bool
  deriving DecidableEq, Repr

/-- Why `ngx_http_upstream_finalize_request` is called -/
inductive Why where
  | finished
  | client
  | failed
  deriving DecidableEq, Repr

inductive Stage where
  | loop (doWrite : Bool)
  | waiting
  | finalized (why : Why)
  deriving DecidableEq, Repr

def reading (body : List UInt8) (s : State) (a : Answer) : State × Stage :=
  let size := s.final-s.last
  let size := if size > s.length then s.length else size
  if size ≠ 0 ∧ s.read.ready = true then
    match a.recv with
    | .again => ({ s with read := a.read }, .waiting)
    | .error => ({ s with read := a.read }, .loop true)
    | .bytes n =>
      let data := (body.drop s.responseLength).take (min n size)
      let s := { s with read := a.read, mem := writeRange s.mem s.last data }
      if data.length > 0 then
        let s := { s with responseLength := s.responseLength+data.length }
        match nonBufferedFilter a.alloc s data.length with
        | none => (s, .finalized .failed)
        | some s => (s, .loop true)
      else (s, .loop true)
  else (s, .waiting)

def written (body : List UInt8) (s : State) (a : Answer) : State × Stage :=
  if s.busyBufs = [] then
    if s.length = 0 ∨ s.read.eof = true ∨ s.read.error = true then (s, .finalized .finished)
    else reading body { s with pos := s.start, last := s.start } a
  else reading body s a

/-- A turn of the loop of `ngx_http_upstream_process_non_buffered_request` -/
def turn (body : List UInt8) (s : State) (doWrite : Bool) (a : Answer) : State × Stage :=
  if doWrite then
    if s.outBufs ≠ [] ∨ s.busyBufs ≠ [] then
      let s := ngxHttpOutputFilter s a.bytes
      if a.filterError then (s, .finalized .client)
      else written body (ngxChainUpdateChains s) a
    else written body s a
  else reading body s a

/-- The start of `ngx_http_upstream_process_non_buffered_request` -/
def processNonBufferedRequest (s : State) (doWrite : Bool) : State × Stage :=
  (s, .loop (doWrite || s.length = 0))

def processNonBufferedDownstream (s : State) (timedout : Bool) : State × Stage :=
  if timedout then (s, .finalized .client) else processNonBufferedRequest s true

def processNonBufferedUpstream (s : State) (timedout : Bool) : State × Stage :=
  if timedout then (s, .finalized .failed) else processNonBufferedRequest s false

/-- What the calls of `ngx_http_upstream_send_response` answer -/
structure Opening where
  nodelayError : Bool
  alloc : Bool
  specialError : Bool
  upstreamTimedout : Bool
  clientTimedout : Bool
  deriving DecidableEq, Repr

/-- The branch of `ngx_http_upstream_send_response` for a response that is not buffered -/
def sendResponse (s : State) (a : Opening) : State × Stage :=
  if a.nodelayError then (s, .finalized .failed)
  else
    let n := s.last-s.pos
    if n ≠ 0 then
      let s := { s with last := s.pos, responseLength := s.responseLength+n }
      match nonBufferedFilter a.alloc s n with
      | none => (s, .finalized .failed)
      | some s => processNonBufferedDownstream s a.clientTimedout
    else
      let s := { s with pos := s.start, last := s.start }
      if a.specialError then (s, .finalized .client)
      else if s.read.ready then processNonBufferedUpstream s a.upstreamTimedout
      else (s, .waiting)

end Nginx.NonBuffered
