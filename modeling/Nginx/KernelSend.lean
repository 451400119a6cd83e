import Mathlib.Data.List.Basic
import Mathlib.Algebra.Order.Ring.Int

/-!
# Sending a chain to the kernel

`ngx_writev_chain` and `ngx_linux_sendfile_chain` hand the front of a chain to the kernel
until all is sent, the limit is reached or the kernel takes less than it is offered. Memory
and files are functions from addresses and offsets to bytes. The page size and
`IOV_MAX` are parameters.
-/

set_option autoImplicit false

namespace Nginx.KernelSend

structure Buf where
  pos : ℕ
  last : ℕ
  filePos : ℕ
  fileLast : ℕ
  fd : ℕ
  temporary : Bool
  memory : Bool
  mmap : Bool
  inFile : Bool
  flush : Bool
  sync : Bool
  lastBuf : Bool
  deriving DecidableEq, Repr

def ngxBufInMemory (b : Buf) : Bool := b.temporary || b.memory || b.mmap

def ngxBufInMemoryOnly (b : Buf) : Bool := ngxBufInMemory b && !b.inFile

def ngxBufSpecial (b : Buf) : Bool :=
  (b.flush || b.lastBuf || b.sync) && !ngxBufInMemory b && !b.inFile

def ngxBufSize (b : Buf) : ℕ :=
  if ngxBufInMemory b then b.last-b.pos else b.fileLast-b.filePos

/-- The options `TCP_NODELAY` and `TCP_CORK` of a connection. -/
inductive Option' where
  | unset
  | set
  | disabled
  deriving DecidableEq, Repr

structure Connection where
  ready : Bool
  error : Bool
  sent : ℕ
  tcpNodelay : Option'
  tcpNopush : Option'
  deriving DecidableEq, Repr

/-- What the kernel answers to an offer: it takes all of it, or `n` bytes of it but not
all, or nothing. -/
inductive Answer where
  | whole
  | part (n : ℕ)
  | again
  | intr
  | fail
  deriving DecidableEq, Repr

inductive SetAnswer where
  | done
  | intr
  | fail
  deriving DecidableEq, Repr

structure Round where
  nodelay : SetAnswer
  nopush : SetAnswer
  io : Answer
  deriving DecidableEq, Repr

def Answer.taken (offered : ℕ) : Answer → ℕ
  | .whole => offered
  | .part n => min n (offered-1)
  | _ => 0

def Answer.short : Answer → Bool
  | .part _ => true
  | .again => true
  | _ => false

def grow (size : ℕ) : List (ℕ × ℕ) → List (ℕ × ℕ)
  | [] => []
  | (base, len)::vec => (base, len+size)::vec

/-- The loop that creates the vectors, the newest in front; the chain `stop` ends it. With
the count of the bytes and the rest of the chain. -/
@[grind =] def gather (iovMax limit : ℕ) (stop : Buf → Bool) :
    List Buf → Option ℕ → List (ℕ × ℕ) → ℕ → List (ℕ × ℕ) × ℕ × List Buf
  | [], _, vec, send => (vec, send, [])
  | b::bs, prev, vec, send =>
    if vec.length < iovMax ∧ send < limit then
      if ngxBufSpecial b then gather iovMax limit stop bs prev vec send
      else if stop b then (vec, send, b::bs)
      else
        let size := b.last-b.pos
        let size := if send+size > limit then limit-send else size
        let vec := if prev = some b.pos then grow size vec else (b.pos, size)::vec
        gather iovMax limit stop bs (some (b.pos+size)) vec (send+size)
    else (vec, send, b::bs)

def vecBytes (mem : ℕ → ℕ) (vec : List (ℕ × ℕ)) : List ℕ :=
  vec.reverse.flatMap (fun v => (List.range' v.1 v.2).map mem)

/-- The loop that coalesces the neighbouring file buffers, with its counts of the bytes. -/
@[grind =] def fileLoop (page limit fd : ℕ) : List Buf → ℕ → ℕ → ℕ × ℕ
  | [], fileSize, send => (fileSize, send)
  | b::bs, fileSize, send =>
    let size := b.fileLast-b.filePos
    let aligned := (b.filePos+(limit-send)+page-1)/page*page
    let size := if send+size > limit then
        (if aligned ≤ b.fileLast then aligned-b.filePos else limit-send)
      else size
    match bs with
    | [] => (fileSize+size, send+size)
    | c::_ =>
      if c.inFile ∧ send+size < limit ∧ fd = c.fd ∧ b.filePos+size = c.filePos then
        fileLoop page limit fd bs (fileSize+size) (send+size)
      else (fileSize+size, send+size)

/-- What one turn of a loop hands to the kernel, the new count of the bytes, and whether a
header is followed by a file. -/
structure Offer where
  bytes : List ℕ
  send : ℕ
  cork : Bool

def writevOffer (iovMax limit : ℕ) (mem : ℕ → ℕ) (send : ℕ) (chain : List Buf) : Option Offer :=
  let (vec, send, _) := gather iovMax limit (fun _ => false) chain none [] send
  some ⟨vecBytes mem vec,send,false⟩

/-- How `ngx_linux_sendfile_chain` makes its offers; `none` is an error. -/
def sendfileOffer (iovMax page limit : ℕ) (mem : ℕ → ℕ) (files : ℕ → ℕ → ℕ) (send : ℕ)
    (chain : List Buf) : Option Offer :=
  let (vec, send, rest) := gather iovMax limit (fun b => !ngxBufInMemoryOnly b) chain none [] send
  match rest with
  | [] => some ⟨vecBytes mem vec,send,false⟩
  | b::_ =>
    if vec.length < iovMax ∧ send < limit ∧ !ngxBufInMemory b ∧ !b.inFile then none
    else if vec = [] ∧ b.inFile ∧ send < limit then
      let (fileSize, send) := fileLoop page limit b.fd rest 0 send
      if fileSize = 0 then none
      else some ⟨(List.range' b.filePos fileSize).map (files b.fd),send,false⟩
    else some ⟨vecBytes mem vec,send,vec ≠ [] ∧ b.inFile⟩

/-- The loop that moves the positions when `sent` bytes have been taken; the second list is
the chain that is left. -/
@[grind =] def advance (size : Buf → ℕ) (all : Buf → Buf) (some' : ℕ → Buf → Buf) :
    ℕ → List Buf → List Buf × List Buf
  | _, [] => ([], [])
  | sent, b::bs =>
    if ngxBufSpecial b then
      let (gone, rest) := advance size all some' sent bs
      (b::gone, rest)
    else if sent = 0 then ([], b::bs)
    else if sent ≥ size b then
      let (gone, rest) := advance size all some' (sent-size b) bs
      (all b::gone, rest)
    else ([], some' sent b::bs)

def writevAdvance : ℕ → List Buf → List Buf × List Buf :=
  advance (fun b => b.last-b.pos) (fun b => { b with pos := b.last })
    (fun sent b => { b with pos := b.pos+sent })

def sendfileAdvance : ℕ → List Buf → List Buf × List Buf :=
  advance ngxBufSize
    (fun b => { b with pos := if ngxBufInMemory b then b.last else b.pos,
                       filePos := if b.inFile then b.fileLast else b.filePos })
    (fun sent b => { b with pos := if ngxBufInMemory b then b.pos+sent else b.pos,
                            filePos := if b.inFile then b.filePos+sent else b.filePos })

def setCork (c : Connection) (k : Round) : Option Connection :=
  if c.tcpNopush ≠ .unset then some c
  else
    (if c.tcpNodelay = .set then
      match k.nodelay with
      | .done => some { c with tcpNodelay := .unset }
      | .intr => some c
      | .fail => none
    else some c).bind (fun c =>
      if c.tcpNodelay = .unset then
        match k.nopush with
        | .done => some { c with tcpNopush := .set }
        | .intr => some c
        | .fail => none
      else some c)

/-- In what the two functions differ: their offers, how they move the positions, and
whether the test for completeness keeps its outcome from one turn to the next. -/
structure Sender where
  limit : ℕ
  offer : ℕ → List Buf → Option Offer
  move : ℕ → List Buf → List Buf × List Buf
  sticky : Bool

/-- One call of the kernel: what it was offered, its answer and how many bytes it took. -/
structure Call where
  offered : List ℕ
  answer : Answer
  taken : ℕ

/-- How a function returns: the whole chain as it is now, the chain that it returns
(`none` is `NGX_CHAIN_ERROR`), and its calls of the kernel. -/
structure Outcome where
  chain : List Buf
  result : Option (List Buf)
  conn : Connection
  calls : List Call

/-- The variables of the loop; `gone` is the part of the chain in front of `rest`. -/
structure Turn where
  conn : Connection
  gone : List Buf
  rest : List Buf
  send : ℕ
  complete : Bool
  calls : List Call

def Turn.called (f : Sender) (t : Turn) (conn : Connection) (o : Offer) (answer : Answer) : Turn :=
  let n := answer.taken o.bytes.length
  { t with conn := { conn with sent := conn.sent+n }, send := o.send,
           complete := if n = o.bytes.length then true else f.sticky && t.complete,
           calls := t.calls++[⟨o.bytes,answer,n⟩] }

def Turn.moved (f : Sender) (t : Turn) (n : ℕ) : Turn :=
  { t with gone := t.gone++(f.move n t.rest).1, rest := (f.move n t.rest).2 }

def Turn.returned (t : Turn) (ready : Bool) : Outcome :=
  ⟨t.gone++t.rest,some t.rest,{ t.conn with ready := ready },t.calls⟩

def Turn.chainError (t : Turn) (error : Bool) : Outcome :=
  ⟨t.gone++t.rest,none,{ t.conn with error := error },t.calls⟩

/-- The loop of both functions with the answers `ks`, of which it uses all. Where the
kernel is offered nothing it takes nothing; if the loop would not end then, it never does. -/
@[grind =] def sendLoop (f : Sender) : List Round → Turn → Option Outcome
  | [], t =>
    match f.offer t.send t.rest with
    | none => some (t.chainError t.conn.error)
    | some o =>
      if o.bytes = [] ∧ (o.send ≥ f.limit ∨ (t.moved f 0).rest = []) then
        some ((t.moved f 0).returned t.conn.ready)
      else none
  | k::ks, t =>
    match f.offer t.send t.rest with
    | none => none
    | some o =>
      if o.bytes = [] then none
      else
        match if o.cork then setCork t.conn k else some t.conn with
        | none => if ks = [] then some (t.chainError true) else none
        | some conn =>
          let t := t.called f conn o k.io
          if k.io = .fail then (if ks = [] then some (t.chainError true) else none)
          else if k.io = .intr then sendLoop f ks t
          else
            let t := t.moved f (k.io.taken o.bytes.length)
            if t.complete = false then (if ks = [] then some (t.returned false) else none)
            else if t.send ≥ f.limit ∨ t.rest = [] then
              (if ks = [] then some (t.returned t.conn.ready) else none)
            else sendLoop f ks t

/-- The largest number of bytes of a call, where `limit` is 0 or too large. -/
def effective (limit most : ℕ) : ℕ := if limit = 0 ∨ limit > most then most else limit

def writevMost (page : ℕ) : ℕ := 2^63-1-page

def sendfileMost (page : ℕ) : ℕ := 2147483647-page

def ngxWritevChain (iovMax page : ℕ) (mem : ℕ → ℕ) (ks : List Round) (c : Connection)
    (chain : List Buf) (limit : ℕ) : Option Outcome :=
  if c.ready = false then (if ks = [] then some ⟨chain,some chain,c,[]⟩ else none)
  else
    let limit := effective limit (writevMost page)
    sendLoop ⟨limit,writevOffer iovMax limit mem,writevAdvance,true⟩ ks ⟨c,[],chain,0,false,[]⟩

def ngxLinuxSendfileChain (iovMax page : ℕ) (mem : ℕ → ℕ) (files : ℕ → ℕ → ℕ) (ks : List Round)
    (c : Connection) (chain : List Buf) (limit : ℕ) : Option Outcome :=
  if c.ready = false then (if ks = [] then some ⟨chain,some chain,c,[]⟩ else none)
  else
    let limit := effective limit (sendfileMost page)
    sendLoop ⟨limit,sendfileOffer iovMax page limit mem files,sendfileAdvance,false⟩ ks
      ⟨c,[],chain,0,false,[]⟩

end Nginx.KernelSend
