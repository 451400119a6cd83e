import Mathlib.Data.List.Basic
import Mathlib.Data.Nat.Init

/-!
# The request body

`ngx_http_read_client_request_body` collects the body from `header_in` and the socket in
memory and in a temporary file; `ngx_http_discard_request_body` throws it away. What the client
sends behind the header is a function from offsets to bytes, and the socket answers each
`recv` with as many of the next bytes as it likes.
-/

set_option autoImplicit false

namespace Nginx.RequestBody

/-- Offsets behind the header: the bytes from `pos` to `last` are in the buffer, which
has room up to `stop`. -/
structure HeaderIn where
  pos : ℕ
  last : ℕ
  stop : ℕ
  deriving DecidableEq, Repr

structure TempFile where
  bytes : List ℕ
  offset : ℕ
  fileOffset : ℕ
  deriving DecidableEq, Repr

inductive BodyBuf where
  | memory (data : List ℕ)
  | file (filePos fileLast : ℕ)
  deriving DecidableEq, Repr

structure Settings where
  inFileOnly : Bool
  inSingleBuf : Bool
  bufferSize : ℕ
  deriving DecidableEq, Repr

/-- `received` counts the bytes behind the header that have been received, and `bufs` are
those of a body that has been read. -/
structure Request where
  main : Bool
  headerIn : HeaderIn
  contentLength : ℤ
  received : ℕ
  requestBody : Bool
  discardBody : Bool
  bufs : List BodyBuf
  tempFile : Option TempFile
  deriving DecidableEq, Repr

/-- A body that is being read: the chain `rb->bufs` is `first`, if there is one, and `rb->buf`
with its `data` and its `size`; `toWriteAll` says that `rb->to_write` is the
whole chain and not only `rb->buf`. -/
structure Body where
  first : Option (List ℕ)
  data : List ℕ
  size : ℕ
  toWriteAll : Bool
  rest : ℕ
  tempFile : Option TempFile
  deriving DecidableEq, Repr

inductive Recv where
  | bytes (n : ℕ)
  | again
  | closed
  | error
  deriving DecidableEq, Repr

/-- What a turn of a loop meets: whether the buffers that it has to write are written and
its allocations succeed, the answer of `recv`, and whether there is more to read then. -/
structure Answer where
  written : Bool
  recv : Recv
  ready : Bool
  deriving DecidableEq, Repr

inductive Status where
  | badRequest
  | internalServerError
  deriving DecidableEq, Repr

inductive Result where
  | done (r : Request)
  | again (r : Request) (rb : Body)
  | failed (status : Status)
  deriving DecidableEq, Repr

def sent (client : ℕ → ℕ) (pos last : ℕ) : List ℕ := (List.range' pos (last-pos)).map client

def TempFile.write (tf : TempFile) (chain : List (List ℕ)) : TempFile :=
  let data := chain.flatten
  ⟨tf.bytes.take tf.offset++data++tf.bytes.drop (tf.offset+data.length),tf.offset+data.length,
    tf.fileOffset+data.length⟩

def ngxHttpWriteRequestBody (tf : Option TempFile) (chain : List (List ℕ)) : TempFile :=
  (tf.getD ⟨[],0,0⟩).write chain

def Body.toWrite (rb : Body) : List (List ℕ) :=
  if rb.toWriteAll then rb.first.toList++[rb.data] else [rb.data]

def Body.flush (rb : Body) : Body :=
  { rb with tempFile := some (ngxHttpWriteRequestBody rb.tempFile rb.toWrite), toWriteAll := false,
            data := [] }

def finish (s : Settings) (saved : Bool) (r : Request) (rb : Body) : Result :=
  let first := rb.first.toList.map BodyBuf.memory
  if rb.tempFile.isSome || s.inFileOnly then
    if !saved then .failed .internalServerError
    else
      let tf := ngxHttpWriteRequestBody rb.tempFile rb.toWrite
      let bufs := first++[.file 0 tf.fileOffset]
      let bufs := if bufs.length > 1 ∧ (s.inFileOnly || s.inSingleBuf) then bufs.tail else bufs
      .done { r with bufs := bufs, tempFile := some tf }
  else
    let bufs := first++[.memory rb.data]
    let bufs := if bufs.length > 1 ∧ (s.inFileOnly || s.inSingleBuf) then bufs.tail else bufs
    .done { r with bufs := bufs, tempFile := none }

@[grind =] def ngxHttpDoReadClientRequestBody (client : ℕ → ℕ) (s : Settings) (saved : Bool) :
    List Answer → Request → Body → Option Result
  | [], _, _ => none
  | a::as, r, rb =>
    let full := rb.data.length = rb.size
    if full ∧ a.written = false then
      (if as = [] then some (.failed .internalServerError) else none)
    else
      let rb := if full then rb.flush else rb
      let size := rb.size-rb.data.length
      let size := if size > rb.rest then rb.rest else size
      match a.recv with
      | .again =>
        if a.ready then ngxHttpDoReadClientRequestBody client s saved as r rb
        else if as = [] then some (.again r rb)
        else none
      | .closed => if as = [] then some (.failed .badRequest) else none
      | .error => if as = [] then some (.failed .badRequest) else none
      | .bytes n =>
        if n = 0 ∨ n > size then none
        else
          let rb := { rb with data := rb.data++sent client r.received (r.received+n),
                              rest := rb.rest-n }
          let r := { r with received := r.received+n }
          if rb.rest = 0 then (if as = [] then some (finish s saved r rb) else none)
          else if rb.data.length < rb.size ∧ a.ready = false then
            (if as = [] then some (.again r rb) else none)
          else ngxHttpDoReadClientRequestBody client s saved as r rb

def newBody (s : Settings) (preread : Option (List ℕ)) (rest : ℕ) : Body :=
  let small := rest < s.bufferSize+s.bufferSize/4
  let copy := small ∧ s.inSingleBuf = true ∧ preread.isSome
  { first := if copy then none else preread
    data := if copy then preread.getD [] else []
    size := if small then rest+(if s.inSingleBuf then (preread.getD []).length else 0)
      else s.bufferSize
    toWriteAll := s.inFileOnly || s.inSingleBuf
    rest := rest
    tempFile := none }

/-- The first call for a request; `fine` says that its allocations, and a `100 Continue`
that the client expects, succeed. -/
def ngxHttpReadClientRequestBody (client : ℕ → ℕ) (s : Settings) (fine saved : Bool)
    (answers : List Answer) (r : Request) : Option Result :=
  if r.requestBody || r.discardBody then (if answers = [] then some (.done r) else none)
  else if !fine then (if answers = [] then some (.failed .internalServerError) else none)
  else
    let r := { r with requestBody := true }
    if r.contentLength < 0 then (if answers = [] then some (.done r) else none)
    else if r.contentLength = 0 then
      (if answers = [] then
        some (.done { r with tempFile := if s.inFileOnly then some ⟨[],0,0⟩ else none })
      else none)
    else
      let length := r.contentLength.toNat
      let h := r.headerIn
      let preread := h.last-h.pos
      if preread ≥ length ∧ preread ≠ 0 then
        if answers ≠ [] then none
        else
          let data := sent client h.pos (h.pos+length)
          if s.inFileOnly ∧ saved = false then some (.failed .internalServerError)
          else
            some (.done { r with
              headerIn := { h with pos := h.pos+length }, bufs := [.memory data],
              tempFile := if s.inFileOnly then some (ngxHttpWriteRequestBody none [data]) else none })
      else
        let r := { r with headerIn := { h with pos := h.last } }
        let rest := length-preread
        let data := sent client h.pos h.last
        if preread ≠ 0 ∧ rest ≤ h.stop-h.last then
          ngxHttpDoReadClientRequestBody client s saved answers r
            ⟨none,data,h.stop-h.pos,true,rest,none⟩
        else
          ngxHttpDoReadClientRequestBody client s saved answers r
            (newBody s (if preread = 0 then none else some data) rest)

def NGX_HTTP_DISCARD_BUFFER_SIZE : ℕ := 4096

inductive Discarded where
  | done (r : Request)
  | again (r : Request)
  deriving DecidableEq, Repr

/-- The loop of `ngx_http_read_discarded_request_body`, of which each turn that calls `recv` uses
an answer; `ready` is there before it. -/
@[grind =] def ngxHttpReadDiscardedRequestBody : List Answer → Bool → Request → Option Discarded
  | [], ready, r =>
    if r.contentLength = 0 then some (.done r)
    else if ready then none
    else some (.again r)
  | a::as, ready, r =>
    if r.contentLength = 0 ∨ ready = false then none
    else
      let size := min r.contentLength.toNat NGX_HTTP_DISCARD_BUFFER_SIZE
      match a.recv with
      | .error => if as = [] then some (.done r) else none
      | .again => if as = [] then some (.again r) else none
      | .closed => if as = [] then some (.done r) else none
      | .bytes n =>
        if n = 0 ∨ n > size then none
        else ngxHttpReadDiscardedRequestBody as a.ready
          { r with contentLength := r.contentLength-n, received := r.received+n }

def ngxHttpDiscardRequestBody (fine ready : Bool) (answers : List Answer) (r : Request) :
    Option (Option Request) :=
  if !r.main || r.discardBody then (if answers = [] then some (some r) else none)
  else if !fine then (if answers = [] then some none else none)
  else if r.contentLength ≤ 0 ∨ r.requestBody = true then
    (if answers = [] then some (some r) else none)
  else
    let h := r.headerIn
    let size := h.last-h.pos
    if size ≠ 0 ∧ r.contentLength ≤ size then
      (if answers = [] then
        some (some { r with headerIn := { h with pos := h.pos+r.contentLength.toNat },
                            contentLength := 0 })
      else none)
    else
      let r := { r with headerIn := { h with pos := h.pos+size }, contentLength := r.contentLength-size }
      match ngxHttpReadDiscardedRequestBody answers ready r with
      | none => none
      | some (.done r) => some (some r)
      | some (.again r) => some (some { r with discardBody := true })

end Nginx.RequestBody
