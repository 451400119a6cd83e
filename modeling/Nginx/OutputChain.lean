import Nginx.BufChain

/-!
# The output chain

`ngx_output_chain` passes buffers to the filter behind as they are or copies them, piece by
piece, into buffers of its own, of which it makes no more than `bufs.num`. What cannot
be copied yet stays in `ctx->in`. Files are functions from offsets to bytes.
-/

set_option autoImplicit false

namespace Nginx.OutputChain
open Nginx.BufChain

/-- The settings in `ngx_output_chain_ctx_t`; `directio` says it of a file. -/
structure Config where
  sendfile : Bool
  needInMemory : Bool
  needInTemp : Bool
  aioHandler : Bool
  alignment : ℕ
  num : ℕ
  size : ℕ
  tag : ℕ
  directio : ℕ → Bool

/-- The variables of the context, with the buffers and the filter behind; `next` counts the
buffers that have been made. -/
structure State where
  behind : Behind
  next : ℕ
  ins : List Ptr
  buf : Option Ptr
  free : List Ptr
  busy : List Ptr
  allocated : ℕ
  directio : Bool
  aio : Bool

inductive Rc where
  | ok
  | error
  | again
  | done
  | declined
  deriving DecidableEq, Repr

/-- Whether the allocations and the reading of one turn succeed; `again` is a reading that
has not ended. -/
inductive Answer where
  | fine
  | again
  | fail
  deriving DecidableEq, Repr

def State.set (s : State) (p : Ptr) (b : Buf) : State :=
  { s with behind := { s.behind with bufs := Function.update s.behind.bufs p b } }

def fileDirectio (c : Config) (b : Buf) : Bool :=
  match b.file with
  | some file => c.directio file
  | none => false

def ngxOutputChainAsIs (c : Config) (b : Buf) : Bool × Buf :=
  if ngxBufSpecial b then (true, b)
  else if b.inFile && fileDirectio c b then (false, b)
  else if !c.sendfile && !ngxBufInMemory b then (false, b)
  else
    let b := if c.sendfile then b else { b with inFile := false }
    if c.needInMemory && !ngxBufInMemory b then (false, b)
    else if c.needInTemp && (b.memory || b.mmap) then (false, b)
    else (true, b)

/-- The size of the buffer that `ngx_output_chain_align_file_buf` makes;
`Nat.land` takes the bits of the offset below the alignment. -/
def ngxOutputChainAlignFileBuf (c : Config) (b : Buf) (bsize : ℕ) : Option ℕ :=
  if !fileDirectio c b then none
  else
    let size := Nat.land b.filePos (c.alignment-1)
    if size = 0 then
      if bsize ≥ c.size then none else some bsize
    else if c.alignment-size > bsize then some bsize
    else some (c.alignment-size)

def getBufSize (c : Config) (directio : Bool) (b : Buf) (bsize : ℕ) : ℕ × Bool :=
  if b.lastInChain then
    if bsize < c.size then (bsize, false)
    else if !directio && c.num = 1 && bsize < c.size+c.size/4 then (bsize, false)
    else (c.size, true)
  else (c.size, true)

def State.make (s : State) (b : Buf) : Ptr × State :=
  (.own s.next, { s.set (.own s.next) b with next := s.next+1 })

/-- `ctx->buf` for copying from `b`; `none` leaves the loop. -/
def State.getBuf (c : Config) (s : State) (out : List Ptr) (b : Buf) (bsize : ℕ) :
    Option Ptr × State :=
  match s.buf with
  | some q => (some q, s)
  | none =>
    let s := { s with directio := s.directio || fileDirectio c b }
    match ngxOutputChainAlignFileBuf c b bsize with
    | some size =>
      let (q, s) := s.make { ngxCallocBuf with temporary := true, room := size }
      (some q, { s with buf := some q })
    | none =>
      match s.free with
      | q::free => (some q, { s with buf := some q, free := free })
      | [] =>
        if out ≠ [] ∨ s.allocated = c.num then (none, s)
        else
          let (size, recycled) := getBufSize c s.directio b bsize
          let (q, s) := s.make { ngxCallocBuf with temporary := true, room := size,
                                                   tag := c.tag, recycled := recycled }
          (some q, { s with buf := some q, allocated := s.allocated+1 })

/-- The source and the destination when as much as there is room for has been copied. -/
def ngxOutputChainCopyBuf (files : Option ℕ → ℕ → ℕ) (sendfile : Bool) (src dst : Buf) : Buf × Buf :=
  let n := min (ngxBufSize src) dst.room
  let inFile := sendfile && (src.inFile || !ngxBufInMemory src)
  let dst := { dst with data := dst.data++(content files src).take n, inFile := inFile }
  let dst := if inFile then
      { dst with file := src.file, filePos := src.filePos, fileLast := src.filePos+n }
    else dst
  let src := advance n src
  (src, if ngxBufSize src = 0 then
      { dst with flush := src.flush, lastBuf := src.lastBuf, lastInChain := src.lastInChain }
    else dst)

/-- How a turn of the inner loop ends: it goes on, the loop is left, or the function
returns. -/
inductive Turn where
  | more (s : State) (out : List Ptr)
  | full (s : State) (out : List Ptr)
  | returned (s : State) (rc : Rc)

/-- One turn for the buffer `p` in front of `ctx->in`; only reading from a file
can have to wait. -/
def turn (c : Config) (files : Option ℕ → ℕ → ℕ) (s : State) (out : List Ptr) (p : Ptr)
    (rest : List Ptr) (a : Answer) : Option Turn :=
  let b := s.behind.bufs p
  let bsize := ngxBufSize b
  -- "zero size buf in output" is logged and the buffer is dropped
  if bsize = 0 ∧ ngxBufSpecial b = false then some (.more { s with ins := rest } out)
  else
    let (asIs, b) := ngxOutputChainAsIs c b
    let s := s.set p b
    if asIs then some (.more { s with ins := rest } (out++[p]))
    else
      match s.getBuf c out b bsize with
      | (none, s) => some (.full s out)
      | (some q, s) =>
        match a with
        | .fail => some (.returned s .error)
        | .again =>
          if ngxBufInMemory b || !c.aioHandler then none
          else
            let s := { s with aio := true }
            some (if out = [] then .returned s .again else .full s out)
        | .fine =>
          let (src, dst) :=
            ngxOutputChainCopyBuf files (c.sendfile && !s.directio) b (s.behind.bufs q)
          let s := (s.set p src).set q dst
          some (.more { s with buf := none, ins := if ngxBufSize src = 0 then rest else p::rest }
            (out++[q]))

@[grind =] def fill (c : Config) (files : Option ℕ → ℕ → ℕ) : List Answer → State → List Ptr → Option Turn
  | [], s, out => if s.ins = [] then some (.full s out) else none
  | a::as, s, out =>
    match s.ins with
    | [] => none
    | p::rest =>
      match turn c files s out p rest a with
      | none => none
      | some (.more s out) => fill c files as s out
      | some t => if as = [] then some t else none

/-- What happens in one turn of the outer loop: the answers for the inner one, and what the
filter behind returns and how many bytes it takes. -/
structure Round where
  answers : List Answer
  rc : Rc
  accepted : ℕ

def State.pass (files : Option ℕ → ℕ → ℕ) (s : State) (out : List Ptr) (k : ℕ) : State :=
  { s with behind := (s.behind.pass files out).accept files k }

def State.update (c : Config) (s : State) (out : List Ptr) : State :=
  let (bufs, free, busy) := ngxChainUpdateChains s.behind.bufs s.free s.busy out c.tag
  { s with behind := { s.behind with bufs := bufs }, free := free, busy := busy }

/-- The outer loop; `last` is what the filter behind has returned last. -/
@[grind =] def outputLoop (c : Config) (files : Option ℕ → ℕ → ℕ) :
    List Round → Option Rc → State → Option (State × Rc)
  | [], _, _ => none
  | r::rs, last, s =>
    if s.aio then (if rs = [] then some (s, .again) else none)
    else
      match fill c files r.answers s [] with
      | none => none
      | some (.more _ _) => none
      | some (.returned s rc) => if rs = [] then some (s, rc) else none
      | some (.full s out) =>
        match last, out with
        | some rc, [] => if rs = [] then some (s, if s.ins ≠ [] then .again else rc) else none
        | _, _ =>
          let s := s.pass files out r.accepted
          if r.rc = .error ∨ r.rc = .done then (if rs = [] then some (s, r.rc) else none)
          else outputLoop c files rs (some r.rc) (s.update c out)

def direct (files : Option ℕ → ℕ → ℕ) (s : State) (out : List Ptr) : List Round → Option (State × Rc)
  | [r] => some (s.pass files out r.accepted, r.rc)
  | _ => none

def ngxOutputChain (c : Config) (files : Option ℕ → ℕ → ℕ) (s : State) (ins : List Ptr)
    (rounds : List Round) : Option (State × Rc) :=
  if s.ins = [] ∧ s.busy = [] then
    match ins with
    | [] => direct files s [] rounds
    | [p] =>
      let (asIs, b) := ngxOutputChainAsIs c (s.behind.bufs p)
      let s := s.set p b
      if asIs then direct files s [p] rounds
      else outputLoop c files rounds none { s with ins := [p] }
    | ins => outputLoop c files rounds none { s with ins := s.ins++ins }
  else outputLoop c files rounds none { s with ins := s.ins++ins }

end Nginx.OutputChain
