import Mathlib.Tactic.Common

/-!
# The substitution filter

Pointers into the current buffer are offsets from its start, and a null pointer
is `none`. Buffers hold their bytes in memory. The replacement is evaluated once
for a request, so a link that stands for it carries no bytes of its own.
-/

set_option autoImplicit false

namespace Nginx.SubFilter

def ngxTolower (c : UInt8) : UInt8 := if 65 ≤ c ∧ c ≤ 90 then c ||| 0x20 else c

/-- The byte at `len` and those behind it can be read too. -/
structure NgxStr where
  data : ℕ → UInt8
  len : ℕ

structure Buf where
  data : List UInt8
  lastBuf : Bool
  deriving DecidableEq, Repr

inductive Piece where
  | saved (bytes : List UInt8)
  | copy (bytes : List UInt8)
  | sub
  | sync
  deriving DecidableEq, Repr

structure Link where
  piece : Piece
  lastBuf : Bool
  deriving DecidableEq, Repr

inductive SubState where
  | subStartState
  | subMatchState
  deriving DecidableEq, Repr

inductive Rc where
  | ok
  | again
  deriving DecidableEq, Repr

structure SubCtx where
  match' : NgxStr
  saved : List UInt8
  looked : List UInt8
  once : Bool
  pos : ℕ
  copyStart : Option ℕ
  copyEnd : Option ℕ
  out : List Link
  state : SubState

def Piece.bytes (sub : List UInt8) : Piece → List UInt8
  | .saved bytes => bytes
  | .copy bytes => bytes
  | .sub => sub
  | .sync => []

def output (sub : List UInt8) (links : List Link) : List UInt8 :=
  links.flatMap (fun link => link.piece.bytes sub)

def SubCtx.leave (ctx : SubCtx) (copyEnd : Option ℕ) : SubCtx :=
  { ctx with
    copyEnd := copyEnd
    copyStart := if ctx.copyStart = none ∧ copyEnd ≠ none then some 0 else ctx.copyStart }

/-- The loop of `ngx_http_sub_parse` over the bytes from `p` on. In the start
state it is the tight loop, which leaves the function the same way. -/
@[grind =] def subParseLoop (ctx : SubCtx) :
    List UInt8 → ℕ → SubState → List UInt8 → Option ℕ → SubCtx × Rc
  | [], p, state, looked, copyEnd =>
    let ctx := { ctx with state := state, pos := p, looked := looked }
    (ctx.leave (if state = .subStartState then some p else copyEnd), .again)
  | c::rest, p, .subStartState, looked, copyEnd =>
    if ngxTolower c = ctx.match'.data 0 then
      subParseLoop ctx rest (p+1) .subMatchState [c] (some p)
    else subParseLoop ctx rest (p+1) .subStartState looked copyEnd
  | c::rest, p, .subMatchState, looked, copyEnd =>
    if ngxTolower c = ctx.match'.data looked.length then
      let looked := looked++[c]
      if looked.length = ctx.match'.len then
        let ctx := { ctx with
          saved := if p-ctx.pos < looked.length then [] else ctx.saved
          state := .subStartState, pos := p+1, looked := [] }
        (ctx.leave copyEnd, .ok)
      else subParseLoop ctx rest (p+1) .subMatchState looked copyEnd
    else if ngxTolower c = ctx.match'.data 0 then
      subParseLoop ctx rest (p+1) .subMatchState [c] (some p)
    else subParseLoop ctx rest (p+1) .subStartState [] (some p)

def ngxHttpSubParse (ctx : SubCtx) (buf : List UInt8) : SubCtx × Rc :=
  if ctx.once then
    ({ ctx with copyStart := some ctx.pos, copyEnd := some buf.length, pos := buf.length,
                looked := [] }, .again)
  else subParseLoop ctx (buf.drop ctx.pos) ctx.pos ctx.state ctx.looked ctx.copyEnd

def SubCtx.copyOut (ctx : SubCtx) (buf : List UInt8) : SubCtx :=
  if ctx.copyStart = ctx.copyEnd then ctx
  else
    { ctx with
      saved := []
      out := ctx.out++(if ctx.saved = [] then [] else [⟨.saved ctx.saved,false⟩])++
        [⟨.copy ((buf.take (ctx.copyEnd.getD 0)).drop (ctx.copyStart.getD 0)),false⟩] }

def SubCtx.resetCopy (ctx : SubCtx) : SubCtx :=
  if ctx.state = .subStartState then
    { ctx with copyStart := some ctx.pos, copyEnd := some ctx.pos }
  else { ctx with copyStart := none, copyEnd := none }

/-- The inner loop of `ngx_http_sub_body_filter`. Every round takes at least
one byte. -/
@[grind =] def subBufLoop (once : Bool) (buf : List UInt8) : ℕ → SubCtx → SubCtx
  | 0, ctx => ctx
  | fuel+1, ctx =>
    if ctx.pos < buf.length then
      let parsed := ngxHttpSubParse ctx buf
      let ctx := (parsed.1.copyOut buf).resetCopy
      subBufLoop once buf fuel
        (if parsed.2 = .ok then { ctx with out := ctx.out++[⟨.sub,false⟩], once := once } else ctx)
    else ctx

@[grind =] def setLastBuf (lastBuf : Bool) : List Link → List Link
  | [] => []
  | [link] => [{ link with lastBuf := lastBuf }]
  | link::link'::links => link::setLastBuf lastBuf (link'::links)

/-- One round of the outer loop of `ngx_http_sub_body_filter`. -/
def filterBuf (once : Bool) (ctx : SubCtx) (buf : Buf) : SubCtx :=
  let ctx := { ctx with pos := 0 }
  let ctx := if ctx.state = .subStartState then { ctx with copyStart := some 0, copyEnd := some 0 }
    else ctx
  let after := subBufLoop once buf.data buf.data.length ctx
  { after with
    out := if after.out.length = ctx.out.length then after.out++[⟨.sync,buf.lastBuf⟩]
      else setLastBuf buf.lastBuf after.out
    saved := after.looked }

/-- A call returns with all its buffers consumed, so none waits in `ctx->in` or
`ctx->buf` for the next one. -/
def ngxHttpSubBodyFilter (once : Bool) (ctx : SubCtx) (bufs : List Buf) : SubCtx × List Link :=
  if ctx.once then (ctx, bufs.map (fun buf => ⟨.copy buf.data,buf.lastBuf⟩))
  else
    let ctx := bufs.foldl (filterBuf once) ctx
    ({ ctx with out := [] }, ctx.out)

@[grind =] def runCalls (once : Bool) : SubCtx → List (List Buf) → List Link
  | _, [] => []
  | ctx, bufs::calls =>
    let called := ngxHttpSubBodyFilter once ctx bufs
    called.2++runCalls once called.1 calls

/-- The context that `ngx_http_sub_header_filter` sets up for a match string that
the configuration has brought to lower case. -/
def newCtx (value : List UInt8) (behind : ℕ → UInt8) : SubCtx where
  match' := ⟨fun k => ((value.map ngxTolower)[k]?).getD (behind k),value.length⟩
  saved := []
  looked := []
  once := false
  pos := 0
  copyStart := none
  copyEnd := none
  out := []
  state := .subStartState

end Nginx.SubFilter
