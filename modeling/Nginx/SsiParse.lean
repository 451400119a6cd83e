import Nginx.BlockMemory

/-!
# The parser of SSI directives

The name of a command, the names of its parameters and their values are stored byte by byte in
blocks of fixed lengths; the block of a short value is taken again for the next one. A call
parses what is left of a buffer. Allocations succeed, and what is logged is left out.
-/

set_option autoImplicit false

namespace Nginx.SsiParse
open BlockMemory

inductive State where
  | start
  | tag
  | comment0
  | comment1
  | sharp
  | precommand
  | command
  | preparam
  | param
  | preequal
  | prevalue
  | doubleQuotedValue
  | quotedValue
  | quotedSymbol
  | postparam
  | commentEnd0
  | commentEnd1
  | error
  | errorEnd0
  | errorEnd1
  deriving DecidableEq, Repr

/-- `ngx_str_t`; `data` is the number of a block. -/
structure Str where
  data : ℕ
  len : ℕ
  deriving DecidableEq, Repr

structure Param where
  key : Str
  value : Str
  deriving DecidableEq, Repr

/-- What the parser reads and writes of `ngx_http_ssi_ctx_t`, positions as offsets in the buffer.
The last of the parameters comes first, and `ctx->param` is that one. -/
structure Ctx where
  state : State
  savedState : State
  saved : ℕ
  looked : ℕ
  pos : ℕ
  copyStart : Option ℕ
  copyEnd : Option ℕ
  key : UInt64
  command : Str
  params : List Param
  valueLen : ℕ
  valueBuf : Option ℕ
  memory : Memory

def commandLen : ℕ := 32

def paramLen : ℕ := 32

/-- The context that `ngx_http_ssi_header_filter` makes -/
def newCtx (valueLen : ℕ) : Ctx where
  state := .start
  savedState := .start
  saved := 0
  looked := 0
  pos := 0
  copyStart := none
  copyEnd := none
  key := 0
  command := ⟨0,0⟩
  params := []
  valueLen := valueLen
  valueBuf := none
  memory := empty

def Ctx.param (c : Ctx) : Param := c.params.headD ⟨⟨0,0⟩,⟨0,0⟩⟩

def Ctx.setParam (c : Ctx) (a : Param) : Ctx := { c with params := a::c.params.tail }

def ngxHash (key : UInt64) (ch : UInt8) : UInt64 := key*31+ch.toUInt64

def Ctx.storeCommand (c : Ctx) (ch : UInt8) : Ctx :=
  { c with
    memory := store c.command.data c.command.len ch c.memory
    command := { c.command with len := c.command.len+1 }
    key := ngxHash c.key ch }

def Ctx.storeKey (c : Ctx) (ch : UInt8) : Ctx :=
  { c.setParam { c.param with key := { c.param.key with len := c.param.key.len+1 } } with
    memory := store c.param.key.data c.param.key.len ch c.memory }

def Ctx.storeValue (c : Ctx) (ch : UInt8) : Ctx :=
  { c.setParam { c.param with value := { c.param.value with len := c.param.value.len+1 } } with
    memory := store c.param.value.data c.param.value.len ch c.memory }

def isSpace (ch : UInt8) : Bool := ch = 32 || ch = 13 || ch = 10 || ch = 9

inductive Rc where
  | ok
  | again
  | ssiError
  deriving DecidableEq, Repr

def noTag (c : Ctx) (p : ℕ) (ch : UInt8) : Ctx :=
  if ch = 60 then { c with copyEnd := some p, looked := 1, state := .tag }
  else { c with copyEnd := some p, looked := 0, state := .start }

def tagByte (c : Ctx) (p : ℕ) (ch : UInt8) : Ctx :=
  if ch = 33 then { c with looked := 2, state := .comment0 }
  else if ch = 60 then { c with copyEnd := some p }
  else { c with copyEnd := some p, looked := 0, state := .start }

def comment0Byte (c : Ctx) (p : ℕ) (ch : UInt8) : Ctx :=
  if ch = 45 then { c with looked := 3, state := .comment1 } else noTag c p ch

def comment1Byte (c : Ctx) (p : ℕ) (ch : UInt8) : Ctx :=
  if ch = 45 then { c with looked := 4, state := .sharp } else noTag c p ch

def sharpByte (c : Ctx) (p : ℕ) (ch : UInt8) : Ctx :=
  if ch = 35 then
    { c with saved := if p-c.pos < 4 then 0 else c.saved, looked := 0, state := .precommand }
  else noTag c p ch

def precommandByte (c : Ctx) (ch : UInt8) : Ctx :=
  if isSpace ch then c
  else
    { c with
      command := ⟨c.memory.next,1⟩
      memory := store c.memory.next 0 ch (alloc commandLen c.memory)
      key := ngxHash 0 ch
      params := []
      state := .command }

def commandByte (c : Ctx) (ch : UInt8) : Ctx :=
  if isSpace ch then { c with state := .preparam }
  else if ch = 45 then { c with state := .commentEnd0 }
  else if c.command.len = commandLen then { c with state := .error }
  else c.storeCommand ch

/-- A parameter is pushed with its first byte, and gets a block for its value. -/
def pushParam (c : Ctx) (ch : UInt8) : Ctx :=
  let m := store c.memory.next 0 ch (alloc paramLen c.memory)
  match c.valueBuf with
  | none =>
    { c with
      params := ⟨⟨c.memory.next,1⟩,⟨m.next,0⟩⟩::c.params
      memory := alloc c.valueLen m
      state := .param }
  | some b =>
    { c with params := ⟨⟨c.memory.next,1⟩,⟨b,0⟩⟩::c.params, memory := m, state := .param }

def preparamByte (c : Ctx) (ch : UInt8) : Ctx :=
  if isSpace ch then c
  else if ch = 45 then { c with state := .commentEnd0 }
  else pushParam c ch

def paramByte (c : Ctx) (ch : UInt8) : Ctx :=
  if isSpace ch then { c with state := .preequal }
  else if ch = 61 then { c with state := .prevalue }
  else if ch = 45 then { c.storeKey ch with state := .errorEnd0 }
  else if c.param.key.len = paramLen then { c with state := .error }
  else c.storeKey ch

def unexpected (c : Ctx) (ch : UInt8) : Ctx :=
  { c with state := if ch = 45 then .errorEnd0 else .error }

def preequalByte (c : Ctx) (ch : UInt8) : Ctx :=
  if isSpace ch then c
  else if ch = 61 then { c with state := .prevalue }
  else unexpected c ch

def prevalueByte (c : Ctx) (ch : UInt8) : Ctx :=
  if isSpace ch then c
  else if ch = 34 then { c with state := .doubleQuotedValue }
  else if ch = 39 then { c with state := .quotedValue }
  else unexpected c ch

/-- The two states of a quoted value, with the quote that ends it; a backslash is stored too. -/
def valueByte (quote : UInt8) (c : Ctx) (ch : UInt8) : Ctx :=
  if ch = quote then { c with state := .postparam }
  else
    let c := if ch = 92 then { c with savedState := c.state, state := .quotedSymbol } else c
    if c.param.value.len = c.valueLen then { c with state := .error } else c.storeValue ch

def quotedSymbolByte (c : Ctx) (ch : UInt8) : Ctx :=
  { c.storeValue ch with state := c.savedState }

/-- A short value gets a block of its own, and its block goes to the next value. -/
def keepValue (c : Ctx) : Ctx :=
  if c.param.value.len+1 < c.valueLen/2 then
    { c.setParam { c.param with value := { c.param.value with data := c.memory.next } } with
      valueBuf := some c.param.value.data
      memory := copy c.memory.next c.param.value.data c.param.value.len
        (alloc (c.param.value.len+1) c.memory) }
  else { c with valueBuf := none }

def postparamByte (c : Ctx) (ch : UInt8) : Ctx :=
  if isSpace ch then { keepValue c with state := .preparam }
  else if ch = 45 then { keepValue c with state := .commentEnd0 }
  else { keepValue c with state := .error }

def finish (c : Ctx) (bufPos p : ℕ) : Ctx :=
  { c with
    state := .start
    pos := p+1
    copyStart := if c.copyStart = none ∧ c.copyEnd ≠ none then some bufPos else c.copyStart }

/-- One turn of the loop of `ngx_http_ssi_parse` -/
def ssiByte (bufPos p : ℕ) (ch : UInt8) (c : Ctx) : Ctx ⊕ (Rc × Ctx) :=
  match c.state with
  | .start =>
    if ch = 60 then .inl { c with copyEnd := some p, looked := 1, state := .tag } else .inl c
  | .tag => .inl (tagByte c p ch)
  | .comment0 => .inl (comment0Byte c p ch)
  | .comment1 => .inl (comment1Byte c p ch)
  | .sharp => .inl (sharpByte c p ch)
  | .precommand => .inl (precommandByte c ch)
  | .command => .inl (commandByte c ch)
  | .preparam => .inl (preparamByte c ch)
  | .param => .inl (paramByte c ch)
  | .preequal => .inl (preequalByte c ch)
  | .prevalue => .inl (prevalueByte c ch)
  | .doubleQuotedValue => .inl (valueByte 34 c ch)
  | .quotedValue => .inl (valueByte 39 c ch)
  | .quotedSymbol => .inl (quotedSymbolByte c ch)
  | .postparam => .inl (postparamByte c ch)
  | .commentEnd0 =>
    if ch = 45 then .inl { c with state := .commentEnd1 } else .inl { c with state := .error }
  | .commentEnd1 =>
    if ch = 62 then .inr (.ok, finish c bufPos p) else .inl { c with state := .error }
  | .error => if ch = 45 then .inl { c with state := .errorEnd0 } else .inl c
  | .errorEnd0 =>
    if ch = 45 then .inl { c with state := .errorEnd1 } else .inl { c with state := .error }
  | .errorEnd1 =>
    if ch = 62 then .inr (.ssiError, finish c bufPos p) else .inl { c with state := .error }

def suspend (c : Ctx) (bufPos p : ℕ) : Ctx :=
  let copyEnd := if c.state = .start then some p else c.copyEnd
  { c with
    pos := p
    copyEnd := copyEnd
    copyStart := if c.copyStart = none ∧ copyEnd ≠ none then some bufPos else c.copyStart }

@[grind =] def ssiLoop (bufPos : ℕ) : ℕ → List UInt8 → Ctx → Rc × Ctx
  | p, [], c => (.again, suspend c bufPos p)
  | p, ch::bytes, c =>
    match ssiByte bufPos p ch c with
    | .inl c => ssiLoop bufPos (p+1) bytes c
    | .inr r => r

/-- `ngx_http_ssi_parse`, of the bytes from `ctx->pos` to the end of the buffer -/
def ngxHttpSsiParse (bufPos : ℕ) (bytes : List UInt8) (c : Ctx) : Rc × Ctx :=
  ssiLoop bufPos c.pos bytes c

/-- A call, with what `ngx_http_ssi_body_filter` may set in front of it -/
structure Call where
  bufPos : ℕ
  pos : ℕ
  copyStart : Option ℕ
  copyEnd : Option ℕ
  saved : ℕ
  bytes : List UInt8

def Call.enter (k : Call) (c : Ctx) : Ctx :=
  { c with pos := k.pos, copyStart := k.copyStart, copyEnd := k.copyEnd, saved := k.saved }

def Call.parse (k : Call) (c : Ctx) : Rc × Ctx := ngxHttpSsiParse k.bufPos k.bytes (k.enter c)

/-- The context and the blocks of the values that were given to the handlers of commands -/
@[grind =] def runCalls : List Call → Ctx → List ℕ → Ctx × List ℕ
  | [], c, given => (c, given)
  | k::ks, c, given =>
    match k.parse c with
    | (.ok, c) => runCalls ks c (c.params.map (fun a => a.value.data)++given)
    | (_, c) => runCalls ks c given

end Nginx.SsiParse
