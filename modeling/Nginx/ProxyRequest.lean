import Nginx.BufChain
import Nginx.Script
import Nginx.HeaderHash

/-!
# The request to a proxied server

`ngx_http_proxy_create_request` sums the lengths of the request line, the headers and the body
in one pass and writes them in another. The engine of the lengths is not cleared, and that of
the values goes on from the headers to the body. `none` is an access outside of memory.
-/

set_option autoImplicit false

namespace Nginx.ProxyRequest
open TempMemory Script HeaderHash

def space : UInt8 := 32
def question : UInt8 := 63
def crlf : List UInt8 := [13,10]

def colon : List UInt8 := [58,32]

def ngxHttpProxyVersion : List UInt8 := [32,72,84,84,80,47,49,46,48,13,10]

/-- A header as `ngx_http_parse_header_line` leaves it: neither the name nor the value has a
CR, and `hash` may leave out bytes that are not valid in a name. -/
structure Header where
  key : List UInt8
  value : List UInt8
  lowcaseKey : List UInt8
  hash : ℕ
  named : key ≠ []
  line : ∀ c ∈ key++value, c ≠ 13

/-- A header to be set, with a constant value or with the codes of its value, which is compiled
without `compile_args` -/
inductive Entry where
  | constant (key value : List UInt8) (some : value ≠ [])
  | script (key : List UInt8) (codes : List Code) (plain : Code.args ∉ codes)

structure Body where
  codes : List Code
  plain : Code.args ∉ codes

/-- `methodMain` is the method set for `http`, and `methodLevels` are those of the server, the
location and the locations within it, empty where none is set. -/
structure LocConf where
  methodMain : List UInt8
  methodLevels : List (List UInt8)
  proxyLengths : Bool
  location : List UInt8
  headersSet : List Entry
  headersSetHash : NgxHash
  bodySet : Option Body
  passRequestHeaders : Bool
  passRequestBody : Bool

/-- `methodName` is followed by a space in memory, and `upstreamMethod` ("GET " in memory) is
set where HEAD was changed to GET; `varsUri` is `ctx->vars.uri`. -/
structure Request where
  methodName : List UInt8
  upstreamMethod : List UInt8
  unparsedUri : List UInt8
  uri : List UInt8
  args : List UInt8
  varsUri : List UInt8
  validUnparsedUri : Bool
  validLocation : Bool
  main : Bool
  spaceInUri : Bool
  internal : Bool
  values : Values
  headers : List Header
  requestBufs : List BufChain.Buf

/-! Configuration -/

/-- The method in `ngx_http_proxy_merge_loc_conf` -/
def mergeMethod (prev conf : List UInt8) : List UInt8 :=
  if conf.length = 0 then prev else conf++[space]

def LocConf.method (conf : LocConf) : List UInt8 :=
  conf.methodLevels.foldl mergeMethod conf.methodMain

/-! The request -/

def Entry.head : Entry → List UInt8
  | .constant key value _ => key++(colon++(value++crlf))
  | .script key _ _ => key++colon

def Entry.rest : Entry → List Code
  | .constant _ _ _ => []
  | .script _ codes _ => codes++[.copy crlf]

def Entry.program (en : Entry) : List Code := .copy en.head::en.rest

theorem Entry.plain (en : Entry) : Code.args ∉ en.program := by
  cases en with
  | constant key value h => simp [Entry.program, Entry.rest]
  | script key codes h => simpa [Entry.program, Entry.rest] using h

def method (conf : LocConf) (r : Request) : List UInt8 :=
  if r.upstreamMethod.length > 0 then r.upstreamMethod++[space]
  else if conf.method.length > 0 then conf.method
  else r.methodName++[space]

def unparsed (r : Request) : Bool := r.varsUri.length = 0 && r.validUnparsedUri && r.main

def locLen (conf : LocConf) (r : Request) : ℕ :=
  if r.validLocation && r.varsUri.length ≠ 0 then conf.location.length else 0

def escapesUri (r : Request) : Bool := r.values.quotedUri || r.spaceInUri || r.internal

/-- The escape and the length of the URI in `size_t`; the lengths of the strings alone do not
overflow, but the difference of `r->uri.len` and `loc_len` may. -/
def uriLen (conf : LocConf) (r : Request) : Option (ℕ × ℕ) :=
  if conf.proxyLengths then some (0, r.varsUri.length)
  else if unparsed r then some (0, r.unparsedUri.length)
  else if escapesUri r && r.uri.length < locLen conf r then none
  else
    let escape :=
      if escapesUri r then 2*ngxEscapeCount .uri (r.uri.drop (locLen conf r)) else 0
    let total := r.varsUri.length+r.uri.length+escape+1+r.args.length
    some (escape,
      if locLen conf r ≤ total then total-locLen conf r else total+2^64-locLen conf r)

@[grind =] def headersSetLen (v : Values) : Engine → List Entry → ℕ × Engine
  | le, [] => (0, le)
  | le, en::entries =>
    let run := lenRun v le en.program
    let rest := headersSetLen v run.2 entries
    (run.1+rest.1, rest.2)

def inSet (conf : LocConf) (h : Header) : Bool :=
  ngxHashFind conf.headersSetHash h.hash h.lowcaseKey

def headerLine (key value : List UInt8) : List UInt8 := key++(colon++(value++crlf))

def headersLen (conf : LocConf) (r : Request) : ℕ :=
  if conf.passRequestHeaders then
    ((r.headers.filter (!inSet conf ·)).map fun h => h.key.length+2+h.value.length+2).sum
  else 0

/-- The URI is written at `b->last`. -/
def writeUri (conf : LocConf) (r : Request) (escape : ℕ) (b : Block UInt8) :
    Option (Block UInt8) :=
  if conf.proxyLengths then b.put r.varsUri
  else if unparsed r then b.put r.unparsedUri
  else
    (b.put (if r.validLocation then r.varsUri else [])).bind fun b =>
    if r.uri.length < locLen conf r then none
    else
      (b.put (if escape > 0 then ngxEscapeUri .uri (r.uri.drop (locLen conf r))
        else r.uri.drop (locLen conf r))).bind fun b =>
      if r.args.length > 0 then (b.put [question]).bind (·.put r.args) else some b

structure Writer where
  b : Block UInt8
  e : Engine
  le : Engine

/-- A set header; it is skipped if the lengths behind its name are those of CRLF. -/
def writeEntry (v : Values) (s : Writer) (en : Entry) : Option Writer :=
  let run := lenRun v s.le en.rest
  let skip := if en.rest = [] then false else decide (run.1 = 2)
  (copyRun v { s.e with skip := skip } s.b en.program).map fun r => ⟨r.1,r.2,run.2⟩

def writeClientHeader (conf : LocConf) (b : Block UInt8) (h : Header) : Option (Block UInt8) :=
  if inSet conf h then some b
  else
    (b.put h.key).bind fun b => (b.put colon).bind fun b =>
    (b.put h.value).bind fun b => b.put crlf

/-- The buffer of the header, the buffers behind it and `ctx->internal_body_length`, if set -/
structure Out where
  header : Block UInt8
  flush : Bool
  bufs : List BufChain.Buf
  internalBodyLength : Option ℕ

inductive Outcome where
  | error
  | ok (out : Out)

def writeHeader (conf : LocConf) (r : Request) (le : Engine) (escape len : ℕ) :
    Option (Block UInt8) :=
  ((Block.create len).put (method conf r)).bind fun b =>
  (writeUri conf r escape b).bind fun b =>
  (b.put ngxHttpProxyVersion).bind fun b =>
  (conf.headersSet.foldlM (writeEntry r.values) ⟨b,zeroEngine,le⟩).bind fun w =>
  (if conf.passRequestHeaders then r.headers.foldlM (writeClientHeader conf) w.b
    else some w.b).bind fun b =>
  (b.put crlf).bind fun b =>
  match conf.bodySet with
  | none => some b
  | some body => (copyRun r.values w.e b body.codes).map Prod.fst

/-- The copies of the buffers of the body; the last of them is to be flushed. -/
def flushLast : List BufChain.Buf → List BufChain.Buf
  | [] => []
  | [b] => [{ b with flush := true }]
  | b::bufs => b::flushLast bufs

/-- `memory` says which sizes the allocator grants, and `le` is what the stack holds where
the engine of the lengths is not set. -/
def ngxHttpProxyCreateRequest (memory : ℕ → Bool) (le : Engine) (conf : LocConf) (r : Request) :
    Option Outcome :=
  (uriLen conf r).bind fun u =>
  if u.2 = 0 then some .error
  else
    let body := conf.bodySet.map fun body => lenRun r.values le body.codes
    let le := body.elim le Prod.snd
    let set := headersSetLen r.values le conf.headersSet
    let len := (method conf r).length+11+2+u.2+(body.map Prod.fst).getD 0+set.1+headersLen conf r
    if memory len then
      (writeHeader conf r set.2 u.1 len).map fun b =>
      let bufs := if conf.bodySet.isNone && conf.passRequestBody then r.requestBufs else []
      .ok ⟨b,bufs.isEmpty,flushLast bufs,body.map Prod.fst⟩
    else some .error

end Nginx.ProxyRequest
