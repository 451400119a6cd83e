import Nginx.Script
import Nginx.HeaderHash

/-!
# The request to a FastCGI server

`ngx_http_fastcgi_create_request` sums the lengths of the parameters in one pass and writes
them in another, and lays the body out in records of at most 32 kilobytes, whose headers are
filled in once the length of the record is known. `none` is a write outside of a buffer;
allocations succeed.
-/

set_option autoImplicit false

namespace Nginx.FastcgiRequest
open TempMemory Script HeaderHash

structure Header where
  key : List UInt8
  value : List UInt8
  deriving DecidableEq, Repr

/-- A parameter: its name and the codes of its value, which is compiled without `compile_args` -/
structure Param where
  key : List UInt8
  value : List Code
  plain : Code.args ∉ value

structure LocConf where
  params : List Param
  headersHash : NgxHash
  passRequestHeaders : Bool
  passRequestBody : Bool

/-- A buffer of the body: in memory the bytes from `pos` to `last`, else a range of the file -/
structure BodyBuf where
  inFile : Bool
  data : List UInt8
  filePos : ℕ
  fileLast : ℕ
  deriving DecidableEq, Repr

structure Request where
  values : Values
  headers : List Header
  body : List BodyBuf

def httpPrefix : List UInt8 := [72,84,84,80,95]

/-! The lengths -/

def lenSize (len : ℕ) : ℕ := if len > 127 then 4 else 1

@[grind =] def paramsLen (v : Values) : Engine → List Param → ℕ × Engine
  | le, [] => (0, le)
  | le, p::params =>
    let keyLen := lenCode v le (.copy p.key)
    let val := lenRun v le p.value
    let rest := paramsLen v val.2 params
    (1+keyLen+lenSize val.1+val.1+rest.1, rest.2)

/-- `len`, the headers in `ignored` and the size of `lowcase_key` -/
structure Pass where
  len : ℕ
  ignored : List ℕ
  allocated : ℕ
  deriving DecidableEq, Repr

def lowcaseByte (ch : UInt8) : UInt8 :=
  if 65 ≤ ch ∧ ch ≤ 90 then ch ||| 0x20 else if ch = 45 then 95 else ch

def lowcaseKey (key : List UInt8) : List UInt8 := key.map lowcaseByte

def headerLen (h : Header) : ℕ :=
  lenSize (h.key.length+5)+lenSize h.value.length+(h.key.length+5)+h.value.length

/-- A header in the first pass; `ignored` has room for `count` of them. -/
def headerTurn (t : NgxHash) (count : ℕ) (s : Pass) (h : Header × ℕ) : Option Pass :=
  if t.names.length > 0 then
    let allocated := if s.allocated < h.1.key.length then h.1.key.length+16 else s.allocated
    if allocated < h.1.key.length then none
    else if ngxHashFind t (ngxHashKey (lowcaseKey h.1.key)) (lowcaseKey h.1.key) = true then
      if s.ignored.length < count then some ⟨s.len,s.ignored++[h.2],allocated⟩ else none
    else some ⟨s.len+headerLen h.1,s.ignored,allocated⟩
  else some { s with len := s.len+headerLen h.1 }

/-! The parameters -/

/-- `(u_char) ((len >> k) & 0xff)` -/
def lenByte (len k : ℕ) : UInt8 := UInt8.ofNat ((len >>> k) &&& 0xff)

def lenBytes (len : ℕ) : List UInt8 :=
  if len > 127 then
    [UInt8.ofNat ((len >>> 24) &&& 0x7f ||| 0x80), lenByte len 16, lenByte len 8, lenByte len 0]
  else [UInt8.ofNat len]

structure Writer where
  b : Block UInt8
  e : Engine
  le : Engine

/-- A parameter in the second pass; the length of its name is cast to a byte. -/
def writeParam (v : Values) (s : Writer) (p : Param) : Option Writer :=
  let keyLen := UInt8.ofNat (lenCode v s.le (.copy p.key))
  let val := lenRun v s.le p.value
  (s.b.put [keyLen]).bind fun b =>
  (b.put (lenBytes val.1)).bind fun b =>
  (copyRun v s.e b (.copy p.key::p.value)).map fun r => ⟨r.1,r.2,val.2⟩

def upperByte (ch : UInt8) : UInt8 :=
  if 97 ≤ ch ∧ ch ≤ 122 then ch &&& ~~~(0x20 : UInt8) else if ch = 45 then 95 else ch

def writeHeader (ignored : List ℕ) (b : Block UInt8) (h : Header × ℕ) : Option (Block UInt8) :=
  if h.2 ∈ ignored then some b
  else
    (b.put (lenBytes (5+h.1.key.length))).bind fun b =>
    (b.put (lenBytes h.1.value.length)).bind fun b =>
    (b.put httpPrefix).bind fun b =>
    (b.put (h.1.key.map upperByte)).bind fun b =>
    b.put h.1.value

/-! Records -/

def paddingOf (len : ℕ) : ℕ := if 8-len%8 = 8 then 0 else 8-len%8

/-- `ngx_http_fastcgi_header_t`, the id of the request being 1 -/
def recordHeader (type : UInt8) (len padding : ℕ) : List UInt8 :=
  [1, type, 0,1, lenByte len 8, lenByte len 0, UInt8.ofNat padding, 0]

def beginRequest : UInt8 := 1
def params : UInt8 := 4
def stdin : UInt8 := 5

/-- `ngx_http_fastcgi_begin_request_t`: a responder -/
def beginBody : List UInt8 := [0,1,0,0,0,0,0,0]

def requestStart : List UInt8 := recordHeader beginRequest 8 0++beginBody++[1, params, 0,1]

inductive Piece where
  | temp (b : Block UInt8)
  | part (b : BodyBuf)

/-- The chain, and where `h` points: a buffer of the chain and an offset in it -/
structure Out where
  pieces : List Piece
  link : ℕ
  offset : ℕ

def fillHeader (s : Out) (header : List UInt8) : Option (List Piece) :=
  match s.pieces[s.link]? with
  | some (.temp b) => (b.store s.offset header).map fun b => s.pieces.set s.link (.temp b)
  | _ => none

def BodyBuf.first (b : BodyBuf) : ℕ := if b.inFile then b.filePos else 0

def BodyBuf.last (b : BodyBuf) : ℕ := if b.inFile then b.fileLast else b.data.length

def BodyBuf.cut (b : BodyBuf) (pos last : ℕ) : BodyBuf :=
  if b.inFile then { b with filePos := pos, fileLast := last }
  else { b with data := (b.data.drop pos).take (last-pos) }

def chunkSize : ℕ := 32*1024

def stdinLoop (buf : BodyBuf) (pos : ℕ) (s : Out) : Option Out :=
  let last := if pos+chunkSize ≥ buf.last then buf.last else pos+chunkSize
  let padding := paddingOf (last-pos)
  (fillHeader s (recordHeader stdin (last-pos) padding)).bind fun pieces =>
  ((Block.create (8+padding)).put (List.replicate padding 0)).bind fun b =>
  (b.skip 8).bind fun t =>
    let s := ⟨pieces++[.part (buf.cut pos last), .temp t],pieces.length+1,b.cells.length⟩
    if _ : pos+chunkSize ≥ buf.last then some s
    else stdinLoop buf (pos+chunkSize) s
termination_by buf.last-pos
decreasing_by
  have : 0 < chunkSize := by decide
  omega

inductive Outcome where
  | error
  | ok (pieces : List Piece)

/-- The buffer with the parameters; `le` is as the first pass has left it. -/
def writeParams (conf : LocConf) (r : Request) (s : Pass) : Option (Block UInt8) :=
  let le := (paramsLen r.values zeroEngine conf.params).2
  let padding := paddingOf s.len
  ((Block.create (8+8+8+s.len+padding+8+8)).put requestStart).bind fun b =>
  (b.skip 4).bind fun b =>
  (b.store 20 [lenByte s.len 8, lenByte s.len 0, UInt8.ofNat padding, 0]).bind fun b =>
  (conf.params.foldlM (writeParam r.values) ⟨b,zeroEngine,le⟩).bind fun w =>
  (if conf.passRequestHeaders then r.headers.zipIdx.foldlM (writeHeader s.ignored) w.b
    else some w.b).bind fun b =>
  (b.put (List.replicate padding 0)).bind fun b =>
  (b.skip 8).bind fun b' => b'.store b.cells.length (recordHeader params 0 0)

def requestLen (conf : LocConf) (r : Request) : Option Pass :=
  let s := ⟨(paramsLen r.values zeroEngine conf.params).1,[],0⟩
  if conf.passRequestHeaders then
    r.headers.zipIdx.foldlM (headerTurn conf.headersHash r.headers.length) s
  else some s

def ngxHttpFastcgiCreateRequest (conf : LocConf) (r : Request) : Option Outcome :=
  (requestLen conf r).bind fun s =>
  if s.len > 65535 then some .error
  else
    (writeParams conf r s).bind fun b =>
    (b.skip 8).bind fun b' =>
    (if conf.passRequestBody then
      r.body.foldlM (fun s buf => stdinLoop buf buf.first s) ⟨[.temp b'],0,b.cells.length⟩
    else some ⟨[.temp b'],0,b.cells.length⟩).bind fun s =>
    (fillHeader s (recordHeader stdin 0 0)).map .ok

/-! What is sent -/

def content (file : ℕ → UInt8) (b : BodyBuf) : List UInt8 :=
  if b.inFile then (List.range' b.filePos (b.fileLast-b.filePos)).map file else b.data

@[grind =] def chainBytes (file : ℕ → UInt8) : List Piece → Option (List UInt8)
  | [] => some []
  | .temp b::pieces => (written b.cells).bind fun s => (chainBytes file pieces).map (s++·)
  | .part b::pieces => (chainBytes file pieces).map (content file b++·)

end Nginx.FastcgiRequest
