import Mathlib.Data.Nat.Digits.Lemmas

/-!
# Recoding from UTF-8 to a one-byte charset

The buffers of a response are recoded one at a time. A buffer that holds ASCII only is
passed on as it is; from the first other byte on, characters are decoded and written
to buffers of the filter's own. A character that a buffer ends within is kept in the
context and is completed from the next buffer. A read outside the buffer or the saved
area, and a write outside an output buffer, is a fault.
-/

set_option autoImplicit false

namespace Nginx.CharsetRecode

def ngxUtfLen : ℕ := 4

/-- `NGX_HTML_ENTITY_LEN`, the length of "&#1114111;". -/
def ngxHtmlEntityLen : ℕ := 10

inductive Fault where
  | overread
  | overwrite
  | endless
  deriving DecidableEq, Repr

/-- The pages of a table; `charset_map` fills in ASCII, and refuses to change it. -/
structure CharsetTable where
  page : ℕ → Option (ℕ → UInt8)
  ascii : ∃ p, page 0 = some p ∧ ∀ n < 128, p n = UInt8.ofNat n

structure Buf where
  data : List UInt8
  temporary : Bool
  memory : Bool
  mmap : Bool
  flush : Bool
  lastBuf : Bool
  lastInChain : Bool
  inMemory : (temporary || memory || mmap) = true
  fits : data.length < 2^64

structure OutBuf where
  size : ℕ
  data : List UInt8
  temporary : Bool
  memory : Bool
  mmap : Bool
  flush : Bool
  lastBuf : Bool
  lastInChain : Bool
  sync : Bool
  deriving DecidableEq, Repr

def OutBuf.produced (b : OutBuf) : List UInt8 :=
  if b.temporary || b.memory || b.mmap then b.data else []

structure Ctx where
  saved : List UInt8
  savedLen : ℕ
  freeBuffers : List OutBuf
  deriving DecidableEq, Repr

/-! ## `ngx_utf8_decode` -/

def invalid : ℕ := 0xffffffff
def incomplete : ℕ := 0xfffffffe

/-- The bytes after the first; `at` counts the bytes that the pointer has passed. -/
@[grind =] def decodeTail (valid : ℕ) : ℕ → ℕ → ℕ → List UInt8 → Except Fault (ℕ × ℕ)
  | 0, u, at', _ => .ok (if u > valid then u else invalid, at')
  | _+1, _, _, [] => .error .overread
  | len+1, u, at', i::p =>
    if i.toNat < 0x80 then .ok (invalid, at'+1)
    else decodeTail valid len (u*64+i.toNat % 64) (at'+1) p

def ngxUtf8Decode (p : List UInt8) (n : ℕ) : Except Fault (ℕ × ℕ) :=
  match p with
  | [] => .error .overread
  | c::p =>
    let u := c.toNat
    let go (u valid len : ℕ) :=
      if (n+(2^64-1)) % 2^64 < len then .ok (incomplete, 0) else decodeTail valid len u 1 p
    if u ≥ 0xf0 then go (u % 8) 0xffff 3
    else if u ≥ 0xe0 then go (u % 16) 0x7ff 2
    else if u ≥ 0xc2 then go (u % 32) 0x7f 1
    else .ok (invalid, 1)

/-! ## Output -/

/-- `table[n >> 8][n & 0xff]`, and 0 without a page. -/
def CharsetTable.lookup (t : CharsetTable) (n : ℕ) : UInt8 :=
  match t.page (n / 256) with
  | some p => p (n % 256)
  | none => 0

/-- `"&#%uD;"` -/
def entity (n : ℕ) : List UInt8 :=
  [38,35]++(Nat.digits 10 n).reverse.map (fun d => UInt8.ofNat (48+d))++[59]

def ngxMemcpy (dst : List UInt8) (at' : ℕ) (src : List UInt8) (n : ℕ) : Except Fault (List UInt8) :=
  if src.length < n then .error .overread
  else if dst.length < at'+n then .error .overwrite
  else .ok (dst.take at'++src.take n++dst.drop (at'+n))

def OutBuf.put (b : OutBuf) (xs : List UInt8) : Except Fault OutBuf :=
  if b.data.length+xs.length ≤ b.size then .ok { b with data := b.data++xs } else .error .overwrite

@[grind =] def takeFree (size : ℕ) : List OutBuf → Option (OutBuf × List OutBuf)
  | [] => none
  | b::bs =>
    if b.size ≥ size then some (b, bs)
    else (takeFree size bs).map (fun r => (r.1, b::r.2))

def ngxHttpCharsetGetBuffer (ctx : Ctx) (size : ℕ) : OutBuf × Ctx :=
  match takeFree size ctx.freeBuffers with
  | some (b, bs) => ({ b with data := [], temporary := true }, { ctx with freeBuffers := bs })
  | none => (⟨size,[],true,false,false,false,false,false,false⟩, ctx)

/-- The buffer that a loop of the source goes on writing to, with those it has left. -/
structure Dst where
  done : List OutBuf
  b : OutBuf
  ctx : Ctx

def written (t : CharsetTable) (n : ℕ) : List UInt8 :=
  if n < 0x10000 then if t.lookup n ≠ 0 then [t.lookup n] else entity n
  else if n > 0x10ffff then [63]
  else entity n

def makeRoom (d : Dst) (src : List UInt8) : Dst :=
  if d.b.size-d.b.data.length < ngxHtmlEntityLen then
    let (b, ctx) := ngxHttpCharsetGetBuffer d.ctx (src.length+ngxHtmlEntityLen)
    ⟨d.done++[d.b],b,ctx⟩
  else d

@[grind =] def recode (t : CharsetTable) : ℕ → List UInt8 → Dst → Except Fault Dst
  | _, [], d => .ok d
  | 0, _::_, _ => .error .endless
  | fuel+1, x::src, d =>
    let d := makeRoom d (x::src)
    if x.toNat < 0x80 then do
      let b ← d.b.put [x]
      recode t fuel src { d with b := b }
    else do
      let (n, at') ← ngxUtf8Decode (x::src) (x::src).length
      if n = incomplete then
        let saved ← ngxMemcpy d.ctx.saved 0 (x::src) (x::src).length
        let b := if d.b.data = [] then { d.b with sync := true, temporary := false } else d.b
        .ok ⟨d.done,b,{ d.ctx with saved := saved, savedLen := (x::src).length }⟩
      else do
        let b ← d.b.put (written t n)
        recode t fuel ((x::src).drop at') { d with b := b }

def finish (buf : Buf) (d : Dst) : List OutBuf × Ctx :=
  (d.done++[{ d.b with lastBuf := buf.lastBuf, lastInChain := buf.lastInChain, flush := buf.flush }],
    d.ctx)

def asOut (buf : Buf) : OutBuf :=
  ⟨buf.data.length,buf.data,buf.temporary,buf.memory,buf.mmap,buf.flush,buf.lastBuf,
    buf.lastInChain,false⟩

def roomFor (size : ℕ) : ℕ := if size < ngxHtmlEntityLen then size+ngxHtmlEntityLen else size

def recodeFresh (t : CharsetTable) (ctx : Ctx) (buf : Buf) : Except Fault (List OutBuf × Ctx) :=
  let front := buf.data.takeWhile (fun x => x.toNat < 0x80)
  let src := buf.data.dropWhile (fun x => x.toNat < 0x80)
  if src = [] then .ok ([asOut buf], ctx)
  else if front.length > 512 then do
    let part : OutBuf :=
      ⟨0,front,buf.temporary,buf.memory,buf.mmap,buf.flush,false,false,false⟩
    let (n, _) ← ngxUtf8Decode src src.length
    if n = incomplete then
      let saved ← ngxMemcpy ctx.saved 0 src src.length
      .ok ([part], { ctx with saved := saved, savedLen := src.length })
    else
      let (b, ctx) := ngxHttpCharsetGetBuffer ctx (roomFor src.length)
      return finish buf (← recode t src.length src ⟨[part],b,ctx⟩)
  else
    let (b, ctx) := ngxHttpCharsetGetBuffer ctx (roomFor buf.data.length)
    return finish buf (← recode t buf.data.length buf.data ⟨[],b,ctx⟩)

/-- Copies bytes to the saved area up to its end or the end of the buffer; `i` is not
counted up for the byte that the buffer ends with. -/
def fillSaved : ℕ → ℕ → List UInt8 → List UInt8 → Except Fault (List UInt8 × ℕ)
  | 0, i, saved, _ => .ok (saved, i)
  | _+1, _, _, [] => .error .overread
  | _+1, i, saved, [x] => .ok (saved.set i x, i)
  | room+1, i, saved, x::y::p => fillSaved room (i+1) (saved.set i x) (y::p)

def completed (t : CharsetTable) (n : ℕ) : List UInt8 :=
  let c := if n < 0x10000 then t.lookup n else 0
  if c ≠ 0 then [c]
  else if n = incomplete then [63]
  else if n > 0x10ffff then [63]
  else entity n

def recodeSaved (t : CharsetTable) (ctx : Ctx) (buf : Buf) : Except Fault (List OutBuf × Ctx) := do
  let (saved, i) ← fillSaved (ngxUtfLen-ctx.savedLen) ctx.savedLen ctx.saved buf.data
  let (n, at') ← ngxUtf8Decode saved i
  if n = incomplete ∧ i < ngxUtfLen then
    let saved ← ngxMemcpy saved ctx.savedLen buf.data i
    .ok ([⟨0,buf.data,false,false,false,false,false,false,true⟩],
      { ctx with saved := saved, savedLen := ctx.savedLen+i })
  else
    let (b, ctx') := ngxHttpCharsetGetBuffer { ctx with saved := saved, savedLen := 0 }
      (roomFor buf.data.length)
    let b ← b.put (completed t n)
    let at' := if n = incomplete then ngxUtfLen else at'
    -- The pointer would stand in front of the buffer.
    if at' < ctx.savedLen then .error .overread
    else
      return finish buf (← recode t buf.data.length (buf.data.drop (at'-ctx.savedLen)) ⟨[],b,ctx'⟩)

def ngxHttpCharsetRecodeFromUtf8 (t : CharsetTable) (ctx : Ctx) (buf : Buf) :
    Except Fault (List OutBuf × Ctx) :=
  if ctx.savedLen = 0 then recodeFresh t ctx buf else recodeSaved t ctx buf

/-- The successive buffers, each with the buffers that are free when it comes. -/
@[grind =] def recodeAll (t : CharsetTable) : Ctx → List (Buf × List OutBuf) → Except Fault (List OutBuf × Ctx)
  | ctx, [] => .ok ([], ctx)
  | ctx, (buf, free)::bufs => do
    let (out, ctx) ← ngxHttpCharsetRecodeFromUtf8 t { ctx with freeBuffers := free } buf
    let (rest, ctx) ← recodeAll t ctx bufs
    return (out++rest, ctx)

def newCtx : Ctx := ⟨[0,0,0,0],0,[]⟩

def produced (out : List OutBuf) : List UInt8 := out.flatMap OutBuf.produced

def translateChar (t : CharsetTable) (c : Char) : List UInt8 :=
  if c.toNat < 0x80 then [UInt8.ofNat c.toNat]
  else if c.toNat < 0x10000 ∧ t.lookup c.toNat ≠ 0 then [t.lookup c.toNat]
  else entity c.toNat

def translate (t : CharsetTable) (cs : List Char) : List UInt8 := cs.flatMap (translateChar t)

def encode (cs : List Char) : List UInt8 := cs.flatMap String.utf8EncodeChar

end Nginx.CharsetRecode
