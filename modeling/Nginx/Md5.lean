import Nginx.LittleEndian
import Mathlib.Logic.Function.Basic

/-!
# MD5

The digest of a string that is fed in pieces. What does not fill a block waits in the
buffer of the context. Beside the code stands the digest of a whole string, as RFC 1321
describes it.
-/

set_option autoImplicit false

namespace Nginx.Md5
open Nginx.LittleEndian

/-! The compression -/

/-- `F`, `G`, `H` and `I` -/
inductive Basic where
  | f
  | g
  | h
  | i
  deriving DecidableEq, Repr

def Basic.apply : Basic → UInt32 → UInt32 → UInt32 → UInt32
  | f, x, y, z => z ^^^ (x &&& (y ^^^ z))
  | g, x, y, z => y ^^^ (z &&& (x ^^^ y))
  | h, x, y, z => x ^^^ y ^^^ z
  | i, x, y, z => y ^^^ (x ||| ~~~z)

/-- The register that a step changes, the others follow it in their order. -/
inductive Register where
  | a
  | b
  | c
  | d
  deriving DecidableEq, Repr

inductive Access where
  | set
  | get
  deriving DecidableEq, Repr

/-- `STEP(f, a, b, c, d, x, t, s)`, where `x` is `SET(n)` or `GET(n)` -/
structure Step where
  f : Basic
  target : Register
  access : Access
  n : ℕ
  t : UInt32
  s : UInt32
  deriving DecidableEq, Repr

def steps : List Step :=
  [⟨.f,.a,.set,0,0xd76aa478,7⟩, ⟨.f,.d,.set,1,0xe8c7b756,12⟩,
   ⟨.f,.c,.set,2,0x242070db,17⟩, ⟨.f,.b,.set,3,0xc1bdceee,22⟩,
   ⟨.f,.a,.set,4,0xf57c0faf,7⟩, ⟨.f,.d,.set,5,0x4787c62a,12⟩,
   ⟨.f,.c,.set,6,0xa8304613,17⟩, ⟨.f,.b,.set,7,0xfd469501,22⟩,
   ⟨.f,.a,.set,8,0x698098d8,7⟩, ⟨.f,.d,.set,9,0x8b44f7af,12⟩,
   ⟨.f,.c,.set,10,0xffff5bb1,17⟩, ⟨.f,.b,.set,11,0x895cd7be,22⟩,
   ⟨.f,.a,.set,12,0x6b901122,7⟩, ⟨.f,.d,.set,13,0xfd987193,12⟩,
   ⟨.f,.c,.set,14,0xa679438e,17⟩, ⟨.f,.b,.set,15,0x49b40821,22⟩,
   ⟨.g,.a,.get,1,0xf61e2562,5⟩, ⟨.g,.d,.get,6,0xc040b340,9⟩,
   ⟨.g,.c,.get,11,0x265e5a51,14⟩, ⟨.g,.b,.get,0,0xe9b6c7aa,20⟩,
   ⟨.g,.a,.get,5,0xd62f105d,5⟩, ⟨.g,.d,.get,10,0x02441453,9⟩,
   ⟨.g,.c,.get,15,0xd8a1e681,14⟩, ⟨.g,.b,.get,4,0xe7d3fbc8,20⟩,
   ⟨.g,.a,.get,9,0x21e1cde6,5⟩, ⟨.g,.d,.get,14,0xc33707d6,9⟩,
   ⟨.g,.c,.get,3,0xf4d50d87,14⟩, ⟨.g,.b,.get,8,0x455a14ed,20⟩,
   ⟨.g,.a,.get,13,0xa9e3e905,5⟩, ⟨.g,.d,.get,2,0xfcefa3f8,9⟩,
   ⟨.g,.c,.get,7,0x676f02d9,14⟩, ⟨.g,.b,.get,12,0x8d2a4c8a,20⟩,
   ⟨.h,.a,.get,5,0xfffa3942,4⟩, ⟨.h,.d,.get,8,0x8771f681,11⟩,
   ⟨.h,.c,.get,11,0x6d9d6122,16⟩, ⟨.h,.b,.get,14,0xfde5380c,23⟩,
   ⟨.h,.a,.get,1,0xa4beea44,4⟩, ⟨.h,.d,.get,4,0x4bdecfa9,11⟩,
   ⟨.h,.c,.get,7,0xf6bb4b60,16⟩, ⟨.h,.b,.get,10,0xbebfbc70,23⟩,
   ⟨.h,.a,.get,13,0x289b7ec6,4⟩, ⟨.h,.d,.get,0,0xeaa127fa,11⟩,
   ⟨.h,.c,.get,3,0xd4ef3085,16⟩, ⟨.h,.b,.get,6,0x04881d05,23⟩,
   ⟨.h,.a,.get,9,0xd9d4d039,4⟩, ⟨.h,.d,.get,12,0xe6db99e5,11⟩,
   ⟨.h,.c,.get,15,0x1fa27cf8,16⟩, ⟨.h,.b,.get,2,0xc4ac5665,23⟩,
   ⟨.i,.a,.get,0,0xf4292244,6⟩, ⟨.i,.d,.get,7,0x432aff97,10⟩,
   ⟨.i,.c,.get,14,0xab9423a7,15⟩, ⟨.i,.b,.get,5,0xfc93a039,21⟩,
   ⟨.i,.a,.get,12,0x655b59c3,6⟩, ⟨.i,.d,.get,3,0x8f0ccc92,10⟩,
   ⟨.i,.c,.get,10,0xffeff47d,15⟩, ⟨.i,.b,.get,1,0x85845dd1,21⟩,
   ⟨.i,.a,.get,8,0x6fa87e4f,6⟩, ⟨.i,.d,.get,15,0xfe2ce6e0,10⟩,
   ⟨.i,.c,.get,6,0xa3014314,15⟩, ⟨.i,.b,.get,13,0x4e0811a1,21⟩,
   ⟨.i,.a,.get,4,0xf7537e82,6⟩, ⟨.i,.d,.get,11,0xbd3af235,10⟩,
   ⟨.i,.c,.get,2,0x2ad7d2bb,15⟩, ⟨.i,.b,.get,9,0xeb86d391,21⟩]

structure Words where
  a : UInt32
  b : UInt32
  c : UInt32
  d : UInt32
  deriving DecidableEq, Repr

/-- The value that `STEP` leaves in its first register -/
def stepValue (basic : Basic) (a b c d x t s : UInt32) : UInt32 :=
  let a := a+(basic.apply b c d+x+t)
  let a := (a <<< s) ||| ((a &&& 0xffffffff) >>> (32-s))
  a+b

def setWord (p : List UInt8) (n : ℕ) : UInt32 :=
  (p.getD (n*4) 0).toUInt32 ||| ((p.getD (n*4+1) 0).toUInt32 <<< 8) |||
    ((p.getD (n*4+2) 0).toUInt32 <<< 16) ||| ((p.getD (n*4+3) 0).toUInt32 <<< 24)

structure Machine where
  regs : Words
  block : ℕ → UInt32

/-- `block` behind `SET(n)` or `GET(n)` -/
def runAccess (p : List UInt8) (block : ℕ → UInt32) (step : Step) : ℕ → UInt32 :=
  match step.access with
  | .set => Function.update block step.n (setWord p step.n)
  | .get => block

def runStep (p : List UInt8) (m : Machine) (step : Step) : Machine :=
  let block := runAccess p m.block step
  let x := block step.n
  let ⟨a,b,c,d⟩ := m.regs
  match step.target with
  | .a => ⟨⟨stepValue step.f a b c d x step.t step.s,b,c,d⟩,block⟩
  | .d => ⟨⟨a,b,c,stepValue step.f d a b c x step.t step.s⟩,block⟩
  | .c => ⟨⟨a,b,stepValue step.f c d a b x step.t step.s,d⟩,block⟩
  | .b => ⟨⟨a,stepValue step.f b c d a x step.t step.s,c,d⟩,block⟩

/-- The body of the loop of `ngx_md5_body`; `block` holds what was there before. -/
def bodyBlock (block : ℕ → UInt32) (saved : Words) (p : List UInt8) : Machine :=
  let m := steps.foldl (runStep p) ⟨saved,block⟩
  ⟨⟨m.regs.a+saved.a,m.regs.b+saved.b,m.regs.c+saved.c,m.regs.d+saved.d⟩,m.block⟩

@[grind =] def bodyLoop : ℕ → (ℕ → UInt32) → Words → List UInt8 → Words
  | 0, _, w, _ => w
  | n+1, block, w, p =>
    let m := bodyBlock block w p
    bodyLoop n m.block m.regs (p.drop 64)

def ngxMd5Body (w : Words) (data : List UInt8) (size : ℕ) : Words :=
  bodyLoop (size/64) (fun _ => 0) w data

/-! The context -/

structure Ctx where
  bytes : ℕ
  words : Words
  buffer : List UInt8

def initWords : Words := ⟨0x67452301,0xefcdab89,0x98badcfe,0x10325476⟩

def ngxMd5Init (buffer : List UInt8) : Ctx := ⟨0,initWords,buffer⟩

def updateRest (ctx : Ctx) (data : List UInt8) : Ctx :=
  if 64 ≤ data.length then
    let size := data.length-data.length%64
    { ctx with
      words := ngxMd5Body ctx.words data size
      buffer := store ctx.buffer 0 (data.drop size) }
  else { ctx with buffer := store ctx.buffer 0 data }

def ngxMd5Update (ctx : Ctx) (data : List UInt8) : Ctx :=
  let used := ctx.bytes%64
  let ctx := { ctx with bytes := (ctx.bytes+data.length) % 2^64 }
  if used ≠ 0 then
    let free := 64-used
    if data.length < free then { ctx with buffer := store ctx.buffer used data }
    else
      let buffer := store ctx.buffer used (data.take free)
      updateRest { ctx with words := ngxMd5Body ctx.words buffer 64, buffer := buffer }
        (data.drop free)
  else updateRest ctx data

/-- The four bytes of a register, as `ngx_md5_final` writes them -/
def wordBytes (x : UInt32) : List UInt8 :=
  [x.toUInt8, (x >>> 8).toUInt8, (x >>> 16).toUInt8, (x >>> 24).toUInt8]

def resultBytes (w : Words) : List UInt8 := wordBytes w.a++wordBytes w.b++wordBytes w.c++wordBytes w.d

def countBytes (bytes : ℕ) : List UInt8 :=
  [UInt8.ofNat bytes, UInt8.ofNat (bytes >>> 8), UInt8.ofNat (bytes >>> 16),
    UInt8.ofNat (bytes >>> 24), UInt8.ofNat (bytes >>> 32), UInt8.ofNat (bytes >>> 40),
    UInt8.ofNat (bytes >>> 48), UInt8.ofNat (bytes >>> 56)]

def ngxMd5Final (ctx : Ctx) : List UInt8 :=
  let used := ctx.bytes%64
  let buffer := store ctx.buffer used [0x80]
  let used := used+1
  let free := 64-used
  let (words, buffer, used, free) :=
    if free < 8 then
      let buffer := store buffer used (List.replicate free 0)
      (ngxMd5Body ctx.words buffer 64, buffer, 0, 64)
    else (ctx.words, buffer, used, free)
  let buffer := store buffer used (List.replicate (free-8) 0)
  let bytes := (ctx.bytes <<< 3) % 2^64
  let buffer := store buffer 56 (countBytes bytes)
  resultBytes (ngxMd5Body words buffer 64)

/-! RFC 1321 -/

/-- The functions `F`, `G`, `H` and `I` of the four rounds -/
def rfcFunction (round : ℕ) (x y z : UInt32) : UInt32 :=
  match round with
  | 0 => (x &&& y) ||| (~~~x &&& z)
  | 1 => (x &&& z) ||| (y &&& ~~~z)
  | 2 => x ^^^ y ^^^ z
  | _ => y ^^^ (x ||| ~~~z)

/-- `T[i]`, the integer part of 2^32 times the sine of `i` without its sign -/
def rfcTable : List UInt32 :=
  [0xd76aa478, 0xe8c7b756, 0x242070db, 0xc1bdceee, 0xf57c0faf, 0x4787c62a, 0xa8304613, 0xfd469501,
   0x698098d8, 0x8b44f7af, 0xffff5bb1, 0x895cd7be, 0x6b901122, 0xfd987193, 0xa679438e, 0x49b40821,
   0xf61e2562, 0xc040b340, 0x265e5a51, 0xe9b6c7aa, 0xd62f105d, 0x02441453, 0xd8a1e681, 0xe7d3fbc8,
   0x21e1cde6, 0xc33707d6, 0xf4d50d87, 0x455a14ed, 0xa9e3e905, 0xfcefa3f8, 0x676f02d9, 0x8d2a4c8a,
   0xfffa3942, 0x8771f681, 0x6d9d6122, 0xfde5380c, 0xa4beea44, 0x4bdecfa9, 0xf6bb4b60, 0xbebfbc70,
   0x289b7ec6, 0xeaa127fa, 0xd4ef3085, 0x04881d05, 0xd9d4d039, 0xe6db99e5, 0x1fa27cf8, 0xc4ac5665,
   0xf4292244, 0x432aff97, 0xab9423a7, 0xfc93a039, 0x655b59c3, 0x8f0ccc92, 0xffeff47d, 0x85845dd1,
   0x6fa87e4f, 0xfe2ce6e0, 0xa3014314, 0x4e0811a1, 0xf7537e82, 0xbd3af235, 0x2ad7d2bb, 0xeb86d391]

def rfcIndex (i : ℕ) : ℕ :=
  match i/16 with
  | 0 => i%16
  | 1 => (5*i+1)%16
  | 2 => (3*i+5)%16
  | _ => 7*i%16

def rfcShift (i : ℕ) : ℕ :=
  (match i/16 with
    | 0 => [7,12,17,22]
    | 1 => [5,9,14,20]
    | 2 => [4,11,16,23]
    | _ => [6,10,15,21]).getD (i%4) 0

def rfcWord (block : List UInt8) (n : ℕ) : UInt32 := UInt32.ofNat (load block (4*n) 4)

def rotateLeft (x : UInt32) (n : ℕ) : UInt32 := ⟨x.toBitVec.rotateLeft n⟩

/-- `a = b + ((a + f(b,c,d) + X[k] + T[i]) <<< s)`, and the registers trade places. -/
def rfcOperation (block : List UInt8) (w : Words) (i : ℕ) : Words :=
  let sum := w.a+rfcFunction (i/16) w.b w.c w.d+rfcWord block (rfcIndex i)+rfcTable.getD i 0
  ⟨w.d,w.b+rotateLeft sum (rfcShift i),w.b,w.c⟩

def rfcBlock (w : Words) (block : List UInt8) : Words :=
  let w' := (List.range 64).foldl (rfcOperation block) w
  ⟨w.a+w'.a,w.b+w'.b,w.c+w'.c,w.d+w'.d⟩

def rfcBlocks (w : Words) (message : List UInt8) : Words :=
  (List.range (message.length/64)).foldl (fun w i => rfcBlock w (slice message (64*i) 64)) w

/-- A one bit, zeros up to 8 bytes below a multiple of 64, and the number of bits -/
def rfcPad (message : List UInt8) : List UInt8 :=
  message++0x80::List.replicate ((119-message.length%64)%64) 0++toBytes 8 (8*message.length)

def rfcDigest (message : List UInt8) : List UInt8 :=
  let w := rfcBlocks initWords (rfcPad message)
  toBytes 4 w.a.toNat++toBytes 4 w.b.toNat++toBytes 4 w.c.toNat++toBytes 4 w.d.toNat

end Nginx.Md5
