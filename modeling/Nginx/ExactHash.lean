import Nginx.HeaderHash
import Nginx.LittleEndian
import Nginx.MemoryRange

/-!
# The exact hash

`ngx_hash_init` looks for a number of buckets, lays the buckets out one behind the other in a block
and fills them with elements of different lengths; `ngx_hash_find` walks a bucket. The sums for the
buckets have 16 bits.
-/

set_option autoImplicit false

namespace Nginx.ExactHash
open Nginx.HeaderHash Nginx.LittleEndian Nginx.MemoryRange

/-- `ngx_hash_key_t`; `null` if `key.data` is -/
structure HashKey where
  data : List UInt8
  null : Bool
  hash : ℕ
  value : ℕ
  deriving DecidableEq, Repr

structure HashInit where
  maxSize : ℕ
  bucketSize : ℕ
  deriving DecidableEq, Repr

structure Hash where
  buckets : ℕ → ℕ
  size : ℕ

/-- What the allocations give: the first two or an error, the block of elements by its length -/
structure Allocator where
  test : Bool
  buckets : Bool
  elts : ℕ → Option ℕ

inductive Failure where
  | ngxError
  | divisionByZero
  deriving DecidableEq, Repr

/-- `ngx_align` and `ngx_align_ptr` to a power of two -/
def ngxAlign (d a : ℕ) : ℕ := (d+(a-1))/a*a

def eltSize (k : HashKey) : ℕ := 8+ngxAlign (k.data.length+2) 8

def uShort (n : ℕ) : ℕ := n%2^16

/-- The sums of a number of buckets, which go on as long as none is too large -/
@[grind =] def fitsLoop (bucketSize size : ℕ) : List HashKey → (ℕ → ℕ) → Bool
  | [], _ => true
  | k::names, test =>
    if k.null then fitsLoop bucketSize size names test
    else
      let key := k.hash%size
      let sum := uShort (test key+eltSize k)
      if sum > uShort bucketSize then false
      else fitsLoop bucketSize size names (Function.update test key sum)

@[grind =] def searchLoop (bucketSize : ℕ) (names : List HashKey) : ℕ → ℕ → Option ℕ
  | 0, _ => none
  | n+1, size =>
    if fitsLoop bucketSize size names fun _ => 0 then some size
    else searchLoop bucketSize names n (size+1)

def innerSize (hinit : HashInit) : ℕ := (hinit.bucketSize+(2^64-8))%2^64

def startSize (hinit : HashInit) (nelts : ℕ) : Option ℕ :=
  let perBucket := innerSize hinit/16
  if perBucket = 0 then none
  else
    let start := nelts/perBucket
    let start := if start = 0 then 1 else start
    if hinit.maxSize > 10000 ∧ nelts ≠ 0 ∧ hinit.maxSize/nelts < 100 then
      some (hinit.maxSize-1000)
    else some start

@[grind =] def sumLoop (size : ℕ) : List HashKey → (ℕ → ℕ) → (ℕ → ℕ)
  | [], test => test
  | k::names, test =>
    if k.null then sumLoop size names test
    else
      let key := k.hash%size
      sumLoop size names (Function.update test key (uShort (test key+eltSize k)))

/-- An empty bucket has the size of its marker, and every other one whole cache lines. -/
def alignTest (line : ℕ) (test : ℕ → ℕ) (i : ℕ) : ℕ :=
  if test i = 8 then 8 else uShort (ngxAlign (test i) line)

@[grind =] def lengthLoop (line : ℕ) (test : ℕ → ℕ) : ℕ → ℕ
  | 0 => 0
  | i+1 => lengthLoop line test i+if test i = 8 then 0 else alignTest line test i

@[grind =] def placeLoop (test : ℕ → ℕ) (elts : ℕ) : ℕ → ℕ×(ℕ → ℕ)
  | 0 => (elts,fun _ => 0)
  | i+1 =>
    let placed := placeLoop test elts i
    if test i = 8 then placed
    else (placed.1+test i,Function.update placed.2 i placed.1)

def storeElt (mem : ℕ → UInt8) (elt : ℕ) (k : HashKey) : ℕ → UInt8 :=
  let mem := writeRange mem elt (toBytes 8 k.value)
  let mem := writeRange mem (elt+8) (toBytes 2 (uShort k.data.length))
  writeRange mem (elt+10) (ngxStrlow k.data)

@[grind =] def fillLoop (size : ℕ) (buckets : ℕ → ℕ) :
    List HashKey → (ℕ → ℕ) → (ℕ → UInt8) → (ℕ → ℕ)×(ℕ → UInt8)
  | [], test, mem => (test,mem)
  | k::names, test, mem =>
    if k.null then fillLoop size buckets names test mem
    else
      let key := k.hash%size
      fillLoop size buckets names (Function.update test key (uShort (test key+eltSize k)))
        (storeElt mem (buckets key+test key) k)

@[grind =] def markLoop (buckets test : ℕ → ℕ) : ℕ → (ℕ → UInt8) → ℕ → UInt8
  | 0, mem => mem
  | i+1, mem =>
    let mem := markLoop buckets test i mem
    if buckets i = 0 then mem else writeRange mem (buckets i+test i) (toBytes 8 0)

def layOut (line : ℕ) (alloc : Allocator) (names : List HashKey) (size : ℕ) (mem : ℕ → UInt8) :
    Except Failure (Hash×(ℕ → UInt8)) :=
  let test := sumLoop size names fun _ => 8
  if alloc.buckets = false then .error .ngxError
  else
    match alloc.elts (lengthLoop line test size+line) with
    | none => .error .ngxError
    | some block =>
      let buckets := (placeLoop (alignTest line test) (ngxAlign block line) size).2
      let filled := fillLoop size buckets names (fun _ => 0) mem
      .ok (⟨buckets,size⟩,markLoop buckets filled.1 size filled.2)

/-- The table and the memory; `line` is `ngx_cacheline_size`. -/
def ngxHashInit (line : ℕ) (alloc : Allocator) (hinit : HashInit) (names : List HashKey)
    (mem : ℕ → UInt8) : Except Failure (Hash×(ℕ → UInt8)) :=
  if names.any fun k => hinit.bucketSize < eltSize k+8 then .error .ngxError
  else if alloc.test = false then .error .ngxError
  else
    match startSize hinit names.length with
    | none => .error .divisionByZero
    | some start =>
      match searchLoop (innerSize hinit) names (hinit.maxSize-start) start with
      | none => .error .ngxError
      | some size => layOut line alloc names size mem

def load (mem : ℕ → UInt8) (a bytes : ℕ) : ℕ := ofBytes (readRange mem a (a+bytes))

@[grind =] def findLoop (mem : ℕ → UInt8) (name : List UInt8) : ℕ → ℕ → Option ℕ
  | 0, _ => none
  | n+1, elt =>
    let value := load mem elt 8
    let len := load mem (elt+8) 2
    if value = 0 then some 0
    else if name.length = len ∧ readRange mem (elt+10) (elt+10+name.length) = name then some value
    else findLoop mem name n (ngxAlign (elt+10+len) 8)

def ngxHashFind (mem : ℕ → UInt8) (hash : Hash) (key : ℕ) (name : List UInt8) (turns : ℕ) :
    Option ℕ :=
  let elt := hash.buckets (key%hash.size)
  if elt = 0 then some 0 else findLoop mem name turns elt

/-! What a table is meant to be -/

def contents (names : List HashKey) (size i : ℕ) : List HashKey :=
  names.filter fun k => k.null = false ∧ k.hash%size = i

def bytes (ks : List HashKey) : ℕ := (ks.map eltSize).sum

def Fits (hinit : HashInit) (names : List HashKey) (size : ℕ) : Prop :=
  ∀ i, contents names size i ≠ [] → bytes (contents names size i)+8 ≤ hinit.bucketSize

structure Small (line : ℕ) (hinit : HashInit) (names : List HashKey) : Prop where
  cacheline : ∃ k, 3 ≤ k ∧ line = 2^k
  bucket : hinit.bucketSize+line ≤ 2^16
  sum : ∀ k ∈ names, k.null = false → eltSize k+hinit.bucketSize < 2^16+8

structure Keys (names : List HashKey) : Prop where
  value : ∀ k ∈ names, k.null = false → 0 < k.value ∧ k.value < 2^64
  distinct : names.Pairwise fun k k' => k.null = false → k'.null = false →
    ngxStrlow k.data ≠ ngxStrlow k'.data

/-- The buckets with keys lie apart in the block of `n` bytes, each with a marker at its end. -/
structure LaidOut (names : List HashKey) (hash : Hash) (mem mem' : ℕ → UInt8)
    (block n : ℕ) : Prop where
  empty : ∀ i < hash.size, contents names hash.size i = [] → hash.buckets i = 0
  inside : ∀ i < hash.size, contents names hash.size i ≠ [] → block ≤ hash.buckets i ∧
    hash.buckets i+(bytes (contents names hash.size i)+8) ≤ block+n
  apart : ∀ i < hash.size, ∀ j < hash.size, i < j → contents names hash.size i ≠ [] →
    contents names hash.size j ≠ [] →
    hash.buckets i+(bytes (contents names hash.size i)+8) ≤ hash.buckets j
  marker : ∀ i < hash.size, contents names hash.size i ≠ [] →
    readRange mem' (hash.buckets i+bytes (contents names hash.size i))
      (hash.buckets i+bytes (contents names hash.size i)+8) = toBytes 8 0
  outside : ∀ a, a < block ∨ block+n ≤ a → mem' a = mem a

def Answers (names : List HashKey) (hash : Hash) (mem : ℕ → UInt8) : Prop :=
  ∀ turns, names.length < turns →
    (∀ k ∈ names, k.null = false →
      ngxHashFind mem hash k.hash (ngxStrlow k.data) turns = some k.value) ∧
    ∀ key name, (∀ k ∈ names, k.null = false → ngxStrlow k.data ≠ name) →
      ngxHashFind mem hash key name turns = some 0

end Nginx.ExactHash
