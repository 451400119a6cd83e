import Nginx.PoolLaw
import Nginx.MemoryRange

/-!
# Arrays in a pool

An array is a header and a range for its elements, both from the pool. A push to a full array
moves the end of the pool's first block when the elements are the last there, and else moves the
elements. The cells of memory hold the elements only: headers and what the pool keeps for itself
are ranges that are in use. Sizes and addresses are 64 bits wide.
-/

set_option autoImplicit false

namespace Nginx.PoolArray
open HeapLedger Pool MemoryRange

def sizeofArray : ℕ := 40

/-- `ngx_array_t` at `addr`; where the header and the elements come from is in no field of it. -/
structure NgxArray where
  addr : ℕ
  elts : ℕ
  nelts : ℕ
  size : ℕ
  nalloc : ℕ
  head : Source
  source : Source
  deriving DecidableEq, Repr

def poolLast (pool : Pool.Pool) : ℕ := (pool.blocks.head?.map Block.last).getD 0

def poolEnd (pool : Pool.Pool) : ℕ := (pool.blocks.head?.map Block.end).getD 0

def setLast (last : ℕ) (s : Memory) : Memory :=
  { s with pool := { s.pool with blocks := s.pool.blocks.modifyHead ({ · with last := last }) } }

/-- `ngx_array_create`, which returns NULL or the array -/
def ngxArrayCreate (os : Allocator) (n size : ℕ) (s : Memory) :
    Option (Option NgxArray × Memory) :=
  (ngxPalloc os sizeofArray s).bind fun r =>
    if r.1 = 0 then some (none, r.2)
    else (ngxPalloc os (n*size%2^64) r.2).map fun e =>
      (if e.1 = 0 then none
        else some ⟨r.1,e.1,0,size,n,sourceOf s.pool sizeofArray,
          sourceOf r.2.pool (n*size%2^64)⟩, e.2)

def ngxArrayDestroy (a : NgxArray) (s : Memory) : Memory :=
  let bytes := a.size*a.nalloc%2^64
  let s := if (a.elts+bytes)%2^64 = poolLast s.pool then
    setLast ((poolLast s.pool+2^64-bytes)%2^64) s else s
  if (a.addr+sizeofArray)%2^64 = poolLast s.pool then setLast a.addr s else s

def Last (a : NgxArray) (pool : Pool.Pool) : Prop :=
  (a.elts+a.size*a.nalloc%2^64)%2^64 = poolLast pool

instance (a : NgxArray) (pool : Pool.Pool) : Decidable (Last a pool) :=
  inferInstanceAs (Decidable (_ = _))

/-- A full array gets `more` bytes for `n` elements in its place, or `bytes` for `nalloc` elements
at another, where as many bytes as `copied` are copied. -/
def grow (os : Allocator) (a : NgxArray) (n more nalloc bytes copied : ℕ) (s : Memory)
    (cells : ℕ → UInt8) : Option (Option NgxArray × Memory × (ℕ → UInt8)) :=
  if Last a s.pool ∧ (poolLast s.pool+more)%2^64 ≤ poolEnd s.pool then
    some (some { a with nalloc := (a.nalloc+n)%2^64 },
      setLast ((poolLast s.pool+more)%2^64) s, cells)
  else (ngxPalloc os bytes s).map fun r =>
    if r.1 = 0 then (none, r.2, cells)
    else (some { a with elts := r.1, nalloc := nalloc, source := sourceOf s.pool bytes }, r.2,
      writeRange cells r.1 (readRange cells a.elts (a.elts+copied)))

/-- What a push leaves; `elt` is the address that it returns. -/
structure Pushed where
  elt : ℕ
  array : NgxArray
  memory : Memory
  cells : ℕ → UInt8

/-- The end of a push of `n` elements, for an array that has room or for none -/
def pushed (a : NgxArray) (n : ℕ) (r : Option NgxArray × Memory × (ℕ → UInt8)) : Pushed :=
  match r.1 with
  | none => ⟨0,a,r.2.1,r.2.2⟩
  | some a => ⟨(a.elts+a.size*a.nelts)%2^64,{ a with nelts := (a.nelts+n)%2^64 },r.2.1,r.2.2⟩

def ngxArrayPush (os : Allocator) (a : NgxArray) (s : Memory) (cells : ℕ → UInt8) :
    Option Pushed :=
  if a.nelts = a.nalloc then
    let size := a.size*a.nalloc%2^64
    (grow os a 1 a.size (a.nalloc*2%2^64) (2*size%2^64) size s cells).map (pushed a 1)
  else some (pushed a 1 (some a, s, cells))

def ngxArrayPushN (os : Allocator) (a : NgxArray) (n : ℕ) (s : Memory) (cells : ℕ → UInt8) :
    Option Pushed :=
  let size := n*a.size%2^64
  if (a.nelts+n)%2^64 > a.nalloc then
    let nalloc := 2*(if n ≥ a.nalloc then n else a.nalloc)%2^64
    (grow os a n size nalloc (nalloc*a.size%2^64) (a.nelts*a.size%2^64) s cells).map (pushed a n)
  else some (pushed a n (some a, s, cells))

/-! Runs -/

/-- An array that is used, and what has been written to its elements last -/
structure Entry where
  array : NgxArray
  values : List (Option (List UInt8))
  deriving DecidableEq, Repr

structure State where
  memory : Memory
  cells : ℕ → UInt8
  arrays : List Entry
  others : List Given

def ranges (a : NgxArray) : List Given :=
  [⟨a.addr,sizeofArray,a.head⟩, ⟨a.elts,a.size*a.nalloc,a.source⟩]

def used (st : State) : List Given := st.arrays.flatMap (fun e => ranges e.array)++st.others

inductive Op where
  | create (n size : ℕ)
  | push (i : ℕ)
  | pushN (i n : ℕ)
  | destroy (i : ℕ)
  -- the caller writes to an element
  | set (i k : ℕ) (v : List UInt8)
  -- a call for other memory of the pool
  | pool (op : Pool.Op)
  -- the caller writes to other memory
  | write (g : Given) (pos : ℕ) (v : List UInt8)
  -- memory that no caller has may be written at any time
  | scratch (p : ℕ) (c : UInt8)
  deriving DecidableEq, Repr

def clear (os : Allocator) (st : State) : Pool.Op → ℕ → UInt8
  | .pcalloc size =>
    match ngxPcalloc os size st.memory with
    | some r => if r.1 = 0 then st.cells else writeRange st.cells r.1 (List.replicate size 0)
    | none => st.cells
  | _ => st.cells

def afterPush (st : State) (i n : ℕ) (e : Entry) (r : Pushed) : State :=
  { st with
    memory := r.memory
    cells := r.cells
    arrays := if r.elt = 0 then st.arrays
      else st.arrays.set i ⟨r.array,e.values++List.replicate n none⟩ }

/-- `none` is a pointer freed that is not allocated. -/
def step (os : Allocator) (st : State) : Op → Option State
  | .create n size => (ngxArrayCreate os n size st.memory).map fun r =>
      match r.1 with
      | none => { st with memory := r.2 }
      | some a => { st with memory := r.2, arrays := ⟨a,[]⟩::st.arrays }
  | .push i =>
    match st.arrays[i]? with
    | none => some st
    | some e => (ngxArrayPush os e.array st.memory st.cells).map (afterPush st i 1 e)
  | .pushN i n =>
    match st.arrays[i]? with
    | none => some st
    | some e => (ngxArrayPushN os e.array n st.memory st.cells).map (afterPush st i n e)
  | .destroy i =>
    match st.arrays[i]? with
    | none => some st
    | some e => some { st with
        memory := ngxArrayDestroy e.array st.memory
        arrays := st.arrays.eraseIdx i }
  | .set i k v =>
    match st.arrays[i]? with
    | none => some st
    | some e => some { st with
        cells := writeRange st.cells (e.array.elts+k*e.array.size) v
        arrays := st.arrays.set i ⟨e.array,e.values.set k (some v)⟩ }
  | .pool op => (Pool.step os ⟨st.memory,st.others⟩ op).map fun ps =>
      { st with memory := ps.memory, others := ps.live, cells := clear os st op }
  | .write g pos v => some { st with cells := writeRange st.cells (g.addr+pos) v }
  | .scratch p c => some { st with cells := Function.update st.cells p c }

/-- What callers do: an element is written as a whole, other memory inside of a range that is
theirs, and only ranges that are not those of an array are given back. -/
def Allowed (st : State) : Op → Prop
  | .create n size => 1 ≤ n ∧ n < 2^64 ∧ size < 2^64
  | .push i => i < st.arrays.length
  | .pushN i n => i < st.arrays.length ∧ n < 2^64
  | .destroy i => i < st.arrays.length
  | .set i k v => ∃ e, st.arrays[i]? = some e ∧ k < e.array.nelts ∧ v.length = e.array.size
  | .pool op => Pool.Allowed ⟨st.memory,st.others⟩ op ∧ op ≠ .resetPool ∧
      ∀ p, op = .pfree p → ∀ e ∈ st.arrays, ∀ g ∈ ranges e.array, g.addr ≠ p
  | .write g pos v => g ∈ st.others ∧ pos+v.length ≤ g.size
  | .scratch p _ => ∀ g ∈ used st, p < g.addr ∨ g.addr+g.size ≤ p

/-- No size and no address that growing by `n` elements, or to `nalloc` elements, takes passes
the range of 64 bits. -/
def GrowFits (a : NgxArray) (n nalloc : ℕ) (pool : Pool.Pool) : Prop :=
  if Last a pool ∧ poolLast pool+n*a.size ≤ poolEnd pool then a.nalloc+n < 2^64
  else (Last a pool → poolLast pool+n*a.size < 2^64) ∧ nalloc < 2^64 ∧ nalloc*a.size < 2^64

def Fits (st : State) : Op → Prop
  | .create n size => n*size < 2^64
  | .push i => ∀ e, st.arrays[i]? = some e → e.array.nelts = e.array.nalloc →
      GrowFits e.array 1 (2*e.array.nalloc) st.memory.pool
  | .pushN i n => ∀ e, st.arrays[i]? = some e → e.array.nelts+n < 2^64 ∧
      (e.array.nelts+n > e.array.nalloc →
        GrowFits e.array n (2*max n e.array.nalloc) st.memory.pool)
  | _ => True

inductive Reaches (os : Allocator) (meets : State → Op → Prop) (m : Memory) : State → Prop where
  | start (cells : ℕ → UInt8) : Reaches os meets m ⟨m,cells,[],[]⟩
  | step {st st' : State} (op : Op) : Reaches os meets m st → Allowed st op → meets st op →
      PoolArray.step os st op = some st' → Reaches os meets m st'

/-- The elements are in the range of the array, and have the values that were written. -/
structure Kept (cells : ℕ → UInt8) (e : Entry) : Prop where
  nelts : e.values.length = e.array.nelts
  nalloc : e.array.nelts ≤ e.array.nalloc
  values : ∀ k v, e.values[k]? = some (some v) → readRange cells (e.array.elts+k*e.array.size)
    (e.array.elts+k*e.array.size+e.array.size) = v

/-- What callers of arrays rely on; a range without a byte shares none. -/
structure Sound (st : State) : Prop where
  kept : ∀ e ∈ st.arrays, Kept st.cells e
  apart : ((used st).filter (0 < ·.size)).Pairwise PoolLaw.GivenApart
  inside : ∀ g ∈ used st, 0 < g.size →
    (∃ b ∈ st.memory.pool.blocks, b.addr ≤ g.addr ∧ g.addr+g.size ≤ b.end) ∨
      ∃ c ∈ st.memory.heap.live, c.addr = g.addr ∧ g.size ≤ c.size

/-- Where a push has returned an address, there are as many new elements behind the others, inside
of the range of the array. -/
structure Returns (a : NgxArray) (n : ℕ) (r : Pushed) : Prop where
  elt : r.elt = r.array.elts+a.nelts*a.size
  more : r.array.nelts = a.nelts+n ∧ r.array.size = a.size
  inside : r.elt+n*a.size ≤ r.array.elts+r.array.nalloc*r.array.size

end Nginx.PoolArray
