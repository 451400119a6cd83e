import Nginx.HeapLedger

/-!
# The memory pool

A pool is a list of blocks of one size; each hands out memory from its `last` to its
`end`. What is larger than `max` comes from the system, and the entry that remembers it
is itself memory of the pool. Chain links that are given back are kept in a list of the
pool. Sizes are those of a 64-bit platform.
-/

set_option autoImplicit false

namespace Nginx.Pool
open HeapLedger

def sizeofPool : ℕ := 80

def sizeofPoolData : ℕ := 32

def sizeofPoolLarge : ℕ := 16

def sizeofChain : ℕ := 16

def ngxPoolAlignment : ℕ := 16

def ngxAlignment : ℕ := 8

/-- `ngx_align_ptr` for an alignment that is a power of two -/
def ngxAlignPtr (p a : ℕ) : ℕ := (p+(a-1)) % 2^64 / a * a

/-- `ngx_pool_data_t` of the block at `addr`; `next` is the order of the list of blocks. -/
structure Block where
  addr : ℕ
  last : ℕ
  «end» : ℕ
  failed : ℕ
  deriving DecidableEq, Repr

/-- `ngx_pool_large_t` at `addr`; an `alloc` of 0 is NULL. -/
structure PoolLarge where
  addr : ℕ
  alloc : ℕ
  deriving DecidableEq, Repr

/-- `ngx_pool_t`: its first block is the pool itself, and `current` is the place of the
current block. An entry of the large list is always small enough for a block. -/
structure Pool where
  addr : ℕ
  blocks : List Block
  max : ℕ
  current : ℕ
  chain : List ℕ
  large : List PoolLarge
  entryFits : sizeofPoolLarge ≤ max
  deriving DecidableEq, Repr

structure Memory where
  heap : Heap
  pool : Pool
  deriving DecidableEq, Repr

/-- `ngx_create_pool` of a size that is a multiple of the alignment and larger than the
header; `none` is NULL. -/
def ngxCreatePool (os : Allocator) (pagesize size : ℕ) (hp : sizeofPoolLarge < pagesize)
    (ha : ngxPoolAlignment ∣ size) (hs : sizeofPool < size) : Option Memory :=
  let r := emptyHeap.alloc os ngxPoolAlignment size
  if r.1 = 0 then none
  else some {
    heap := r.2
    pool := {
      addr := r.1
      blocks := [⟨r.1,r.1+sizeofPool,r.1+size,0⟩]
      max := min (size-sizeofPool) (pagesize-1)
      current := 0
      chain := []
      large := []
      entryFits := by
        obtain ⟨k,rfl⟩ := ha
        simp only [sizeofPool, sizeofPoolLarge, ngxPoolAlignment] at *
        omega } }

/-- The loop of `ngx_palloc`, and of `ngx_pnalloc` without the alignment. -/
@[grind =] def pallocLoop (aligned : Bool) (size : ℕ) : List Block → Option (ℕ × List Block)
  | [] => none
  | p::next =>
    let m := if aligned then ngxAlignPtr p.last ngxAlignment else p.last
    if (p.end+2^64-m) % 2^64 ≥ size then some (m, { p with last := m+size }::next)
    else (pallocLoop aligned size next).map fun r => (r.1, p::r.2)

/-- The loop of `ngx_palloc_block` from the block `i` on: the failures are counted, and the
current block moves past those that have failed often. -/
@[grind =] def failLoop (i current : ℕ) : List Block → List Block × ℕ
  | [] => ([], current)
  | [p] => ([p], current)
  | p::q::next =>
    let r := failLoop (i+1) (if p.failed > 4 then i+1 else current) (q::next)
    ({ p with failed := (p.failed+1) % 2^64 }::r.1, r.2)

def Pool.psize (pool : Pool) : ℕ := (pool.blocks.head?.map Block.end).getD 0-pool.addr

def ngxPallocBlock (os : Allocator) (size : ℕ) (s : Memory) : ℕ × Memory :=
  let r := s.heap.alloc os ngxPoolAlignment s.pool.psize
  if r.1 = 0 then (0, { s with heap := r.2 })
  else
    let m := ngxAlignPtr (r.1+sizeofPoolData) ngxAlignment
    let new : Block := ⟨r.1,m+size,r.1+s.pool.psize,0⟩
    let l := failLoop s.pool.current s.pool.current (s.pool.blocks.drop s.pool.current)
    let blocks := s.pool.blocks.take s.pool.current++l.1++[new]
    (m, { heap := r.2, pool := { s.pool with blocks := blocks, current := l.2 } })

/-- The branch of `ngx_palloc` and `ngx_pnalloc` for what fits into a block. -/
def pallocSmall (os : Allocator) (aligned : Bool) (size : ℕ) (s : Memory) : ℕ × Memory :=
  match pallocLoop aligned size (s.pool.blocks.drop s.pool.current) with
  | some r => (r.1, { s with pool := { s.pool with
      blocks := s.pool.blocks.take s.pool.current++r.2 } })
  | none => ngxPallocBlock os size s

/-- The loop of `ngx_palloc_large` over the first entries. -/
@[grind =] def reuseEntry (p : ℕ) : List PoolLarge → ℕ → Option (List PoolLarge)
  | [], _ => none
  | large::next, n =>
    if large.alloc = 0 then some ({ large with alloc := p }::next)
    else if n > 3 then none
    else (reuseEntry p next (n+1)).map (large::·)

/-- The end of `ngx_palloc_large` and `ngx_pmemalign`: an entry for `p`. It is asked for by
`ngx_palloc`, which takes it from a block. -/
def newEntry (os : Allocator) (p : ℕ) (s : Memory) : Option (ℕ × Memory) :=
  let r := pallocSmall os true sizeofPoolLarge s
  if r.1 = 0 then (r.2.heap.free p).map fun heap => (0, { r.2 with heap := heap })
  else some (p, { r.2 with pool := { r.2.pool with large := ⟨r.1,p⟩::r.2.pool.large } })

/-- `ngx_palloc_large`; `none` is a pointer freed that is not allocated. -/
def ngxPallocLarge (os : Allocator) (size : ℕ) (s : Memory) : Option (ℕ × Memory) :=
  let r := s.heap.alloc os 1 size
  if r.1 = 0 then some (0, { s with heap := r.2 })
  else match reuseEntry r.1 s.pool.large 0 with
    | some large => some (r.1, { heap := r.2, pool := { s.pool with large := large } })
    | none => newEntry os r.1 { s with heap := r.2 }

def ngxPalloc (os : Allocator) (size : ℕ) (s : Memory) : Option (ℕ × Memory) :=
  if size ≤ s.pool.max then some (pallocSmall os true size s) else ngxPallocLarge os size s

def ngxPnalloc (os : Allocator) (size : ℕ) (s : Memory) : Option (ℕ × Memory) :=
  if size ≤ s.pool.max then some (pallocSmall os false size s) else ngxPallocLarge os size s

/-- `ngx_pcalloc`, which clears just the range it returns -/
def ngxPcalloc (os : Allocator) (size : ℕ) (s : Memory) : Option (ℕ × Memory) :=
  ngxPalloc os size s

def ngxPmemalign (os : Allocator) (size alignment : ℕ) (s : Memory) :
    Option (ℕ × Memory) :=
  let r := s.heap.alloc os alignment size
  if r.1 = 0 then some (0, { s with heap := r.2 })
  else newEntry os r.1 { s with heap := r.2 }

@[grind =] def freeEntry (p : ℕ) (heap : Heap) : List PoolLarge → Option (Option (Heap × List PoolLarge))
  | [] => some none
  | l::next =>
    if p = l.alloc then (heap.free l.alloc).map fun h => some (h, { l with alloc := 0 }::next)
    else (freeEntry p heap next).map fun r => r.map fun r => (r.1, l::r.2)

/-- `ngx_pfree`: whether it returns `NGX_OK`, not `NGX_DECLINED`. -/
def ngxPfree (p : ℕ) (s : Memory) : Option (Bool × Memory) :=
  (freeEntry p s.heap s.pool.large).map fun r =>
    match r with
    | some r => (true, { heap := r.1, pool := { s.pool with large := r.2 } })
    | none => (false, s)

def ngxAllocChainLink (os : Allocator) (s : Memory) : Option (ℕ × Memory) :=
  match s.pool.chain with
  | cl::next => some (cl, { s with pool := { s.pool with chain := next } })
  | [] => ngxPalloc os sizeofChain s

def ngxFreeChain (cl : ℕ) (s : Memory) : Memory :=
  { s with pool := { s.pool with chain := cl::s.pool.chain } }

def ngxResetPool (s : Memory) : Option Memory :=
  (s.heap.freeAll (s.pool.large.map PoolLarge.alloc)).map fun heap =>
    { heap := heap
      pool := { s.pool with
        large := []
        blocks := s.pool.blocks.map fun p => { p with last := p.addr+sizeofPool } } }

/-- `ngx_destroy_pool`, whose cleanup handlers are none of the pool's -/
def ngxDestroyPool (s : Memory) : Option Heap :=
  (s.heap.freeAll (s.pool.large.map PoolLarge.alloc)).bind
    (Heap.freeAll (s.pool.blocks.map Block.addr))

/-! What the callers have been given -/

inductive Source where
  | block
  | large
  | link
  deriving DecidableEq, Repr

/-- A range that has been returned since the last reset and not been given back. -/
structure Given where
  addr : ℕ
  size : ℕ
  source : Source
  deriving DecidableEq, Repr

structure State where
  memory : Memory
  live : List Given
  deriving DecidableEq, Repr

inductive Op where
  | palloc (size : ℕ)
  | pnalloc (size : ℕ)
  | pcalloc (size : ℕ)
  | pmemalign (size alignment : ℕ)
  | pfree (p : ℕ)
  | allocChainLink
  | freeChain (cl : ℕ)
  | resetPool
  deriving DecidableEq, Repr

def sourceOf (pool : Pool) (size : ℕ) : Source := if size ≤ pool.max then .block else .large

def returned (st : State) (size : ℕ) (source : Source) (r : ℕ × Memory) : State :=
  { memory := r.2, live := if r.1 = 0 then st.live else ⟨r.1,size,source⟩::st.live }

/-- A call of one of the functions; `none` is a pointer freed that is not allocated. -/
def step (os : Allocator) (st : State) : Op → Option State
  | .palloc size => (ngxPalloc os size st.memory).map
      (returned st size (sourceOf st.memory.pool size))
  | .pnalloc size => (ngxPnalloc os size st.memory).map
      (returned st size (sourceOf st.memory.pool size))
  | .pcalloc size => (ngxPcalloc os size st.memory).map
      (returned st size (sourceOf st.memory.pool size))
  | .pmemalign size alignment => (ngxPmemalign os size alignment st.memory).map
      (returned st size .large)
  | .pfree p => (ngxPfree p st.memory).map fun r =>
      { memory := r.2
        live := if r.1 then st.live.filter fun g => ¬ (g.source = .large ∧ g.addr = p)
          else st.live }
  | .allocChainLink => (ngxAllocChainLink os st.memory).map (returned st sizeofChain .link)
  | .freeChain cl => some ⟨ngxFreeChain cl st.memory,
      st.live.erase ⟨cl,sizeofChain,.link⟩⟩
  | .resetPool => (ngxResetPool st.memory).map fun m => ⟨m,[]⟩

def Allowed (st : State) : Op → Prop
  | .freeChain cl => ⟨cl,sizeofChain,.link⟩ ∈ st.live
  | _ => True

instance (st : State) (op : Op) : Decidable (Allowed st op) := by
  cases op <;> unfold Allowed <;> infer_instance

end Nginx.Pool
