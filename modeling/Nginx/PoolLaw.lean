import Nginx.Pool
import Nginx.Runs

/-!
# The ranges of a pool stay apart

What a pool has in use is laid out in its blocks behind their headers and in the large
allocations: the ranges of the callers, the links that are kept and the entries of the
large list. Each function keeps the layout, as long as a pool is not reset while it keeps
links, whose memory the reset hands out again.
-/

set_option autoImplicit false

namespace Nginx.PoolLaw
open HeapLedger Pool

def start (pool : Pool.Pool) (b : Block) : ℕ :=
  b.addr+if b.addr = pool.addr then sizeofPool else sizeofPoolData

def GivenApart (g h : Given) : Prop := Apart g.addr g.size h.addr h.size

def Placed (s : Memory) (allocs : List ℕ) (g : Given) : Prop :=
  if g.source = .large then g.addr ∈ allocs ∧ ∃ c ∈ s.heap.live, c.addr = g.addr ∧ c.size = g.size
  else ∃ b ∈ s.pool.blocks, start s.pool b ≤ g.addr ∧ g.addr+g.size ≤ b.last

/-- The layout of what is in use, with the addresses of the large allocations. -/
structure Laid (psize : ℕ) (s : Memory) (allocs : List ℕ) (used : List Given) : Prop where
  heap : s.heap.Ok
  head : ∃ d rest, s.pool.blocks = d::rest ∧ d.addr = s.pool.addr
  current : s.pool.current < s.pool.blocks.length
  size : ngxPoolAlignment ∣ psize ∧ sizeofPool+s.pool.max ≤ psize
  blocks : ∀ b ∈ s.pool.blocks, ngxPoolAlignment ∣ b.addr ∧ b.end = b.addr+psize ∧
    start s.pool b ≤ b.last ∧ b.last ≤ b.end ∧
      ∃ c ∈ s.heap.live, c.addr = b.addr ∧ c.size = psize
  addrs : (s.pool.blocks.map Block.addr).Nodup
  distinct : allocs.Nodup
  large : ∀ p ∈ allocs, (∃ c ∈ s.heap.live, c.addr = p) ∧ ∀ b ∈ s.pool.blocks, b.addr ≠ p
  owned : ∀ c ∈ s.heap.live, (∃ b ∈ s.pool.blocks, b.addr = c.addr) ∨ c.addr ∈ allocs
  placed : ∀ g ∈ used, Placed s allocs g
  apart : used.Pairwise GivenApart

section Layout
variable {psize : ℕ} {s : Memory} {allocs : List ℕ} {used : List Given}

theorem Laid.psize_eq (h : Laid psize s allocs used) : s.pool.psize = psize := by
  obtain ⟨d,rest,hb,hd⟩ := h.head
  have := (h.blocks d (by simp [hb])).2.1
  simp only [Pool.psize, hb, List.head?_cons, Option.map_some, Option.getD_some]
  omega

theorem Laid.sub (h : Laid psize s allocs used) {used' : List Given}
    (hu : used'.Sublist used) : Laid psize s allocs used' :=
  { h with
    placed := fun g hg => h.placed g (hu.subset hg)
    apart := h.apart.sublist hu }

theorem Laid.perm (h : Laid psize s allocs used) {allocs' : List ℕ} {used' : List Given}
    (ha : allocs.Perm allocs') (hu : used.Perm used') : Laid psize s allocs' used' :=
  { h with
    distinct := ha.nodup_iff.mp h.distinct
    large := fun p hp => h.large p (ha.mem_iff.mpr hp)
    owned := fun c hc => (h.owned c hc).imp id ha.mem_iff.mp
    placed := fun g hg => by
      have hp := h.placed g (hu.mem_iff.mpr hg)
      unfold Placed at hp ⊢
      rwa [ha.mem_iff] at hp
    apart := (hu.pairwise_iff fun hab => apart_symm hab).mp h.apart }

variable {heap : Heap}

theorem Laid.failed (h : Laid psize s allocs used) (hk : heap.Ok) (hl : heap.live = s.heap.live) :
    Laid psize { s with heap := heap } allocs used :=
  { h with
    heap := hk
    blocks := by simpa only [hl] using h.blocks
    large := by simpa only [hl] using h.large
    owned := by simpa only [hl] using h.owned
    placed := by simpa only [Placed, hl] using h.placed }

theorem Laid.eq_of_addr (h : Laid psize s allocs used) {b d : Block}
    (hb : b ∈ s.pool.blocks) (hd : d ∈ s.pool.blocks) (he : b.addr = d.addr) : b = d :=
  List.inj_on_of_nodup_map h.addrs hb hd he

theorem Laid.blocks_apart (h : Laid psize s allocs used) {b d : Block}
    (hb : b ∈ s.pool.blocks) (hd : d ∈ s.pool.blocks) (hne : b ≠ d) :
    Apart b.addr psize d.addr psize := by
  obtain ⟨_,_,_,_,c,hc,hca,hcs⟩ := h.blocks b hb
  obtain ⟨_,_,_,_,e,he,hea,hes⟩ := h.blocks d hd
  have hap := h.heap.apart_of_ne hc he fun heq => hne (h.eq_of_addr hb hd (by rw [← hca, ← hea, heq]))
  rw [hca, hea, hcs, hes] at hap
  exact apart_within hap le_rfl (by omega) le_rfl (by omega)

variable {b : Block}

theorem Laid.large_apart (h : Laid psize s allocs used) {c : Chunk} (hb : b ∈ s.pool.blocks)
    (hc : c ∈ s.heap.live) (ha : c.addr ∈ allocs) : Apart c.addr c.size b.addr psize := by
  obtain ⟨_,_,_,_,e,he,hea,hes⟩ := h.blocks b hb
  have hne := (h.large c.addr ha).2 b hb
  have hap := h.heap.apart_of_ne hc he (by rw [hea]; exact hne.symm)
  rw [hea, hes] at hap
  exact apart_within hap le_rfl (by omega) le_rfl (by omega)

theorem start_ge (pool : Pool.Pool) (b : Block) : b.addr ≤ start pool b := by
  unfold start
  omega

theorem Laid.free_apart (h : Laid psize s allocs used) (hb : b ∈ s.pool.blocks) {m size : ℕ}
    (hm : b.last ≤ m) (he : m+size ≤ b.end) {g : Given} (hg : g ∈ used) :
    Apart m size g.addr g.size := by
  obtain ⟨_,hend,hst,_,_⟩ := h.blocks b hb
  have hge := start_ge s.pool b
  have hp := h.placed g hg
  unfold Placed at hp
  split at hp
  · obtain ⟨ha,c,hc,hca,hcs⟩ := hp
    rw [← hca] at ha
    have hap := h.large_apart hb hc ha
    rw [hca, hcs] at hap
    exact apart_symm (apart_within hap le_rfl le_rfl (by omega) (by omega))
  · obtain ⟨d,hd,hdl,hdh⟩ := hp
    by_cases hbd : d = b
    · subst hbd
      exact Or.inr (by omega)
    obtain ⟨_,hde,_,hdlast,_⟩ := h.blocks d hd
    have hge' := start_ge s.pool d
    have hap := h.blocks_apart hd hb hbd
    exact apart_symm (apart_within hap (by omega) (by omega) (by omega) (by omega))

variable {source : Source}

theorem Laid.take_block (h : Laid psize s allocs used) {l r : List Block}
    (hb : s.pool.blocks = l++b::r) {m n : ℕ} (hm : b.last ≤ m) (he : m+n ≤ b.end)
    (hs : source ≠ .large) :
    Laid psize { s with pool := { s.pool with
      blocks := l++{ b with last := m+n }::r } } allocs
      (⟨m,n,source⟩::used) := by
  have hbm : b ∈ s.pool.blocks := by simp [hb]
  have hmap : (l++{ b with last := m+n }::r).map Block.addr =
      s.pool.blocks.map Block.addr := by simp [hb]
  have hmem : ∀ d ∈ l++{ b with last := m+n }::r,
      d = { b with last := m+n } ∨ d ∈ s.pool.blocks := by
    intro d hd
    simp only [List.mem_append, List.mem_cons] at hd
    rcases hd with hd | hd | hd
    · exact Or.inr (by simp [hb, hd])
    · exact Or.inl hd
    · exact Or.inr (by simp [hb, hd])
  have hup : ∀ d ∈ s.pool.blocks, ∃ d' ∈ l++{ b with last := m+n }::r,
      d'.addr = d.addr ∧ d.last ≤ d'.last := by
    intro d hd
    simp only [hb, List.mem_append, List.mem_cons] at hd
    rcases hd with hd | rfl | hd
    · exact ⟨d,by simp [hd],rfl,le_rfl⟩
    · exact ⟨{ d with last := m+n },by simp,rfl,by simp only; omega⟩
    · exact ⟨d,by simp [hd],rfl,le_rfl⟩
  obtain ⟨hb1,hb2,hb3,hb4,hb5⟩ := h.blocks b hbm
  constructor
  · exact h.heap
  · obtain ⟨d,rest,hd,ha⟩ := h.head
    rw [hb] at hd
    cases l with
    | nil =>
      obtain ⟨rfl,rfl⟩ := List.cons.inj hd
      exact ⟨_,_,rfl,ha⟩
    | cons l l =>
      obtain ⟨rfl,rfl⟩ := List.cons.inj hd
      exact ⟨_,_,rfl,ha⟩
  · simpa [hb] using h.current
  · exact h.size
  · intro d hd
    rcases hmem d hd with rfl | hd
    · exact ⟨hb1,hb2,by simp only [start] at *; omega,he,hb5⟩
    · exact h.blocks d hd
  · rw [hmap]
    exact h.addrs
  · exact h.distinct
  · intro p hp
    refine ⟨(h.large p hp).1,fun d hd => ?_⟩
    rcases hmem d hd with rfl | hd
    · exact (h.large p hp).2 b hbm
    · exact (h.large p hp).2 d hd
  · intro c hc
    rcases h.owned c hc with ⟨d,hd,hda⟩ | ha
    · obtain ⟨d',hd',hd'a,_⟩ := hup d hd
      exact Or.inl ⟨d',hd',hd'a.trans hda⟩
    · exact Or.inr ha
  · intro g hg
    rcases List.mem_cons.mp hg with rfl | hg
    · unfold Placed
      rw [if_neg hs]
      exact ⟨{ b with last := m+n },by simp,by simp only [start] at *; omega,le_rfl⟩
    have hp := h.placed g hg
    unfold Placed at hp ⊢
    split at hp
    · rename_i hl
      rwa [if_pos hl]
    · rename_i hl
      rw [if_neg hl]
      obtain ⟨d,hd,hd1,hd2⟩ := hp
      obtain ⟨d',hd',hd'a,hd'l⟩ := hup d hd
      refine ⟨d',hd',?_,by omega⟩
      simpa only [start, hd'a] using hd1
  · exact List.pairwise_cons.mpr ⟨fun g hg => h.free_apart hbm hm he hg,h.apart⟩

end Layout

/-! What fits into a block -/

theorem alignPtr_spec {p e : ℕ} (hp : p ≤ e) (he : ngxPoolAlignment ∣ e) (hlt : e < 2^64) :
    p ≤ ngxAlignPtr p ngxAlignment ∧ ngxAlignPtr p ngxAlignment ≤ e := by
  obtain ⟨k,rfl⟩ := he
  simp only [ngxAlignPtr, ngxAlignment, ngxPoolAlignment] at *
  omega

theorem pallocLoop_spec (aligned : Bool) (size : ℕ) (bs : List Block)
    (hbs : ∀ b ∈ bs, b.last ≤ b.end ∧ ngxPoolAlignment ∣ b.end ∧ b.end < 2^64)
    {r : ℕ × List Block} (h : pallocLoop aligned size bs = some r) :
    ∃ left b right, bs = left++b::right ∧ r.2 = left++{ b with last := r.1+size }::right ∧
      b.last ≤ r.1 ∧ r.1+size ≤ b.end := by
  induction bs generalizing r with
  | nil => cases h
  | cons p next ih =>
    obtain ⟨hl,ha,he⟩ := hbs p List.mem_cons_self
    obtain ⟨h1,h2⟩ := alignPtr_spec hl ha he
    rw [pallocLoop] at h
    obtain ⟨m,hm⟩ : ∃ m, (if aligned then ngxAlignPtr p.last ngxAlignment else p.last) = m :=
      ⟨_,rfl⟩
    have hlm : p.last ≤ m ∧ m ≤ p.end := by
      rw [← hm]
      cases aligned
      · exact ⟨le_rfl,hl⟩
      · exact ⟨h1,h2⟩
    rw [hm] at h
    by_cases hroom : (p.end+2^64-m) % 2^64 ≥ size
    · simp only [if_pos hroom] at h
      obtain rfl := Option.some.inj h
      exact ⟨[],p,next,rfl,rfl,hlm.1,by simp only; omega⟩
    simp only [if_neg hroom] at h
    obtain ⟨r',hr,rfl⟩ := Option.map_eq_some_iff.mp h
    obtain ⟨left,b,right,hb,hr2,h3,h4⟩ :=
      ih (fun b hb => hbs b (List.mem_cons_of_mem _ hb)) hr
    exact ⟨p::left,b,right,by rw [hb]; rfl,by simp only [hr2]; rfl,h3,h4⟩

def span (b : Block) : ℕ × ℕ × ℕ := (b.addr, b.last, b.end)

theorem failLoop_spec (bs : List Block) (i current : ℕ) :
    (failLoop i current bs).1.map span = bs.map span ∧
      ((failLoop i current bs).2 = current ∨ (failLoop i current bs).2 < i+bs.length) := by
  induction bs generalizing i current with
  | nil => exact ⟨rfl,Or.inl rfl⟩
  | cons p next ih =>
    cases next with
    | nil => exact ⟨rfl,Or.inl rfl⟩
    | cons q next =>
      obtain ⟨k,hk⟩ : ∃ k, (if p.failed > 4 then i+1 else current) = k := ⟨_,rfl⟩
      obtain ⟨h1,h2⟩ := ih (i+1) k
      simp only [failLoop, List.map_cons, hk, h1]
      refine ⟨rfl,?_⟩
      simp only [List.length_cons] at h2 ⊢
      split at hk <;> omega

section Growth
variable {psize : ℕ} {s : Memory} {allocs : List ℕ} {used : List Given}

variable {heap : Heap} {source : Source}

theorem Laid.add_block (h : Laid psize s allocs used) (hk : heap.Ok) {p id size current : ℕ}
    (hp : ngxPoolAlignment ∣ p) (hl : heap.live = ⟨p,psize,id⟩::s.heap.live)
    (hap : ∀ c ∈ s.heap.live, Apart p (max psize 1) c.addr (max c.size 1)) {blocks : List Block}
    (hb : blocks.map span = s.pool.blocks.map span) (hc : current < blocks.length+1)
    (hsize : size ≤ s.pool.max) (hs : source ≠ .large) :
    Laid psize ⟨heap,{ s.pool with
      blocks := blocks++[⟨p,p+sizeofPoolData+size,p+psize,0⟩], current := current }⟩
      allocs (⟨p+sizeofPoolData,size,source⟩::used) := by
  have hold : ∀ d ∈ blocks, ∃ b ∈ s.pool.blocks, span b = span d := by
    intro d hd
    have hd' : span d ∈ s.pool.blocks.map span := hb ▸ List.mem_map_of_mem hd
    exact List.mem_map.mp hd'
  have hnew : ∀ b ∈ s.pool.blocks, ∃ d ∈ blocks, span d = span b := by
    intro b hb'
    have hb'' : span b ∈ blocks.map span := hb ▸ List.mem_map_of_mem hb'
    exact List.mem_map.mp hb''
  have hmono : ∀ c ∈ s.heap.live, c ∈ heap.live := by
    intro c hc
    rw [hl]
    exact List.mem_cons_of_mem _ hc
  have hpne : ∀ c ∈ s.heap.live, c.addr ≠ p := by
    intro c hc he
    have := hap c hc
    unfold Apart at this
    omega
  have hbne : ∀ b ∈ s.pool.blocks, b.addr ≠ p := by
    intro b hb'
    obtain ⟨_,_,_,_,c,hc,hca,_⟩ := h.blocks b hb'
    rw [← hca]
    exact hpne c hc
  have hplace : ∀ g, Placed s allocs g → Placed ⟨heap,{ s.pool with
      blocks := blocks++[⟨p,p+sizeofPoolData+size,p+psize,0⟩], current := current }⟩
      allocs g := by
    intro g hg
    unfold Placed at hg ⊢
    split at hg
    · rename_i hlg
      rw [if_pos hlg]
      obtain ⟨h1,c,h2,h3⟩ := hg
      exact ⟨h1,c,hmono c h2,h3⟩
    · rename_i hlg
      rw [if_neg hlg]
      obtain ⟨b,hb',h1,h2⟩ := hg
      obtain ⟨d,hd,hds⟩ := hnew b hb'
      simp only [span, Prod.mk.injEq] at hds
      exact ⟨d,List.mem_append_left _ hd,by simpa only [start, hds.1] using h1,by omega⟩
  obtain ⟨hs1,hs2⟩ := h.size
  obtain ⟨d0,rest0,hd0,hda0⟩ := h.head
  have hp0 : p ≠ s.pool.addr := by
    rw [← hda0]
    exact (hbne d0 (by simp [hd0])).symm
  have hmap : blocks.map Block.addr = s.pool.blocks.map Block.addr := by
    have := congrArg (List.map Prod.fst) hb
    rw [List.map_map, List.map_map] at this
    exact this
  constructor
  · exact hk
  · cases hblocks : blocks with
    | nil => simp [hblocks, hd0] at hmap
    | cons d rest =>
      refine ⟨d,rest++[⟨p,p+sizeofPoolData+size,p+psize,0⟩],rfl,?_⟩
      simp only [hblocks, hd0, List.map_cons, List.cons.injEq] at hmap
      exact hmap.1.trans hda0
  · simpa using hc
  · exact h.size
  · intro d hd
    rcases List.mem_append.mp hd with hd | hd
    · obtain ⟨b,hb',hbs⟩ := hold d hd
      simp only [span, Prod.mk.injEq] at hbs
      obtain ⟨h1,h2,h3,h4,c,h5,h6,h7⟩ := h.blocks b hb'
      simp only [start, hbs.1, hbs.2.1, hbs.2.2] at h1 h2 h3 h4 h6
      exact ⟨h1,h2,h3,h4,c,hmono c h5,h6,h7⟩
    obtain rfl := List.mem_singleton.mp hd
    refine ⟨hp,rfl,?_,?_,⟨p,psize,id⟩,by simp [hl],rfl,rfl⟩
    · simp only [start, if_neg hp0]
      omega
    · simp only [sizeofPool, sizeofPoolData] at hs2 ⊢
      omega
  · rw [List.map_append, hmap]
    refine List.nodup_append.mpr ⟨h.addrs,List.nodup_singleton _,fun a ha b hb' => ?_⟩
    obtain ⟨d,hd,rfl⟩ := List.mem_map.mp ha
    obtain rfl := List.mem_singleton.mp hb'
    exact hbne d hd
  · exact h.distinct
  · intro q hq
    obtain ⟨⟨c,hc,hcq⟩,hbq⟩ := h.large q hq
    refine ⟨⟨c,hmono c hc,hcq⟩,fun d hd => ?_⟩
    rcases List.mem_append.mp hd with hd | hd
    · obtain ⟨b,hb',hbs⟩ := hold d hd
      simp only [span, Prod.mk.injEq] at hbs
      rw [← hbs.1]
      exact hbq b hb'
    obtain rfl := List.mem_singleton.mp hd
    rw [← hcq]
    exact (hpne c hc).symm
  · intro c hc
    rw [hl, List.mem_cons] at hc
    rcases hc with rfl | hc
    · exact Or.inl ⟨⟨p,p+sizeofPoolData+size,p+psize,0⟩,by simp,rfl⟩
    rcases h.owned c hc with ⟨b,hb',hba⟩ | ha
    · obtain ⟨d,hd,hds⟩ := hnew b hb'
      simp only [span, Prod.mk.injEq] at hds
      exact Or.inl ⟨d,List.mem_append_left _ hd,hds.1.trans hba⟩
    · exact Or.inr ha
  · intro g hg
    rcases List.mem_cons.mp hg with rfl | hg
    · unfold Placed
      rw [if_neg hs]
      exact ⟨⟨p,p+sizeofPoolData+size,p+psize,0⟩,by simp,by simp only [start, if_neg hp0]; omega,le_rfl⟩
    · exact hplace g (h.placed g hg)
  · refine List.pairwise_cons.mpr ⟨fun g hg => ?_,h.apart⟩
    -- what is in use lies in allocations made before
    obtain ⟨c,hc,hca,hcs⟩ : ∃ c ∈ s.heap.live, c.addr ≤ g.addr ∧
        g.addr+g.size ≤ c.addr+c.size := by
      have hg' := h.placed g hg
      unfold Placed at hg'
      split at hg'
      · obtain ⟨_,c,hc,hca,hcs⟩ := hg'
        exact ⟨c,hc,by omega,by omega⟩
      · obtain ⟨b,hb',h1,h2⟩ := hg'
        obtain ⟨_,h3,_,h4,c,hc,hca,hcs⟩ := h.blocks b hb'
        have := start_ge s.pool b
        exact ⟨c,hc,by omega,by omega⟩
    simp only [sizeofPool] at hs2
    exact apart_within (hap c hc) (by simp only; omega)
      (by simp only [sizeofPoolData]; omega) hca (by omega)

variable {b : Block}

theorem Laid.block_bounds (h : Laid psize s allocs used) (hb : b ∈ s.pool.blocks) :
    b.last ≤ b.end ∧ ngxPoolAlignment ∣ b.end ∧ b.end < 2^64 := by
  obtain ⟨h1,h2,_,h4,c,hc,hca,hcs⟩ := h.blocks b hb
  have := (h.heap.inRange c hc).2
  exact ⟨h4,h2 ▸ Nat.dvd_add h1 h.size.1,by omega⟩

structure FromBlock (psize : ℕ) (s : Memory) (allocs : List ℕ) (used : List Given)
    (size : ℕ) (r : ℕ × Memory) : Prop where
  addr : r.2.pool.addr = s.pool.addr
  max : r.2.pool.max = s.pool.max
  chain : r.2.pool.chain = s.pool.chain
  large : r.2.pool.large = s.pool.large
  laid : r.1 = 0 ∧ Laid psize r.2 allocs used ∨
    r.1 ≠ 0 ∧ ∀ source, source ≠ Source.large →
      Laid psize r.2 allocs (⟨r.1,size,source⟩::used)

variable (os : Allocator) {size : ℕ}

theorem pallocBlock_spec (h : Laid psize s allocs used) (hsize : size ≤ s.pool.max) :
    FromBlock psize s allocs used size (ngxPallocBlock os size s) := by
  obtain ⟨hk,ha⟩ := alloc_spec os h.heap ngxPoolAlignment s.pool.psize
  unfold ngxPallocBlock
  rw [h.psize_eq] at ha hk ⊢
  cases ha with
  | failed h0 hl =>
    simp only [h0, if_true]
    exact ⟨rfl,rfl,rfl,rfl,Or.inl ⟨rfl,h.failed hk hl⟩⟩
  | given id h0 hd hlt hl hap =>
    simp only [if_neg h0]
    obtain ⟨hf1,hf2⟩ := failLoop_spec (s.pool.blocks.drop s.pool.current) s.pool.current
      s.pool.current
    have hcur := h.current
    have hm : ngxAlignPtr ((s.heap.alloc os ngxPoolAlignment psize).1+sizeofPoolData)
        ngxAlignment = (s.heap.alloc os ngxPoolAlignment psize).1+sizeofPoolData := by
      obtain ⟨k,hk⟩ := hd
      have hs2 := h.size.2
      simp only [ngxAlignPtr, ngxAlignment, ngxPoolAlignment, sizeofPoolData, sizeofPool] at *
      omega
    have hspan : (s.pool.blocks.take s.pool.current++(failLoop s.pool.current s.pool.current
        (s.pool.blocks.drop s.pool.current)).1).map span = s.pool.blocks.map span := by
      rw [List.map_append, hf1, ← List.map_append, List.take_append_drop]
    have hlen : (s.pool.blocks.take s.pool.current++(failLoop s.pool.current s.pool.current
        (s.pool.blocks.drop s.pool.current)).1).length = s.pool.blocks.length := by
      have := congrArg List.length hspan
      simpa only [List.length_map] using this
    rw [List.length_drop] at hf2
    refine ⟨rfl,rfl,rfl,rfl,Or.inr ⟨?_,fun source hs => ?_⟩⟩
    · rw [hm]
      simp only [sizeofPoolData]
      omega
    · rw [hm]
      exact h.add_block hk hd hl hap hspan (by omega) hsize hs

theorem pallocSmall_spec (aligned : Bool) (h : Laid psize s allocs used) (hsize : size ≤ s.pool.max) :
    FromBlock psize s allocs used size (pallocSmall os aligned size s) := by
  unfold pallocSmall
  cases hl : pallocLoop aligned size (s.pool.blocks.drop s.pool.current) with
  | none => exact pallocBlock_spec os h hsize
  | some r =>
    have hdrop : ∀ b ∈ s.pool.blocks.drop s.pool.current, b ∈ s.pool.blocks :=
      fun b hb => List.mem_of_mem_drop hb
    obtain ⟨left,b,right,hb,hr,h1,h2⟩ := pallocLoop_spec aligned size _
      (fun b hb => h.block_bounds (hdrop b hb)) hl
    have hb' : s.pool.blocks = (s.pool.blocks.take s.pool.current++left)++b::right := by
      rw [List.append_assoc, ← hb, List.take_append_drop]
    have hbm : b ∈ s.pool.blocks := hdrop b (by simp [hb])
    refine ⟨rfl,rfl,rfl,rfl,Or.inr ⟨?_,fun source hs => ?_⟩⟩
    · obtain ⟨_,_,h3,_,c,hc,hca,_⟩ := h.blocks b hbm
      have := (h.heap.inRange c hc).1
      have := start_ge s.pool b
      simp only
      omega
    · have ht := h.take_block hb' h1 h2 hs
      simpa only [hr, List.append_assoc] using ht

end Growth

/-! Large allocations -/

section Large
variable {psize : ℕ} {s : Memory} {allocs : List ℕ} {used : List Given}

theorem Laid.source_large (h : Laid psize s allocs used) {g : Given} (hg : g ∈ used)
    (hs : g.source = .large) : g.addr ∈ allocs := by
  have hp := h.placed g hg
  unfold Placed at hp
  rw [if_pos hs] at hp
  exact hp.1

variable {heap : Heap}

theorem Laid.add_large (h : Laid psize s allocs used) (hk : heap.Ok) {p id size : ℕ}
    (hl : heap.live = ⟨p,size,id⟩::s.heap.live)
    (hap : ∀ c ∈ s.heap.live, Apart p (max size 1) c.addr (max c.size 1)) :
    Laid psize { s with heap := heap } (p::allocs) (⟨p,size,.large⟩::used) := by
  have hmono : ∀ c ∈ s.heap.live, c ∈ heap.live := by
    intro c hc
    rw [hl]
    exact List.mem_cons_of_mem _ hc
  have hpne : ∀ c ∈ s.heap.live, c.addr ≠ p := by
    intro c hc he
    have := hap c hc
    unfold Apart at this
    omega
  constructor
  · exact hk
  · exact h.head
  · exact h.current
  · exact h.size
  · intro b hb
    obtain ⟨h1,h2,h3,h4,c,hc,h5⟩ := h.blocks b hb
    exact ⟨h1,h2,h3,h4,c,hmono c hc,h5⟩
  · exact h.addrs
  · refine List.nodup_cons.mpr ⟨fun hp => ?_,h.distinct⟩
    obtain ⟨⟨c,hc,hcp⟩,_⟩ := h.large p hp
    exact hpne c hc hcp
  · intro q hq
    rcases List.mem_cons.mp hq with rfl | hq
    · refine ⟨⟨⟨q,size,id⟩,by simp [hl],rfl⟩,fun b hb => ?_⟩
      obtain ⟨_,_,_,_,c,hc,hca,_⟩ := h.blocks b hb
      rw [← hca]
      exact hpne c hc
    · obtain ⟨⟨c,hc,hcq⟩,hbq⟩ := h.large q hq
      exact ⟨⟨c,hmono c hc,hcq⟩,hbq⟩
  · intro c hc
    rw [hl, List.mem_cons] at hc
    rcases hc with rfl | hc
    · exact Or.inr List.mem_cons_self
    · exact (h.owned c hc).imp (fun hb => hb) (List.mem_cons_of_mem _)
  · intro g hg
    rcases List.mem_cons.mp hg with rfl | hg
    · unfold Placed
      rw [if_pos rfl]
      exact ⟨List.mem_cons_self,⟨p,size,id⟩,by simp [hl],rfl,rfl⟩
    have hp := h.placed g hg
    unfold Placed at hp ⊢
    split at hp
    · rename_i hlg
      obtain ⟨h1,c,hc,h2⟩ := hp
      rw [if_pos hlg]
      exact ⟨List.mem_cons_of_mem _ h1,c,hmono c hc,h2⟩
    · rename_i hlg
      rw [if_neg hlg]
      exact hp
  · refine List.pairwise_cons.mpr ⟨fun g hg => ?_,h.apart⟩
    have hg' := h.placed g hg
    unfold Placed at hg'
    split at hg'
    · obtain ⟨_,c,hc,hca,hcs⟩ := hg'
      exact apart_within (hap c hc) le_rfl (by simp only; omega) (by omega) (by omega)
    · obtain ⟨b,hb',h1,h2⟩ := hg'
      obtain ⟨_,h3,_,h4,c,hc,hca,hcs⟩ := h.blocks b hb'
      have := start_ge s.pool b
      exact apart_within (hap c hc) le_rfl (by simp only; omega) (by omega) (by omega)

variable {p : ℕ}

theorem Laid.free_large (h : Laid psize s allocs used) (hp : p ∈ allocs) :
    ∃ heap, s.heap.free p = some heap ∧ ∀ used', used'.Sublist used →
      (∀ g ∈ used', g.source = .large → g.addr ≠ p) →
      Laid psize { s with heap := heap } (allocs.erase p) used' := by
  obtain ⟨⟨c,hc,rfl⟩,hbp⟩ := h.large p hp
  obtain ⟨heap,hf,hk,_,hm⟩ := free_spec h.heap hc
  refine ⟨heap,hf,fun used' hu hno => ?_⟩
  have hkeep : ∀ d ∈ s.heap.live, d.addr ≠ c.addr → d ∈ heap.live :=
    fun d hd hne => (hm d).mpr ⟨hd,hne⟩
  constructor
  · exact hk
  · exact h.head
  · exact h.current
  · exact h.size
  · intro b hb
    obtain ⟨h1,h2,h3,h4,d,hd,h5,h6⟩ := h.blocks b hb
    exact ⟨h1,h2,h3,h4,d,hkeep d hd (h5 ▸ hbp b hb),h5,h6⟩
  · exact h.addrs
  · exact h.distinct.erase _
  · intro q hq
    rw [h.distinct.mem_erase_iff] at hq
    obtain ⟨⟨d,hd,hdq⟩,hbq⟩ := h.large q hq.2
    exact ⟨⟨d,hkeep d hd (hdq ▸ hq.1),hdq⟩,hbq⟩
  · intro d hd
    obtain ⟨hd,hne⟩ := (hm d).mp hd
    refine (h.owned d hd).imp id fun ha => ?_
    exact h.distinct.mem_erase_iff.mpr ⟨hne,ha⟩
  · intro g hg
    have hp := h.placed g (hu.subset hg)
    unfold Placed at hp ⊢
    split at hp
    · rename_i hlg
      obtain ⟨h1,d,hd,h2,h3⟩ := hp
      have hne := hno g hg hlg
      rw [if_pos hlg]
      exact ⟨h.distinct.mem_erase_iff.mpr ⟨hne,h1⟩,d,hkeep d hd (h2 ▸ hne),h2,h3⟩
    · rename_i hlg
      rw [if_neg hlg]
      exact hp
  · exact h.apart.sublist hu

end Large

/-! The functions -/

def largeAllocs (pool : Pool.Pool) : List ℕ := (pool.large.map PoolLarge.alloc).filter (· ≠ 0)

/-- What the pool itself has in use: the kept links and the entries of the large list. -/
def kept (pool : Pool.Pool) : List Given :=
  pool.chain.map (fun cl => ⟨cl,sizeofChain,.link⟩)++
    pool.large.map fun e => ⟨e.addr,sizeofPoolLarge,.block⟩

theorem kept_entry (pool : Pool.Pool) (e : PoolLarge) (live : List Given) :
    (live++kept { pool with large := e::pool.large }).Perm
      (⟨e.addr,sizeofPoolLarge,.block⟩::(live++kept pool)) := by
  simp only [kept, List.map_cons, ← List.append_assoc]
  exact List.perm_middle

/-- The layout of a pool whose callers have been given `live`. -/
def Keeps (psize : ℕ) (s : Memory) (live : List Given) : Prop :=
  Laid psize s (largeAllocs s.pool) (live++kept s.pool)

variable {psize : ℕ} {heap : Heap}

theorem Laid.same_blocks {pool pool' : Pool.Pool} {allocs : List ℕ} {used : List Given}
    (h : Laid psize ⟨heap,pool⟩ allocs used) (ha : pool'.addr = pool.addr)
    (hb : pool'.blocks = pool.blocks) (hm : pool'.max = pool.max)
    (hc : pool'.current = pool.current) : Laid psize ⟨heap,pool'⟩ allocs used := by
  cases pool
  cases pool'
  simp only at ha hb hm hc
  subst ha hb hm hc
  exact ⟨h.heap,h.head,h.current,h.size,h.blocks,h.addrs,h.distinct,h.large,h.owned,h.placed,
    h.apart⟩

/-- What a call that returns memory leaves; the range is new where it is not NULL. -/
def Gives (psize : ℕ) (live : List Given) (size : ℕ) (source : Source) (r : ℕ × Memory) :
    Prop :=
  (r.1 = 0 ∧ Keeps psize r.2 live) ∨
    (r.1 ≠ 0 ∧ Keeps psize r.2 (⟨r.1,size,source⟩::live))

section Functions
variable {psize : ℕ} {s : Memory} {live : List Given}

variable (os : Allocator) {size : ℕ} {source : Source}

theorem pallocSmall_gives (aligned : Bool) (h : Keeps psize s live) (hsize : size ≤ s.pool.max)
    (hs : source ≠ .large) : Gives psize live size source (pallocSmall os aligned size s) := by
  have hb := pallocSmall_spec os aligned h hsize
  have hk : kept (pallocSmall os aligned size s).2.pool = kept s.pool := by
    rw [kept, hb.chain, hb.large, kept]
  have ha : largeAllocs (pallocSmall os aligned size s).2.pool = largeAllocs s.pool := by
    rw [largeAllocs, hb.large, largeAllocs]
  rcases hb.laid with ⟨h0,hl⟩ | ⟨h0,hl⟩
  · refine Or.inl ⟨h0,?_⟩
    rw [Keeps, hk, ha]
    exact hl
  refine Or.inr ⟨h0,?_⟩
  rw [Keeps, hk, ha]
  exact hl source hs

theorem newEntry_gives (h : Keeps psize s live) (hk : heap.Ok) {p id size : ℕ} (h0 : p ≠ 0)
    (hl : heap.live = ⟨p,size,id⟩::s.heap.live)
    (hap : ∀ c ∈ s.heap.live, Apart p (max size 1) c.addr (max c.size 1)) :
    ∃ r, newEntry os p { s with heap := heap } = some r ∧ Gives psize live size .large r := by
  have hlarge := Laid.add_large h hk hl hap
  have hb := pallocSmall_spec os true hlarge s.pool.entryFits
  have hp : p ∉ largeAllocs s.pool := (List.nodup_cons.mp hlarge.distinct).1
  unfold newEntry
  obtain ⟨r,hr⟩ : ∃ r, pallocSmall os true sizeofPoolLarge { s with heap := heap } = r :=
    ⟨_,rfl⟩
  rw [hr] at hb ⊢
  obtain ⟨m,heap',pool'⟩ := r
  have hkept : kept pool' = kept s.pool := by rw [kept, hb.chain, hb.large, kept]
  have hallocs : largeAllocs pool' = largeAllocs s.pool := by
    rw [largeAllocs, hb.large, largeAllocs]
  rcases hb.laid with ⟨hm,hL⟩ | ⟨hm,hL⟩
  · simp only at hm hL
    obtain ⟨heap2,hf,hL2⟩ := hL.free_large List.mem_cons_self
    simp only at hf
    rw [if_pos hm]
    refine ⟨(0, ⟨heap2,pool'⟩),by simp only [hf, Option.map_some],Or.inl ⟨rfl,?_⟩⟩
    simp only [Keeps, hkept, hallocs]
    have h2 := hL2 (live++kept s.pool) (List.sublist_cons_self _ _) fun g hg hgs hga =>
      hp (hga ▸ Laid.source_large h hg hgs)
    rwa [List.erase_cons_head] at h2
  simp only at hm hL
  rw [if_neg hm]
  refine ⟨_,rfl,Or.inr ⟨h0,?_⟩⟩
  have h2 := hL .block (by decide)
  have h3 : Laid psize ⟨heap',{ pool' with large := ⟨m,p⟩::pool'.large }⟩
      (p::largeAllocs s.pool)
      (⟨m,sizeofPoolLarge,.block⟩::⟨p,size,.large⟩::(live++kept s.pool)) :=
    h2.same_blocks rfl rfl rfl rfl
  refine h3.perm ?_ ?_
  · simp only [largeAllocs, List.map_cons]
    rw [List.filter_cons_of_pos (by simpa using h0)]
    have := hallocs
    unfold largeAllocs at this
    rw [this]
  · rw [← hkept]
    exact (List.Perm.swap _ _ _).trans
      (List.Perm.cons _ (kept_entry pool' ⟨m,p⟩ live).symm)

theorem reuseEntry_spec (p : ℕ) (hp : p ≠ 0) (large : List PoolLarge) (n : ℕ)
    {large' : List PoolLarge} (h : reuseEntry p large n = some large') :
    large'.map PoolLarge.addr = large.map PoolLarge.addr ∧
      ((large'.map PoolLarge.alloc).filter (· ≠ 0)).Perm
        (p::(large.map PoolLarge.alloc).filter (· ≠ 0)) := by
  induction large generalizing n large' with
  | nil => cases h
  | cons l next ih =>
    rw [reuseEntry] at h
    by_cases h0 : l.alloc = 0
    · rw [if_pos h0] at h
      obtain rfl := Option.some.inj h
      refine ⟨rfl,?_⟩
      simp [h0, hp]
    rw [if_neg h0] at h
    by_cases hn : n > 3
    · rw [if_pos hn] at h
      cases h
    rw [if_neg hn] at h
    obtain ⟨l',hl,rfl⟩ := Option.map_eq_some_iff.mp h
    obtain ⟨h1,h2⟩ := ih _ hl
    refine ⟨by simp [h1],?_⟩
    simp only [List.map_cons]
    rw [List.filter_cons_of_pos (by simpa using h0),
      List.filter_cons_of_pos (by simpa using h0)]
    exact (h2.cons _).trans (List.Perm.swap _ _ _)

theorem pallocLarge_gives (h : Keeps psize s live) (size : ℕ) :
    ∃ r, ngxPallocLarge os size s = some r ∧ Gives psize live size .large r := by
  obtain ⟨hk,ha⟩ := alloc_spec os h.heap 1 size
  unfold ngxPallocLarge
  cases ha with
  | failed h0 hl =>
    simp only [h0, if_true]
    exact ⟨_,rfl,Or.inl ⟨rfl,Laid.failed h hk hl⟩⟩
  | given id h0 hd hlt hl hap =>
    simp only [if_neg h0]
    cases hr : reuseEntry (s.heap.alloc os 1 size).1 s.pool.large 0 with
    | none => exact newEntry_gives os h hk h0 hl hap
    | some large =>
      obtain ⟨h1,h2⟩ := reuseEntry_spec _ h0 _ _ hr
      refine ⟨_,rfl,Or.inr ⟨h0,?_⟩⟩
      have h3 := Laid.add_large h hk hl hap
      have h4 : Laid psize ⟨(s.heap.alloc os 1 size).2,{ s.pool with large := large }⟩ _ _ :=
        h3.same_blocks rfl rfl rfl rfl
      have hkept : kept { s.pool with large := large } = kept s.pool := by
        have hm : ∀ l : List PoolLarge, l.map (fun e =>
            (⟨e.addr,sizeofPoolLarge,.block⟩ : Given)) =
            (l.map PoolLarge.addr).map fun a => ⟨a,sizeofPoolLarge,.block⟩ := by
          intro l
          rw [List.map_map]
          rfl
        simp only [kept, hm, h1]
      rw [Keeps, hkept]
      exact h4.perm h2.symm (List.Perm.refl _)

theorem palloc_gives (h : Keeps psize s live) (size : ℕ) :
    ∃ r, ngxPalloc os size s = some r ∧ Gives psize live size (sourceOf s.pool size) r := by
  unfold ngxPalloc sourceOf
  by_cases hs : size ≤ s.pool.max
  · rw [if_pos hs, if_pos hs]
    exact ⟨_,rfl,pallocSmall_gives os true h hs (by decide)⟩
  · rw [if_neg hs, if_neg hs]
    exact pallocLarge_gives os h size

theorem pnalloc_gives (h : Keeps psize s live) (size : ℕ) :
    ∃ r, ngxPnalloc os size s = some r ∧ Gives psize live size (sourceOf s.pool size) r := by
  unfold ngxPnalloc sourceOf
  by_cases hs : size ≤ s.pool.max
  · rw [if_pos hs, if_pos hs]
    exact ⟨_,rfl,pallocSmall_gives os false h hs (by decide)⟩
  · rw [if_neg hs, if_neg hs]
    exact pallocLarge_gives os h size

theorem pmemalign_gives (h : Keeps psize s live) (size alignment : ℕ) :
    ∃ r, ngxPmemalign os size alignment s = some r ∧ Gives psize live size .large r := by
  obtain ⟨hk,ha⟩ := alloc_spec os h.heap alignment size
  unfold ngxPmemalign
  cases ha with
  | failed h0 hl =>
    simp only [h0, if_true]
    exact ⟨_,rfl,Or.inl ⟨rfl,Laid.failed h hk hl⟩⟩
  | given id h0 hd hlt hl hap =>
    simp only [if_neg h0]
    exact newEntry_gives os h hk h0 hl hap

end Functions

section GivingBack
variable {psize : ℕ} {s : Memory} {live : List Given}

theorem freeEntry_spec (p : ℕ) (heap : Heap) (large : List PoolLarge) :
    (freeEntry p heap large = some none ∧ p ∉ large.map PoolLarge.alloc) ∨
      ∃ left e right, large = left++e::right ∧ e.alloc = p ∧
        freeEntry p heap large = (heap.free p).map fun h =>
          some (h, left++{ e with alloc := 0 }::right) := by
  induction large with
  | nil => exact Or.inl ⟨rfl,by simp⟩
  | cons l next ih =>
    rw [freeEntry]
    by_cases hl : p = l.alloc
    · refine Or.inr ⟨[],l,next,rfl,hl.symm,?_⟩
      rw [if_pos hl, ← hl]
      rfl
    rw [if_neg hl]
    rcases ih with ⟨h1,h2⟩ | ⟨left,e,right,h1,h2,h3⟩
    · refine Or.inl ⟨by rw [h1]; rfl,?_⟩
      simpa [hl] using h2
    refine Or.inr ⟨l::left,e,right,by rw [h1]; rfl,h2,?_⟩
    rw [h3, Option.map_map]
    rfl

/-- What `ngx_pfree` leaves of what the callers have. -/
def afterPfree (p : ℕ) (ok : Bool) (live : List Given) : List Given :=
  if ok then live.filter fun g => ¬ (g.source = .large ∧ g.addr = p) else live

theorem pfree_keeps (h : Keeps psize s live) (p : ℕ) :
    ∃ r, ngxPfree p s = some r ∧ Keeps psize r.2 (afterPfree p r.1 live) := by
  unfold ngxPfree
  rcases freeEntry_spec p s.heap s.pool.large with ⟨h1,h2⟩ | ⟨left,e,right,h1,h2,h3⟩
  · rw [h1]
    exact ⟨(false, s),rfl,h⟩
  have hkept : kept { s.pool with large := left++{ e with alloc := 0 }::right } =
      kept s.pool := by simp [kept, h1]
  have hfilter : (largeAllocs { s.pool with large := left++{ e with alloc := 0 }::right }) =
      (left.map PoolLarge.alloc).filter (· ≠ 0)++(right.map PoolLarge.alloc).filter (· ≠ 0) := by
    simp [largeAllocs]
  by_cases h0 : p = 0
  · have hf : s.heap.free p = some s.heap := by rw [Heap.free, if_pos h0]
    rw [h3, hf]
    refine ⟨(true, ⟨s.heap,{ s.pool with large := left++{ e with alloc := 0 }::right }⟩),rfl,?_⟩
    have ha : largeAllocs s.pool =
        largeAllocs { s.pool with large := left++{ e with alloc := 0 }::right } := by
      rw [hfilter, largeAllocs, h1]
      simp [h2, h0]
    simp only [afterPfree, if_true]
    rw [Keeps, hkept, ← ha]
    have h' : Laid psize ⟨s.heap,{ s.pool with large := left++{ e with alloc := 0 }::right }⟩
        (largeAllocs s.pool) (live++kept s.pool) := h.same_blocks rfl rfl rfl rfl
    exact h'.sub (List.filter_sublist.append_right _)
  have hperm : (largeAllocs s.pool).Perm (p::largeAllocs { s.pool with
      large := left++{ e with alloc := 0 }::right }) := by
    rw [hfilter, largeAllocs, h1, List.map_append, List.map_cons, List.filter_append,
      List.filter_cons_of_pos (by simpa [h2] using h0), h2]
    exact List.perm_middle
  have hmem : p ∈ largeAllocs s.pool := hperm.mem_iff.mpr List.mem_cons_self
  obtain ⟨heap,hf,hL⟩ := h.free_large hmem
  rw [h3, hf]
  refine ⟨(true, ⟨heap,{ s.pool with large := left++{ e with alloc := 0 }::right }⟩),rfl,?_⟩
  simp only [afterPfree, if_true]
  rw [Keeps, hkept]
  have hL2 := hL (live.filter (fun g => ¬ (g.source = .large ∧ g.addr = p))++kept s.pool)
    (List.filter_sublist.append_right _) fun g hg hgs hga => by
      rcases List.mem_append.mp hg with hg | hg
      · have := (List.mem_filter.mp hg).2
        simp [hgs, hga] at this
      · simp only [kept, List.mem_append, List.mem_map] at hg
        rcases hg with ⟨_,_,rfl⟩ | ⟨_,_,rfl⟩ <;> cases hgs
  have herase := (hperm.erase p)
  rw [List.erase_cons_head] at herase
  exact (hL2.perm herase (List.Perm.refl _)).same_blocks rfl rfl rfl rfl

theorem Laid.block_ne_zero {allocs : List ℕ} {used : List Given}
    (h : Laid psize s allocs used) {g : Given} (hg : g ∈ used) (hs : g.source ≠ .large) :
    g.addr ≠ 0 := by
  have hp := h.placed g hg
  unfold Placed at hp
  rw [if_neg hs] at hp
  obtain ⟨b,hb,hst,_⟩ := hp
  obtain ⟨_,_,_,_,c,hc,hca,_⟩ := h.blocks b hb
  have := (h.heap.inRange c hc).1
  have := start_ge s.pool b
  omega

variable (os : Allocator)

theorem allocChainLink_gives (h : Keeps psize s live) :
    ∃ r, ngxAllocChainLink os s = some r ∧ Gives psize live sizeofChain .link r := by
  unfold ngxAllocChainLink
  cases hc : s.pool.chain with
  | nil =>
    have hsize : sizeofChain ≤ s.pool.max := s.pool.entryFits
    refine ⟨_,by simp only [ngxPalloc, if_pos hsize]; rfl,?_⟩
    exact pallocSmall_gives os true h hsize (by decide)
  | cons cl next =>
    have hk : kept s.pool = ⟨cl,sizeofChain,.link⟩::kept { s.pool with chain := next } := by
      simp [kept, hc]
    have h0 : cl ≠ 0 := by
      have hg : ⟨cl,sizeofChain,.link⟩ ∈ live++kept s.pool := by
        rw [hk]
        simp
      exact Laid.block_ne_zero h hg (by rintro ⟨⟩)
    refine ⟨_,rfl,Or.inr ⟨h0,?_⟩⟩
    have h' : Laid psize ⟨s.heap,{ s.pool with chain := next }⟩ (largeAllocs s.pool)
        (live++kept s.pool) := h.same_blocks rfl rfl rfl rfl
    refine h'.perm (List.Perm.refl _) ?_
    rw [hk]
    exact List.perm_middle

theorem freeChain_keeps (h : Keeps psize s live) {cl : ℕ}
    (hcl : ⟨cl,sizeofChain,.link⟩ ∈ live) :
    Keeps psize (ngxFreeChain cl s) (live.erase ⟨cl,sizeofChain,.link⟩) := by
  have h2 : Laid psize (ngxFreeChain cl s) (largeAllocs s.pool) (live++kept s.pool) :=
    h.same_blocks rfl rfl rfl rfl
  refine h2.perm (List.Perm.refl _) ?_
  have hk : kept (ngxFreeChain cl s).pool = ⟨cl,sizeofChain,.link⟩::kept s.pool := rfl
  rw [hk]
  exact ((List.perm_cons_erase hcl).append_right _).trans List.perm_middle.symm

theorem resetPool_keeps (h : Keeps psize s live) (hc : s.pool.chain = []) :
    ∃ m, ngxResetPool s = some m ∧ Keeps psize m [] := by
  obtain ⟨heap,hf,hk,_,hm⟩ := freeAll_spec (s.pool.large.map PoolLarge.alloc) h.heap h.distinct
    fun p hp h0 => (h.large p (List.mem_filter.mpr ⟨hp,by simpa using h0⟩)).1
  refine ⟨_,by rw [ngxResetPool, hf]; rfl,?_⟩
  have hnb : ∀ b ∈ s.pool.blocks, b.addr ∉ s.pool.large.map PoolLarge.alloc := by
    intro b hb hbl
    obtain ⟨_,_,_,_,c,hc,hca,_⟩ := h.blocks b hb
    have h0 := (h.heap.inRange c hc).1
    rw [hca] at h0
    exact (h.large b.addr (List.mem_filter.mpr ⟨hbl,by simpa using h0⟩)).2 b hb rfl
  have hmem : ∀ d ∈ s.pool.blocks.map fun p => { p with last := p.addr+sizeofPool },
      ∃ b ∈ s.pool.blocks, d = { b with last := b.addr+sizeofPool } := by
    intro d hd
    obtain ⟨b,hb,rfl⟩ := List.mem_map.mp hd
    exact ⟨b,hb,rfl⟩
  obtain ⟨d0,rest0,hd0,hda0⟩ := h.head
  constructor
  · exact hk
  · exact ⟨{ d0 with last := d0.addr+sizeofPool },
      rest0.map fun p => { p with last := p.addr+sizeofPool },by rw [hd0]; rfl,hda0⟩
  · simpa using h.current
  · exact h.size
  · intro d hd
    obtain ⟨b,hb,rfl⟩ := hmem d hd
    obtain ⟨h1,h2,_,_,c,hcl,hca,hcs⟩ := h.blocks b hb
    have hs2 := h.size.2
    refine ⟨h1,h2,?_,by simp only; omega,c,(hm c).mpr ⟨hcl,hca ▸ hnb b hb⟩,hca,hcs⟩
    simp only [start, sizeofPool, sizeofPoolData]
    split <;> omega
  · rw [List.map_map]
    exact h.addrs
  · exact .nil
  · intro p hp
    cases hp
  · intro c hcl
    obtain ⟨hcl,hno⟩ := (hm c).mp hcl
    rcases h.owned c hcl with ⟨b,hb,hba⟩ | ha
    · exact Or.inl ⟨_,List.mem_map_of_mem hb,hba⟩
    · exact absurd (List.mem_filter.mp ha).1 hno
  · intro g hg
    simp [kept, hc] at hg
  · simp [kept, hc]

theorem destroyPool_spec (h : Keeps psize s live) :
    ∃ heap, ngxDestroyPool s = some heap ∧ heap.Ok ∧ heap.count = s.heap.count ∧
      heap.live = [] := by
  obtain ⟨heap,hf,hk,hn,hm⟩ := freeAll_spec (s.pool.large.map PoolLarge.alloc) h.heap
    h.distinct fun p hp h0 => (h.large p (List.mem_filter.mpr ⟨hp,by simpa using h0⟩)).1
  have hblock : ∀ a ∈ s.pool.blocks.map Block.addr, a ≠ 0 → ∃ c ∈ heap.live, c.addr = a := by
    intro a ha h0
    obtain ⟨b,hb,rfl⟩ := List.mem_map.mp ha
    obtain ⟨_,_,_,_,c,hc,hca,_⟩ := h.blocks b hb
    refine ⟨c,(hm c).mpr ⟨hc,fun hl => ?_⟩,hca⟩
    rw [hca] at hl
    exact (h.large b.addr (List.mem_filter.mpr ⟨hl,by simpa using h0⟩)).2 b hb rfl
  obtain ⟨heap2,hf2,hk2,hn2,hm2⟩ := freeAll_spec (s.pool.blocks.map Block.addr) hk
    (h.addrs.filter _) hblock
  refine ⟨heap2,by rw [ngxDestroyPool, hf, Option.bind_some, hf2],hk2,hn2.trans hn,?_⟩
  refine List.eq_nil_iff_forall_not_mem.mpr fun c hc => ?_
  obtain ⟨hc1,hno⟩ := (hm2 c).mp hc
  obtain ⟨hc2,hno2⟩ := (hm c).mp hc1
  rcases h.owned c hc2 with ⟨b,hb,hba⟩ | ha
  · exact hno (List.mem_map.mpr ⟨b,hb,hba⟩)
  · exact hno2 (List.mem_filter.mp ha).1

end GivingBack

/-! Runs -/

/-- A reset of a pool that keeps links hands out their memory and keeps them. -/
def Quiet (st : State) (op : Op) : Prop :=
  op = .resetPool → st.memory.pool.chain = []

/-- The states of a pool that has been created, by calls that meet a condition. -/
inductive Reaches (os : Allocator) (meets : State → Op → Prop) (m : Memory) : State → Prop where
  | start : Reaches os meets m ⟨m,[]⟩
  | step {st st' : State} (op : Op) : Reaches os meets m st → Allowed st op → meets st op →
      Pool.step os st op = some st' → Reaches os meets m st'

variable (os : Allocator)

theorem create_keeps (pagesize size : ℕ) (hp : sizeofPoolLarge < pagesize)
    (ha : ngxPoolAlignment ∣ size) (hs : sizeofPool < size) {m : Memory}
    (h : ngxCreatePool os pagesize size hp ha hs = some m) : Keeps size m [] := by
  obtain ⟨hk,hall⟩ := alloc_spec os emptyHeap_ok ngxPoolAlignment size
  unfold ngxCreatePool at h
  cases hall with
  | failed h0 hl =>
    simp only [h0, if_true] at h
    cases h
  | given id h0 hd hlt hl hap =>
    simp only [if_neg h0] at h
    obtain rfl := Option.some.inj h
    obtain ⟨p,hpe⟩ : ∃ p, (emptyHeap.alloc os ngxPoolAlignment size).1 = p := ⟨_,rfl⟩
    obtain ⟨heap,hhe⟩ : ∃ heap, (emptyHeap.alloc os ngxPoolAlignment size).2 = heap := ⟨_,rfl⟩
    simp only [hpe, hhe] at *
    have hlive : heap.live = [⟨p,size,id⟩] := hl
    constructor
    · exact hk
    · exact ⟨_,[],rfl,rfl⟩
    · exact Nat.zero_lt_one
    · refine ⟨ha,?_⟩
      simp only
      omega
    · intro b hb
      obtain rfl := List.mem_singleton.mp hb
      refine ⟨hd,rfl,?_,by simp only; omega,⟨p,size,id⟩,by simp [hlive],rfl,rfl⟩
      simp [PoolLaw.start]
    · simp
    · exact .nil
    · intro q hq
      cases hq
    · intro c hc
      rw [hlive] at hc
      obtain rfl := List.mem_singleton.mp hc
      exact Or.inl ⟨_,List.mem_singleton.mpr rfl,rfl⟩
    · intro g hg
      cases hg
    · exact .nil

variable {st : State} {source : Source}

theorem returned_keeps {psize size : ℕ} {r : ℕ × Memory} (h : Gives psize st.live size source r) :
    Keeps psize (returned st size source r).memory (returned st size source r).live := by
  unfold returned
  rcases h with ⟨h0,h⟩ | ⟨h0,h⟩
  · simpa only [h0, if_true] using h
  · simpa only [if_neg h0] using h

theorem step_keeps (op : Op) (h : Keeps psize st.memory st.live) (ha : Allowed st op)
    (hq : Quiet st op) :
    ∃ st', Pool.step os st op = some st' ∧ Keeps psize st'.memory st'.live := by
  cases op with
  | palloc size =>
    obtain ⟨r,hr,hg⟩ := palloc_gives os h size
    exact ⟨_,by simp only [Pool.step, hr]; rfl,returned_keeps hg⟩
  | pnalloc size =>
    obtain ⟨r,hr,hg⟩ := pnalloc_gives os h size
    exact ⟨_,by simp only [Pool.step, hr]; rfl,returned_keeps hg⟩
  | pcalloc size =>
    obtain ⟨r,hr,hg⟩ := palloc_gives os h size
    exact ⟨_,by simp only [Pool.step, ngxPcalloc, hr]; rfl,returned_keeps hg⟩
  | pmemalign size alignment =>
    obtain ⟨r,hr,hg⟩ := pmemalign_gives os h size alignment
    exact ⟨_,by simp only [Pool.step, hr]; rfl,returned_keeps hg⟩
  | pfree p =>
    obtain ⟨r,hr,hg⟩ := pfree_keeps h p
    exact ⟨_,by simp only [Pool.step, hr]; rfl,hg⟩
  | allocChainLink =>
    obtain ⟨r,hr,hg⟩ := allocChainLink_gives os h
    exact ⟨_,by simp only [Pool.step, hr]; rfl,returned_keeps hg⟩
  | freeChain cl => exact ⟨_,rfl,freeChain_keeps h ha⟩
  | resetPool =>
    obtain ⟨m,hm,hk⟩ := resetPool_keeps h (hq rfl)
    exact ⟨_,by simp only [Pool.step, hm]; rfl,hk⟩

theorem reaches_keeps {os : Allocator} {m : Memory} (hm : Keeps psize m [])
    (h : Reaches os Quiet m st) : Keeps psize st.memory st.live := by
  induction h with
  | start => exact hm
  | step op _ ha hq hs ih =>
    obtain ⟨st',hst,hk⟩ := step_keeps os op ih ha hq
    rw [hs] at hst
    obtain rfl := Option.some.inj hst
    exact hk

structure Sound (st : State) : Prop where
  blocks : ∀ b ∈ st.memory.pool.blocks, ∃ c ∈ st.memory.heap.live, c.addr = b.addr ∧
    b.end = b.addr+c.size
  inside : ∀ g ∈ st.live,
    (∃ b ∈ st.memory.pool.blocks, b.addr ≤ g.addr ∧ g.addr+g.size ≤ b.end) ∨
      ∃ c ∈ st.memory.heap.live, (∀ b ∈ st.memory.pool.blocks, b.addr ≠ c.addr) ∧
        c.addr = g.addr ∧ g.size ≤ c.size
  apart : st.live.Pairwise GivenApart
  headers : ∀ g ∈ st.live, ∀ b ∈ st.memory.pool.blocks, Apart g.addr g.size b.addr
    (if b.addr = st.memory.pool.addr then sizeofPool else sizeofPoolData)
  freed : ∀ n < st.memory.heap.count, st.memory.heap.freed.count n =
    if n ∈ st.memory.heap.live.map Chunk.id then 0 else 1

theorem sound_of_keeps (h : Keeps psize st.memory st.live) : Sound st := by
  have hmem : ∀ g ∈ st.live, g ∈ st.live++kept st.memory.pool :=
    fun g hg => List.mem_append_left _ hg
  constructor
  · intro b hb
    obtain ⟨_,h2,_,_,c,hc,hca,hcs⟩ := h.blocks b hb
    exact ⟨c,hc,hca,by omega⟩
  · intro g hg
    have hp := h.placed g (hmem g hg)
    unfold Placed at hp
    split at hp
    · obtain ⟨ha,c,hc,hca,hcs⟩ := hp
      exact Or.inr ⟨c,hc,hca ▸ (h.large g.addr ha).2,hca,hcs.ge⟩
    · obtain ⟨b,hb,h1,h2⟩ := hp
      obtain ⟨_,_,_,h3,_⟩ := h.blocks b hb
      have := start_ge st.memory.pool b
      exact Or.inl ⟨b,hb,by omega,by omega⟩
  · exact h.apart.sublist (List.sublist_append_left _ _)
  · intro g hg b hb
    obtain ⟨_,hbe,hbs,hbl,_⟩ := h.blocks b hb
    have hp := h.placed g (hmem g hg)
    unfold Placed at hp
    split at hp
    · obtain ⟨ha,c,hc,hca,hcs⟩ := hp
      have hap := h.large_apart hb hc (hca ▸ ha)
      unfold PoolLaw.start at hbs
      exact apart_within hap (by omega) (by omega) le_rfl (by omega)
    · obtain ⟨d,hd,h1,h2⟩ := hp
      by_cases hbd : d = b
      · subst hbd
        exact Or.inr h1
      obtain ⟨_,hde,_,hdl,_⟩ := h.blocks d hd
      have := start_ge st.memory.pool d
      unfold PoolLaw.start at hbs
      exact apart_within (h.blocks_apart hd hb hbd) (by omega) (by omega) le_rfl (by omega)
  · exact h.heap.freed_count

/-- The ranges of a pool are apart and inside of what has been allocated, no call frees what
is not allocated, and at its destruction each allocation has been freed exactly once. -/
theorem pool_sound (os : Allocator) (pagesize size : ℕ) (hp : sizeofPoolLarge < pagesize)
    (ha : ngxPoolAlignment ∣ size) (hs : sizeofPool < size) (m : Memory)
    (hm : ngxCreatePool os pagesize size hp ha hs = some m) (st : State)
    (h : Reaches os Quiet m st) :
    Sound st ∧ (∀ op, Allowed st op → Quiet st op → (Pool.step os st op).isSome) ∧
      ∃ heap, ngxDestroyPool st.memory = some heap ∧ heap.count = st.memory.heap.count ∧
        ∀ n < heap.count, heap.freed.count n = 1 := by
  have hk := reaches_keeps (create_keeps os pagesize size hp ha hs hm) h
  refine ⟨sound_of_keeps hk,fun op hop hq => ?_,?_⟩
  · obtain ⟨st',hst,_⟩ := step_keeps os op hk hop hq
    rw [hst]
    rfl
  · obtain ⟨heap,hd,hok,hn,hl⟩ := destroyPool_spec hk
    refine ⟨heap,hd,hn,fun n hlt => ?_⟩
    rw [hok.freed_count n hlt, hl]
    rfl

def smallSystem : Allocator where
  answer h alignment size :=
    if alignment ∣ 4096 ∧ 4096*(h.count+1)+size < 2^64 ∧
        ∀ c ∈ h.live, Apart (4096*(h.count+1)) (max size 1) c.addr (max c.size 1)
    then 4096*(h.count+1) else 0
  fresh := by
    intro h alignment size h0
    by_cases hc : alignment ∣ 4096 ∧ 4096*(h.count+1)+size < 2^64 ∧
      ∀ c ∈ h.live, Apart (4096*(h.count+1)) (max size 1) c.addr (max c.size 1)
    · rw [if_pos hc]
      exact ⟨hc.1.mul_right _,hc.2⟩
    · exact absurd (if_neg hc) h0

def smallPool : Memory where
  heap := ⟨[⟨4096,256,0⟩],1,[],1⟩
  pool := ⟨4096,[⟨4096,4176,4352,0⟩],176,0,[],[],by decide⟩

theorem smallPool_created : ngxCreatePool smallSystem 4096 256 (by decide) (by decide)
    (by decide) = some smallPool := by decide +kernel

theorem run_reaches (meets : State → Op → Prop) [∀ st op, Decidable (meets st op)] (ops : List Op)
    (last : State → Bool) (h : (Runs.run (Pool.step smallSystem)
      (fun st op => Allowed st op ∧ meets st op) ⟨smallPool,[]⟩ ops).any last = true) :
    ∃ st, Reaches smallSystem meets smallPool st ∧ last st = true := by
  refine Runs.run_reaches (Pool.step smallSystem) _ (Reaches smallSystem meets smallPool)
    (fun st op st' hst hop hstep => ?_) ops _ .start last h
  obtain ⟨hallowed,hmeets⟩ := of_decide_eq_true hop
  exact .step op hst hallowed hmeets hstep

/-- A link that is kept over a reset is returned in memory that has been handed out since. -/
theorem link_kept : ¬ ∀ (os : Allocator) (pagesize size : ℕ) (hp : sizeofPoolLarge < pagesize)
    (ha : ngxPoolAlignment ∣ size) (hs : sizeofPool < size) (m : Memory),
    ngxCreatePool os pagesize size hp ha hs = some m →
      ∀ st, Reaches os (fun _ _ => True) m st → st.live.Pairwise GivenApart := by
  intro h
  obtain ⟨st,hst,hlive⟩ := run_reaches (fun _ _ => True)
    [.allocChainLink, .freeChain 4176, .resetPool, .palloc 16, .allocChainLink]
    (fun st => st.live = [⟨4176,16,.link⟩, ⟨4176,16,.block⟩]) (by decide +kernel)
  have hp := h smallSystem 4096 256 (by decide) (by decide) (by decide) smallPool
    smallPool_created st hst
  rw [of_decide_eq_true hlive] at hp
  have hap := (List.pairwise_cons.mp hp).1 _ List.mem_cons_self
  revert hap
  unfold GivenApart
  decide

instance (st : State) (op : Op) : Decidable (Quiet st op) :=
  inferInstanceAs (Decidable (_ → _))

/-- A link is freed and handed out again, a large block and a second small one are taken, and
after the reset both small ones are in use. -/
theorem pool_sound_reset : ∃ st, (st.live = [⟨12368,150,.block⟩, ⟨4176,100,.block⟩] ∧
      st.memory.heap.count = 3 ∧ st.memory.heap.live.length = 2) ∧ Sound st ∧
    (∀ op, Allowed st op → Quiet st op → (Pool.step smallSystem st op).isSome) ∧
    ∃ heap, ngxDestroyPool st.memory = some heap ∧ heap.count = st.memory.heap.count ∧
      ∀ n < heap.count, heap.freed.count n = 1 := by
  obtain ⟨st,hst,hlast⟩ := run_reaches Quiet [.palloc 24, .allocChainLink, .freeChain 4200,
    .allocChainLink, .palloc 300, .palloc 150, .resetPool, .palloc 100, .palloc 150]
    (fun st => st.live = [⟨12368,150,.block⟩, ⟨4176,100,.block⟩] ∧ st.memory.heap.count = 3 ∧
      st.memory.heap.live.length = 2) (by decide +kernel)
  exact ⟨st,of_decide_eq_true hlast,pool_sound smallSystem 4096 256 (by decide) (by decide)
    (by decide) smallPool smallPool_created st hst⟩

end Nginx.PoolLaw
