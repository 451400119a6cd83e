import Nginx.PoolArray
import Mathlib.Data.List.Perm.Basic

/-!
# The elements of arrays in a pool are kept

All that callers have is a list of ranges that the layout of the pool holds. The range that ends
where the first block is used up to can be given back or made longer without another one being
touched; what is moved is copied to a range that is apart from all others.
-/

set_option autoImplicit false

namespace Nginx.PoolArrayLaw
open HeapLedger MemoryRange PoolArray
open Pool hiding State Op step Allowed
open PoolLaw hiding Reaches Sound

/-! The end of the first block -/

section Layout

variable {psize : ℕ} {s : Memory} {allocs : List ℕ} {held : List Given} {d : Block}
  {rest : List Block}

theorem pool_last (hb : s.pool.blocks = d::rest) : poolLast s.pool = d.last := by
  rw [poolLast, hb]
  rfl

theorem pool_end (hb : s.pool.blocks = d::rest) : poolEnd s.pool = d.end := by
  rw [poolEnd, hb]
  rfl

theorem set_blocks (hb : s.pool.blocks = d::rest) (last : ℕ) :
    (setLast last s).pool.blocks = { d with last := last }::rest := by
  rw [setLast, hb]
  rfl

theorem laid_bound (h : Laid psize s allocs held) {g : Given} (hg : g ∈ held) :
    g.addr+g.size < 2^64 := by
  have hp := h.placed g hg
  unfold Placed at hp
  split at hp
  · obtain ⟨-,c,hc,hca,hcs⟩ := hp
    have := (h.heap.inRange c hc).2
    omega
  · obtain ⟨b,hb,-,hl⟩ := hp
    have := h.block_bounds hb
    omega

theorem last_in_head (h : Laid psize s allocs held) (hb : s.pool.blocks = d::rest) {g : Given}
    (hg : g ∈ held) (hpos : 0 < g.size) (hlast : g.addr+g.size = d.last) :
    g.source ≠ .large ∧ start s.pool d ≤ g.addr := by
  have hd : d ∈ s.pool.blocks := by simp [hb]
  obtain ⟨-,hend,hstart,hle,-⟩ := h.blocks d hd
  have hlow : d.addr < start s.pool d := by
    unfold start sizeofPool sizeofPoolData
    split <;> omega
  have hp := h.placed g hg
  unfold Placed at hp
  split at hp
  · obtain ⟨ha,c,hc,hca,hcs⟩ := hp
    have hap := h.large_apart hd hc (hca ▸ ha)
    unfold Apart at hap
    omega
  · rename_i hsource
    obtain ⟨b,hbm,hbl,hbh⟩ := hp
    refine ⟨hsource,?_⟩
    by_cases hbd : b = d
    · exact hbd ▸ hbl
    obtain ⟨-,hbe,-,hble,-⟩ := h.blocks b hbm
    have hge := start_ge s.pool b
    have hap := h.blocks_apart hbm hd hbd
    unfold Apart at hap
    omega

theorem laid_set (h : Laid psize s allocs held) (hb : s.pool.blocks = d::rest) {last : ℕ}
    (hl : start s.pool d ≤ last) (hr : last ≤ d.end) {kept : List Given}
    (hsub : kept.Sublist held) (hplaced : ∀ g ∈ kept, start s.pool d ≤ g.addr →
      g.addr+g.size ≤ d.last → g.addr+g.size ≤ last) :
    Laid psize (setLast last s) allocs kept := by
  have hset := set_blocks hb last
  have hmap : (setLast last s).pool.blocks.map Block.addr = s.pool.blocks.map Block.addr := by
    rw [hset, hb]
    rfl
  have hmem : ∀ b ∈ (setLast last s).pool.blocks, b = { d with last := last } ∨
      b ∈ s.pool.blocks := by
    intro b hbm
    rw [hset] at hbm
    rcases List.mem_cons.mp hbm with rfl|hbm
    · exact Or.inl rfl
    · exact Or.inr (by simp [hb, hbm])
  have hd : d ∈ s.pool.blocks := by simp [hb]
  obtain ⟨h1,h2,-,-,h5⟩ := h.blocks d hd
  constructor
  · exact h.heap
  · obtain ⟨d',rest',hd',ha⟩ := h.head
    rw [hb] at hd'
    obtain ⟨rfl,rfl⟩ := List.cons.inj hd'
    exact ⟨_,_,hset,ha⟩
  · have hcurrent := h.current
    rw [hb] at hcurrent
    rw [hset]
    exact hcurrent
  · exact h.size
  · intro b hbm
    rcases hmem b hbm with rfl|hbm
    · exact ⟨h1,h2,hl,hr,h5⟩
    · exact h.blocks b hbm
  · rw [hmap]
    exact h.addrs
  · exact h.distinct
  · intro p hp
    refine ⟨(h.large p hp).1,fun b hbm => ?_⟩
    rcases hmem b hbm with rfl|hbm
    · exact (h.large p hp).2 d hd
    · exact (h.large p hp).2 b hbm
  · intro c hc
    rcases h.owned c hc with ⟨b,hbm,hba⟩|ha
    · have hin : b.addr ∈ (setLast last s).pool.blocks.map Block.addr := by
        rw [hmap]
        exact List.mem_map_of_mem hbm
      obtain ⟨b',hb',hba'⟩ := List.mem_map.mp hin
      exact Or.inl ⟨b',hb',hba'.trans hba⟩
    · exact Or.inr ha
  · intro g hg
    have hp := h.placed g (hsub.subset hg)
    unfold Placed at hp ⊢
    split at hp
    · rename_i hlarge
      rwa [if_pos hlarge]
    · rename_i hlarge
      rw [if_neg hlarge, hset]
      obtain ⟨b,hbm,hbl,hbh⟩ := hp
      rw [hb] at hbm
      rcases List.mem_cons.mp hbm with rfl|hbm
      · exact ⟨_,List.mem_cons_self,hbl,hplaced g hg hbl hbh⟩
      · exact ⟨b,List.mem_cons_of_mem _ hbm,hbl,hbh⟩
  · exact h.apart.sublist hsub

theorem laid_back {g : Given} (h : Laid psize s allocs (g::held))
    (hb : s.pool.blocks = d::rest) (hpos : 0 < g.size) (hlast : g.addr+g.size = d.last)
    (hall : ∀ x ∈ held, 0 < x.size) : Laid psize (setLast g.addr s) allocs held := by
  obtain ⟨-,hstart⟩ := last_in_head h hb List.mem_cons_self hpos hlast
  have hle := (h.block_bounds (show d ∈ s.pool.blocks by simp [hb])).1
  refine laid_set h hb hstart (by omega) (List.sublist_cons_self g held) fun x hx _ hxl => ?_
  have hap := (List.pairwise_cons.mp h.apart).1 x hx
  have hxpos := hall x hx
  unfold GivenApart Apart at hap
  omega

theorem laid_longer {g : Given} (h : Laid psize s allocs (g::held))
    (hb : s.pool.blocks = d::rest) (hpos : 0 < g.size) (hlast : g.addr+g.size = d.last)
    (hall : ∀ x ∈ held, 0 < x.size) {more : ℕ} (hmore : d.last+more ≤ d.end) :
    Laid psize (setLast (d.last+more) s) allocs ({ g with size := g.size+more }::held) := by
  have hsource := (last_in_head h hb List.mem_cons_self hpos hlast).1
  have hback := laid_back h hb hpos hlast hall
  have htake := hback.take_block (l := []) (set_blocks hb g.addr) (m := g.addr)
    (n := g.size+more) le_rfl (show g.addr+(g.size+more) ≤ d.end by omega) hsource
  rw [setLast, hb, ← hlast, Nat.add_assoc]
  exact htake

end Layout

/-! Ranges with a byte -/

section Ranges

variable {psize : ℕ} {s : Memory} {us : List Given} {g : Given}

/-- The layout of a pool whose callers have ranges; those without a byte are not laid out. -/
def Holds (psize : ℕ) (s : Memory) (us : List Given) : Prop :=
  Keeps psize s (us.filter (0 < ·.size))

theorem Holds.perm (h : Holds psize s us) {vs : List Given} (hp : us.Perm vs) :
    Holds psize s vs := Laid.perm h (List.Perm.refl _) ((hp.filter _).append_right _)

theorem holds_zero (h : g.size = 0) : Holds psize s (g::us) ↔ Holds psize s us := by
  rw [Holds, List.filter_cons_of_neg (by simp [h]), Holds]

theorem holds_pos (h : 0 < g.size) :
    Holds psize s (g::us) ↔ Keeps psize s (g::us.filter (0 < ·.size)) := by
  rw [Holds, List.filter_cons_of_pos (by simpa using h)]

theorem Holds.tail (h : Holds psize s (g::us)) : Holds psize s us := by
  refine Laid.sub h (List.Sublist.append_right ?_ _)
  exact List.Sublist.filter _ (List.sublist_cons_self g us)

theorem holds_cons (h : Keeps psize s (g::us.filter (0 < ·.size))) : Holds psize s (g::us) := by
  rcases Nat.eq_zero_or_pos g.size with hz|hpos
  · exact (holds_zero hz).mpr (Laid.sub h (List.sublist_cons_self g _))
  · exact (holds_pos hpos).mpr h

theorem used_pos : ∀ x ∈ us.filter (0 < ·.size)++kept s.pool, 0 < x.size := by
  intro x hx
  rcases List.mem_append.mp hx with hx|hx
  · simpa using (List.mem_filter.mp hx).2
  rw [kept] at hx
  rcases List.mem_append.mp hx with hx|hx
  · obtain ⟨_,-,rfl⟩ := List.mem_map.mp hx
    exact (by decide : 0 < sizeofChain)
  · obtain ⟨_,-,rfl⟩ := List.mem_map.mp hx
    exact (by decide : 0 < sizeofPoolLarge)

theorem Holds.blocks (h : Holds psize s us) : ∃ d rest, s.pool.blocks = d::rest ∧
    d.last ≤ d.end ∧ d.end < 2^64 := by
  obtain ⟨d,rest,hb,-⟩ := Laid.head h
  obtain ⟨hle,-,hlt⟩ := Laid.block_bounds h (show d ∈ s.pool.blocks by simp [hb])
  exact ⟨d,rest,hb,hle,hlt⟩

theorem set_same {d : Block} {rest : List Block} (hb : s.pool.blocks = d::rest) :
    setLast d.last s = s := by
  rw [setLast, hb, List.modifyHead_cons, ← hb]

theorem Holds.back (h : Holds psize s (g::us)) (hlast : g.addr+g.size = poolLast s.pool) :
    Holds psize (setLast g.addr s) us := by
  obtain ⟨d,rest,hb,-⟩ := h.blocks
  rw [pool_last hb] at hlast
  rcases Nat.eq_zero_or_pos g.size with hz|hpos
  · rw [show g.addr = d.last by omega, set_same hb]
    exact h.tail
  · exact laid_back ((holds_pos hpos).mp h) hb hpos hlast used_pos

theorem Holds.longer (h : Holds psize s (g::us)) (hlast : g.addr+g.size = poolLast s.pool)
    {m : ℕ} (hmore : poolLast s.pool+m ≤ poolEnd s.pool) (hz : g.size = 0 → m = 0) :
    Holds psize (setLast (poolLast s.pool+m) s) ({ g with size := g.size+m }::us) := by
  obtain ⟨d,rest,hb,-⟩ := h.blocks
  rw [pool_last hb] at hlast hmore ⊢
  rw [pool_end hb] at hmore
  rcases Nat.eq_zero_or_pos g.size with hzero|hpos
  · have hzm := hz hzero
    rw [hzm, Nat.add_zero, set_same hb]
    exact h
  · refine (holds_pos (show 0 < g.size+m by omega)).mpr ?_
    exact laid_longer ((holds_pos hpos).mp h) hb hpos hlast used_pos hmore

theorem holds_palloc (os : Allocator) (h : Holds psize s us) (size : ℕ) :
    ∃ r, ngxPalloc os size s = some r ∧ ((r.1 = 0 ∧ Holds psize r.2 us) ∨
      (r.1 ≠ 0 ∧ r.1+size < 2^64 ∧
        Holds psize r.2 (⟨r.1,size,sourceOf s.pool size⟩::us))) := by
  obtain ⟨r,hr,hg⟩ := palloc_gives os h size
  refine ⟨r,hr,hg.imp id fun ⟨h0,hk⟩ => ⟨h0,?_,holds_cons hk⟩⟩
  exact laid_bound hk List.mem_cons_self

theorem Holds.apart (h : Holds psize s (g::us)) {x : Given} (hx : x ∈ us) {p : ℕ}
    (hl : g.addr ≤ p) (hr : p < g.addr+g.size) : p < x.addr ∨ x.addr+x.size ≤ p := by
  by_contra hin
  have hpos : 0 < x.size := by omega
  have hxm : x ∈ us.filter (0 < ·.size)++kept s.pool :=
    List.mem_append_left _ (List.mem_filter.mpr ⟨hx,by simpa using hpos⟩)
  have hap := (List.pairwise_cons.mp ((holds_pos (by omega)).mp h).apart).1 x hxm
  unfold GivenApart Apart at hap
  omega

end Ranges

/-! Room for more elements -/

section Growth

variable {psize : ℕ} {s : Memory} {cells : ℕ → UInt8} {rest : List Given} {a : NgxArray}

/-- The sizes and addresses of an array are of 64 bits, and it has been created for an element. -/
structure Sized (a : NgxArray) : Prop where
  elts : a.elts ≠ 0
  bound : a.elts+a.size*a.nalloc < 2^64
  nalloc : 1 ≤ a.nalloc ∧ a.nalloc < 2^64
  size : a.size < 2^64
  addr : a.addr+sizeofArray < 2^64

theorem last_iff (hs : Sized a) (pool : Pool.Pool) :
    Last a pool ↔ a.elts+a.size*a.nalloc = poolLast pool := by
  have hb := hs.bound
  rw [Last, Nat.mod_eq_of_lt (show a.size*a.nalloc < 2^64 by omega), Nat.mod_eq_of_lt hb]

/-- What growing by `n` elements leaves when the first `copied` bytes are kept -/
structure Room (psize : ℕ) (cells : ℕ → UInt8) (rest : List Given) (a : NgxArray) (n copied : ℕ)
    (r : Option NgxArray × Memory × (ℕ → UInt8)) : Prop where
  failed : r.1 = none → r.2.2 = cells ∧ Holds psize r.2.1 (ranges a++rest)
  grown : ∀ b, r.1 = some b → Sized b ∧ b.size = a.size ∧ b.nelts = a.nelts ∧
    a.nelts+n ≤ b.nalloc ∧ Holds psize r.2.1 (ranges b++rest) ∧
    readRange r.2.2 b.elts (b.elts+copied) = readRange cells a.elts (a.elts+copied) ∧
    ∀ p, p < b.elts ∨ b.elts+b.size*b.nalloc ≤ p → r.2.2 p = cells p

theorem ranges_swap (a : NgxArray) (rest : List Given) : (ranges a++rest).Perm
    (⟨a.elts,a.size*a.nalloc,a.source⟩::⟨a.addr,sizeofArray,a.head⟩::rest) :=
  List.Perm.swap _ _ _

theorem write_apart (mem : ℕ → UInt8) {p q : ℕ} (xs : List UInt8)
    (h : q < p ∨ p+xs.length ≤ q) : writeRange mem p xs q = mem q := by
  unfold writeRange
  split
  · exact List.getD_eq_default _ _ (by omega)
  · rfl

theorem grow_room (os : Allocator) (cells : ℕ → UInt8) (hs : Sized a)
    (h : Holds psize s (ranges a++rest)) {n nalloc m b copied : ℕ}
    (hfit : GrowFits a n nalloc s.pool) (hmore : m = n*a.size%2^64)
    (hbytes : b = nalloc*a.size%2^64) (hcopied : copied ≤ a.size*a.nalloc)
    (hroom : a.nelts+n ≤ nalloc) (hnalloc : a.nalloc ≤ nalloc) (hfull : a.nelts ≤ a.nalloc) :
    ∃ r, grow os a n m (nalloc%2^64) b copied s cells = some r ∧
      Room psize cells rest a n copied r := by
  obtain ⟨d,blocks,hb,hle,hlt⟩ := h.blocks
  have hlast := last_iff hs s.pool
  have hend : poolEnd s.pool < 2^64 := by rwa [pool_end hb]
  have hnow := h.perm (ranges_swap a rest)
  have hplus : (poolLast s.pool+m)%2^64 = (poolLast s.pool+n*a.size)%2^64 := by
    rw [hmore, Nat.add_mod_mod]
  unfold GrowFits at hfit
  unfold grow
  rw [hplus]
  by_cases hin : Last a s.pool ∧ poolLast s.pool+n*a.size ≤ poolEnd s.pool
  · rw [if_pos hin] at hfit
    rw [Nat.mod_eq_of_lt (show poolLast s.pool+n*a.size < 2^64 by omega), if_pos hin,
      Nat.mod_eq_of_lt hfit]
    have hadj := hlast.mp hin.1
    have hlonger := hnow.longer (m := n*a.size) hadj hin.2 fun hz => by
      rcases Nat.mul_eq_zero.mp hz with hz|hz
      · rw [hz, Nat.mul_zero]
      · have := hs.nalloc.1
        omega
    have hsum : a.size*(a.nalloc+n) = a.size*a.nalloc+n*a.size := by
      rw [Nat.mul_add, Nat.mul_comm a.size n]
    refine ⟨_,rfl,⟨fun hnone => absurd hnone (Option.some_ne_none _),fun c hbs => ?_⟩⟩
    obtain rfl := Option.some.inj hbs
    refine ⟨⟨hs.elts,?_,⟨?_,hfit⟩,hs.size,hs.addr⟩,rfl,rfl,?_,?_,rfl,fun _ _ => rfl⟩
    · show a.elts+a.size*(a.nalloc+n) < 2^64
      omega
    · exact hs.nalloc.1.trans (Nat.le_add_right _ _)
    · show a.nelts+n ≤ a.nalloc+n
      omega
    · refine Holds.perm ?_ (ranges_swap _ rest).symm
      show Holds psize _ (⟨a.elts,a.size*(a.nalloc+n),a.source⟩::_)
      rw [hsum]
      exact hlonger
  rw [if_neg hin] at hfit
  obtain ⟨hnowrap,hn,hbig⟩ := hfit
  have hno : ¬(Last a s.pool ∧ (poolLast s.pool+n*a.size)%2^64 ≤ poolEnd s.pool) := by
    rintro ⟨hl,hfits⟩
    rw [Nat.mod_eq_of_lt (hnowrap hl)] at hfits
    exact hin ⟨hl,hfits⟩
  have hbytes' : b = a.size*nalloc := by
    rw [hbytes, Nat.mod_eq_of_lt hbig, Nat.mul_comm]
  have hcopy : copied ≤ b := by
    rw [hbytes']
    exact hcopied.trans (Nat.mul_le_mul_left _ hnalloc)
  rw [if_neg hno, Nat.mod_eq_of_lt hn]
  obtain ⟨r,hr,hg⟩ := holds_palloc os h b
  rw [hr]
  rcases hg with ⟨h0,hk⟩|⟨h0,hbound,hk⟩
  · refine ⟨_,rfl,?_⟩
    dsimp only
    rw [if_pos h0]
    exact ⟨fun _ => ⟨rfl,hk⟩,fun c hbs => absurd hbs (Option.some_ne_none c).symm⟩
  refine ⟨_,rfl,?_⟩
  dsimp only
  rw [if_neg h0]
  refine ⟨fun hnone => absurd hnone (Option.some_ne_none _),fun c hbs => ?_⟩
  obtain rfl := Option.some.inj hbs
  have hlen : (readRange cells a.elts (a.elts+copied)).length = copied := by
    rw [read_length, Nat.add_sub_cancel_left]
  refine ⟨⟨h0,?_,⟨?_,hn⟩,hs.size,hs.addr⟩,rfl,rfl,hroom,?_,?_,fun p hp => ?_⟩
  · show r.1+a.size*nalloc < 2^64
    omega
  · exact hs.nalloc.1.trans hnalloc
  · refine Holds.perm ?_ (ranges_swap _ rest).symm
    have hdrop := (hk.perm ((ranges_swap a rest).cons _ |>.trans (List.Perm.swap _ _ _))).tail
    rw [hbytes'] at hdrop ⊢
    exact hdrop
  · have hread := read_write cells r.1 (readRange cells a.elts (a.elts+copied))
    rw [hlen] at hread
    exact hread
  · refine write_apart cells _ ?_
    have hp' : p < r.1 ∨ r.1+a.size*nalloc ≤ p := hp
    omega

end Growth

/-! The elements -/

section Elements

variable {psize : ℕ} {s : Memory} {cells cells' : ℕ → UInt8} {rest : List Given} {a : NgxArray}
  {e : Entry} {n : ℕ}

theorem element_inside (a : NgxArray) {k m : ℕ} (h : k+m ≤ a.nalloc) :
    a.elts+k*a.size+m*a.size ≤ a.elts+a.size*a.nalloc := by
  have hmul := Nat.mul_le_mul_right a.size h
  rw [Nat.add_mul, Nat.mul_comm a.nalloc] at hmul
  omega

theorem kept_frame (h : Kept cells e) (hsame : ∀ p, e.array.elts ≤ p →
    p < e.array.elts+e.array.size*e.array.nalloc → cells' p = cells p) : Kept cells' e := by
  refine ⟨h.nelts,h.nalloc,fun k v hv => ?_⟩
  rw [← h.values k v hv]
  obtain ⟨hk,-⟩ := List.getElem?_eq_some_iff.mp hv
  have hin := element_inside e.array (k := k) (m := 1) (by have := h.nelts; have := h.nalloc; omega)
  rw [Nat.one_mul] at hin
  exact read_congr cells cells' fun p hl hr => hsame p (by omega) (by omega)

theorem kept_grown (h : Kept cells e) {b : NgxArray} (hsize : b.size = e.array.size)
    (hnelts : b.nelts = e.array.nelts) (hroom : e.array.nelts+n ≤ b.nalloc)
    (hread : readRange cells' b.elts (b.elts+e.array.nelts*e.array.size) =
      readRange cells e.array.elts (e.array.elts+e.array.nelts*e.array.size)) :
    Kept cells' ⟨{ b with nelts := b.nelts+n },e.values++List.replicate n none⟩ := by
  refine ⟨?_,?_,fun k v hv => ?_⟩
  · rw [List.length_append, List.length_replicate, h.nelts, hnelts]
  · show b.nelts+n ≤ b.nalloc
    omega
  · have hlt : k < e.values.length := by
      by_contra hge
      rw [List.getElem?_append_right (by omega), List.getElem?_replicate] at hv
      split at hv
      · cases Option.some.inj hv
      · cases hv
    rw [List.getElem?_append_left hlt] at hv
    have hmul := Nat.mul_le_mul_right e.array.size (show k+1 ≤ e.array.nelts by
      have := h.nelts
      omega)
    rw [Nat.add_mul, Nat.one_mul] at hmul
    rw [← h.values k v hv]
    show readRange cells' (b.elts+k*b.size) (b.elts+k*b.size+b.size) = _
    rw [hsize]
    refine read_eq_iff.mpr fun i hi => ?_
    have hcell := read_eq_iff.mp hread (k*e.array.size+i) (by omega)
    rw [← Nat.add_assoc, ← Nat.add_assoc] at hcell
    exact hcell

theorem kept_set (h : Kept cells e) {k : ℕ} (hk : k < e.array.nelts) {v : List UInt8}
    (hv : v.length = e.array.size) : Kept (writeRange cells (e.array.elts+k*e.array.size) v)
      ⟨e.array,e.values.set k (some v)⟩ := by
  refine ⟨by rw [List.length_set, h.nelts],h.nalloc,fun j w hw => ?_⟩
  dsimp only at hw ⊢
  by_cases hjk : k = j
  · subst hjk
    rw [List.getElem?_set_self (by rw [h.nelts]; exact hk)] at hw
    obtain rfl := Option.some.inj (Option.some.inj hw)
    rw [← hv]
    exact read_write cells _ v
  rw [List.getElem?_set_ne hjk] at hw
  rw [← h.values j w hw]
  refine read_congr _ _ fun p hl hr => write_apart _ _ ?_
  rcases Nat.lt_or_gt_of_ne hjk with hlt|hlt
  · have hmul := Nat.mul_le_mul_right e.array.size (show k+1 ≤ j from hlt)
    rw [Nat.add_mul, Nat.one_mul] at hmul
    omega
  have hmul := Nat.mul_le_mul_right e.array.size (show j+1 ≤ k from hlt)
  rw [Nat.add_mul, Nat.one_mul] at hmul
  omega

theorem room_same (hs : Sized a) (h : Holds psize s (ranges a++rest)) (hroom : a.nelts+n ≤ a.nalloc)
    (copied : ℕ) : Room psize cells rest a n copied (some a, s, cells) := by
  refine ⟨fun hnone => absurd hnone (Option.some_ne_none _),fun b hb => ?_⟩
  obtain rfl := Option.some.inj hb
  exact ⟨hs,rfl,rfl,hroom,h,rfl,fun _ _ => rfl⟩

theorem push_room (os : Allocator) (cells : ℕ → UInt8) (hs : Sized a)
    (h : Holds psize s (ranges a++rest))
    (hle : a.nelts ≤ a.nalloc)
    (hfit : a.nelts = a.nalloc → GrowFits a 1 (2*a.nalloc) s.pool) :
    ∃ r, ngxArrayPush os a s cells = some (pushed a 1 r) ∧
      Room psize cells rest a 1 (a.nelts*a.size) r := by
  unfold ngxArrayPush
  by_cases hfull : a.nelts = a.nalloc
  · have hbytes : a.size*a.nalloc%2^64 = a.size*a.nalloc := Nat.mod_eq_of_lt (by
      have := hs.bound
      omega)
    have hcopied : a.size*a.nalloc = a.nelts*a.size := by rw [hfull, Nat.mul_comm]
    obtain ⟨r,hr,hroom⟩ := grow_room os cells hs h (m := a.size)
      (b := 2*(a.size*a.nalloc)%2^64) (hfit hfull)
      (by rw [Nat.one_mul, Nat.mod_eq_of_lt hs.size])
      (by rw [Nat.mul_assoc, Nat.mul_comm a.nalloc]) le_rfl
      (by have := hs.nalloc.1; omega) (by omega) hle
    rw [if_pos hfull, hbytes, Nat.mul_comm a.nalloc 2]
    dsimp only
    rw [hr]
    exact ⟨r,rfl,hcopied ▸ hroom⟩
  · rw [if_neg hfull]
    exact ⟨_,rfl,room_same hs h (by omega) _⟩

theorem push_n_room (os : Allocator) (cells : ℕ → UInt8) (hs : Sized a)
    (h : Holds psize s (ranges a++rest))
    (hle : a.nelts ≤ a.nalloc) (hn : a.nelts+n < 2^64)
    (hfit : a.nelts+n > a.nalloc → GrowFits a n (2*max n a.nalloc) s.pool) :
    ∃ r, ngxArrayPushN os a n s cells = some (pushed a n r) ∧
      Room psize cells rest a n (a.nelts*a.size) r := by
  unfold ngxArrayPushN
  dsimp only
  rw [Nat.mod_eq_of_lt hn]
  by_cases hfull : a.nelts+n > a.nalloc
  · have hmax : (if n ≥ a.nalloc then n else a.nalloc) = max n a.nalloc := by
      split <;> omega
    have hmul : a.nelts*a.size ≤ a.size*a.nalloc := by
      rw [Nat.mul_comm a.size]
      exact Nat.mul_le_mul_right _ hle
    have hcopied : a.nelts*a.size%2^64 = a.nelts*a.size := Nat.mod_eq_of_lt (by
      have := hs.bound
      omega)
    obtain ⟨r,hr,hroom⟩ := grow_room os cells hs h (m := n*a.size%2^64)
      (b := 2*max n a.nalloc%2^64*a.size%2^64) (hfit hfull) rfl
      (Nat.mod_mul_mod (2*max n a.nalloc) a.size (2^64)) hmul (by omega) (by omega) hle
    rw [if_pos hfull, hmax, hcopied, hr]
    exact ⟨r,rfl,hroom⟩
  · rw [if_neg hfull]
    exact ⟨_,rfl,room_same hs h (by omega) _⟩

theorem push_word (hs : Sized a) (hle : a.nelts ≤ a.nalloc) {pool : Pool.Pool}
    (hfit : a.nelts = a.nalloc → GrowFits a 1 (2*a.nalloc) pool) : a.nelts+1 < 2^64 := by
  have hlt := hs.nalloc
  by_contra hge
  have hgrow := hfit (by omega)
  unfold GrowFits at hgrow
  split at hgrow
  · omega
  · have := hgrow.2.1
    omega

theorem pushed_returns {r : Option NgxArray × Memory × (ℕ → UInt8)} {copied : ℕ}
    (hroom : Room psize cells rest a n copied r) (helt : (pushed a n r).elt ≠ 0)
    (hn : a.nelts+n < 2^64) : Returns a n (pushed a n r) := by
  obtain ⟨b,s',cells'⟩ := r
  cases b with
  | none => exact absurd rfl helt
  | some b =>
    obtain ⟨hs,hsize,hnelts,hle,-⟩ := hroom.grown b rfl
    have hin := element_inside b (k := a.nelts) (m := n) hle
    have hbound := hs.bound
    have hvalue : (b.elts+b.size*b.nelts)%2^64 = b.elts+a.nelts*b.size := by
      rw [hnelts, Nat.mul_comm b.size]
      exact Nat.mod_eq_of_lt (by omega)
    refine ⟨?_,⟨?_,hsize⟩,?_⟩
    · show (b.elts+b.size*b.nelts)%2^64 = b.elts+a.nelts*a.size
      rw [hvalue, hsize]
    · show (b.nelts+n)%2^64 = a.nelts+n
      rw [hnelts, Nat.mod_eq_of_lt hn]
    · show (b.elts+b.size*b.nelts)%2^64+n*a.size ≤ b.elts+b.nalloc*b.size
      rw [hvalue, ← hsize, Nat.mul_comm b.nalloc]
      exact hin

end Elements

/-! Calls -/

section Calls

variable {psize : ℕ} {st : State} {i : ℕ} {e : Entry}

def restOf (st : State) (i : ℕ) : List Given :=
  (st.arrays.eraseIdx i).flatMap (fun e => ranges e.array)++st.others

theorem used_split (hi : st.arrays[i]? = some e) :
    (used st).Perm (ranges e.array++restOf st i) := by
  obtain ⟨hlt,rfl⟩ := List.getElem?_eq_some_iff.mp hi
  rw [restOf, ← List.append_assoc]
  exact ((List.getElem_cons_eraseIdx_perm hlt).symm.flatMap_right _).append_right _

theorem used_set (hi : st.arrays[i]? = some e) (e' : Entry) (m : Memory) (cells : ℕ → UInt8) :
    (ranges e'.array++restOf st i).Perm (used ⟨m,cells,st.arrays.set i e',st.others⟩) := by
  obtain ⟨hlt,-⟩ := List.getElem?_eq_some_iff.mp hi
  rw [restOf, ← List.append_assoc]
  show ((e'::st.arrays.eraseIdx i).flatMap (fun e => ranges e.array)++st.others).Perm
    ((st.arrays.set i e').flatMap (fun e => ranges e.array)++st.others)
  exact ((List.set_perm_cons_eraseIdx hlt e').symm.flatMap_right _).append_right _

structure Inv (psize : ℕ) (st : State) : Prop where
  holds : Holds psize st.memory (used st)
  kept : ∀ e ∈ st.arrays, Kept st.cells e
  sized : ∀ e ∈ st.arrays, Sized e.array

theorem Inv.rest (h : Inv psize st) (hi : st.arrays[i]? = some e) :
    Holds psize st.memory (ranges e.array++restOf st i) := h.holds.perm (used_split hi)

theorem Inv.entry (h : Inv psize st) (hi : st.arrays[i]? = some e) :
    Kept st.cells e ∧ Sized e.array :=
  ⟨h.kept e (List.mem_of_getElem? hi),h.sized e (List.mem_of_getElem? hi)⟩

theorem elements_rest {x : Entry} (hx : x ∈ st.arrays.eraseIdx i) :
    (⟨x.array.elts,x.array.size*x.array.nalloc,x.array.source⟩ : Given) ∈ restOf st i :=
  List.mem_append_left _ (List.mem_flatMap.mpr ⟨x,hx,by simp [ranges]⟩)

theorem inv_set (h : Inv psize st) (hi : st.arrays[i]? = some e) {e' : Entry} {m : Memory}
    {cells : ℕ → UInt8} (hholds : Holds psize m (ranges e'.array++restOf st i))
    (hkept : Kept cells e') (hsized : Sized e'.array)
    (hcells : ∀ p, p < e'.array.elts ∨ e'.array.elts+e'.array.size*e'.array.nalloc ≤ p →
      cells p = st.cells p) : Inv psize ⟨m,cells,st.arrays.set i e',st.others⟩ := by
  obtain ⟨hlt,-⟩ := List.getElem?_eq_some_iff.mp hi
  have hmem : ∀ x ∈ st.arrays.set i e', x = e' ∨ x ∈ st.arrays.eraseIdx i := fun x hx =>
    List.mem_cons.mp ((List.set_perm_cons_eraseIdx hlt e').mem_iff.mp hx)
  refine ⟨hholds.perm (used_set hi e' m cells),fun x hx => ?_,fun x hx => ?_⟩
  · rcases hmem x hx with rfl|hx
    · exact hkept
    refine kept_frame (h.kept x (List.mem_of_mem_eraseIdx hx)) fun p hl hr => hcells p ?_
    by_contra hin
    have hap := (hholds.perm (ranges_swap _ _)).apart
      (List.mem_cons_of_mem _ (elements_rest hx)) (p := p) (by dsimp only; omega)
      (by dsimp only; omega)
    dsimp only at hap
    omega
  · rcases hmem x hx with rfl|hx
    · exact hsized
    · exact h.sized x (List.mem_of_mem_eraseIdx hx)

theorem elements_used {x : Entry} (hx : x ∈ st.arrays) :
    (⟨x.array.elts,x.array.size*x.array.nalloc,x.array.source⟩ : Given) ∈ used st :=
  List.mem_append_left _ (List.mem_flatMap.mpr ⟨x,hx,by simp [ranges]⟩)

theorem Inv.others_apart (h : Inv psize st) {x : Entry} (hx : x ∈ st.arrays) {g : Given}
    (hg : g ∈ st.others) {p : ℕ} (hl : x.array.elts ≤ p)
    (hr : p < x.array.elts+x.array.size*x.array.nalloc) : p < g.addr ∨ g.addr+g.size ≤ p := by
  obtain ⟨i,hi⟩ := List.mem_iff_getElem?.mp hx
  have hrest : g ∈ restOf st i := List.mem_append_right _ hg
  exact ((h.rest hi).perm (ranges_swap _ _)).apart (List.mem_cons_of_mem _ hrest) hl hr

theorem inv_cells (h : Inv psize st) {m : Memory} {cells : ℕ → UInt8} {others : List Given}
    (hholds : Holds psize m (used ⟨m,cells,st.arrays,others⟩))
    (hcells : ∀ e ∈ st.arrays, ∀ p, e.array.elts ≤ p →
      p < e.array.elts+e.array.size*e.array.nalloc → cells p = st.cells p) :
    Inv psize ⟨m,cells,st.arrays,others⟩ :=
  ⟨hholds,fun e he => kept_frame (h.kept e he) (hcells e he),h.sized⟩

theorem push_inv {n : ℕ} (h : Inv psize st) (hi : st.arrays[i]? = some e)
    {r : Option NgxArray × Memory × (ℕ → UInt8)}
    (hroom : Room psize st.cells (restOf st i) e.array n (e.array.nelts*e.array.size) r)
    (hn : e.array.nelts+n < 2^64) : Inv psize (afterPush st i n e (pushed e.array n r)) := by
  obtain ⟨hkept,hsized⟩ := h.entry hi
  obtain ⟨b,m,cells⟩ := r
  cases b with
  | none =>
    obtain ⟨hcells,hholds⟩ := hroom.failed rfl
    exact inv_cells h (hholds.perm (used_split hi).symm) fun _ _ p _ _ => congrFun hcells p
  | some b =>
    obtain ⟨hs,hsize,hnelts,hle,hholds,hread,hsame⟩ := hroom.grown b rfl
    have hbound := hs.bound
    have hpos := hs.elts
    have hin := element_inside b (k := b.nelts) (m := 0) (by omega)
    rw [Nat.zero_mul, Nat.add_zero, Nat.mul_comm b.nelts] at hin
    have helt : (pushed e.array n (some b, m, cells)).elt ≠ 0 := by
      show (b.elts+b.size*b.nelts)%2^64 ≠ 0
      rw [Nat.mod_eq_of_lt (by omega)]
      omega
    have harray : (pushed e.array n (some b, m, cells)).array = { b with nelts := b.nelts+n } := by
      show ({ b with nelts := (b.nelts+n)%2^64 } : NgxArray) = _
      rw [Nat.mod_eq_of_lt (by omega)]
    unfold afterPush
    rw [if_neg helt, harray]
    exact inv_set h hi hholds (kept_grown hkept hsize hnelts hle hread)
      ⟨hs.elts,hs.bound,hs.nalloc,hs.size,hs.addr⟩ hsame

theorem destroy_holds {s : Memory} {a : NgxArray} {rest : List Given} (hs : Sized a)
    (h : Holds psize s (ranges a++rest)) : Holds psize (ngxArrayDestroy a s) rest := by
  have hbound := hs.bound
  have hbytes : a.size*a.nalloc%2^64 = a.size*a.nalloc := Nat.mod_eq_of_lt (by omega)
  have hnow := h.perm (ranges_swap a rest)
  have hfirst : Holds psize (if (a.elts+a.size*a.nalloc)%2^64 = poolLast s.pool then
      setLast ((poolLast s.pool+2^64-a.size*a.nalloc)%2^64) s else s)
      (⟨a.addr,sizeofArray,a.head⟩::rest) := by
    rw [Nat.mod_eq_of_lt hbound]
    split
    · rename_i hlast
      rw [← hlast, show (a.elts+a.size*a.nalloc+2^64-a.size*a.nalloc)%2^64 = a.elts by omega]
      exact hnow.back hlast
    · exact hnow.tail
  unfold ngxArrayDestroy
  dsimp only
  rw [hbytes, Nat.mod_eq_of_lt hs.addr]
  generalize (if (a.elts+a.size*a.nalloc)%2^64 = poolLast s.pool then
    setLast ((poolLast s.pool+2^64-a.size*a.nalloc)%2^64) s else s) = s' at hfirst ⊢
  split
  · rename_i hlast
    exact hfirst.back hlast
  · exact hfirst.tail

theorem create_inv (os : Allocator) (h : Inv psize st) {n size : ℕ} (hn : 1 ≤ n ∧ n < 2^64)
    (hsize : size < 2^64) (hfit : n*size < 2^64) :
    ∃ st', step os st (.create n size) = some st' ∧ Inv psize st' := by
  simp only [step, ngxArrayCreate]
  rw [Nat.mod_eq_of_lt hfit]
  obtain ⟨r,hr,hg⟩ := holds_palloc os h.holds sizeofArray
  rw [hr, Option.bind_some]
  rcases hg with ⟨h0,hk⟩|⟨h0,hbound,hk⟩
  · rw [if_pos h0]
    exact ⟨_,rfl,inv_cells h hk fun _ _ _ _ _ => rfl⟩
  rw [if_neg h0]
  obtain ⟨r',hr',hg'⟩ := holds_palloc os hk (n*size)
  rw [hr']
  rcases hg' with ⟨h0',hk'⟩|⟨h0',hbound',hk'⟩
  · refine ⟨_,rfl,?_⟩
    dsimp only
    rw [if_pos h0']
    exact inv_cells h hk'.tail fun _ _ _ _ _ => rfl
  refine ⟨_,rfl,?_⟩
  dsimp only
  rw [if_neg h0']
  dsimp only
  have helements : Holds psize r'.2 (⟨r'.1,size*n,sourceOf r.2.pool (n*size)⟩::
      ⟨r.1,sizeofArray,sourceOf st.memory.pool sizeofArray⟩::used st) := by
    rw [Nat.mul_comm size]
    exact hk'
  refine ⟨helements.perm (List.Perm.swap _ _ _),fun x hx => ?_,fun x hx => ?_⟩
  · rcases List.mem_cons.mp hx with rfl|hx
    · exact ⟨rfl,Nat.zero_le _,fun k v hv => by cases hv⟩
    · exact h.kept x hx
  · rcases List.mem_cons.mp hx with rfl|hx
    · refine ⟨h0',?_,hn,hsize,hbound⟩
      show r'.1+size*n < 2^64
      rw [Nat.mul_comm]
      exact hbound'
    · exact h.sized x hx

/-! Other calls of the pool -/

variable {own others : List Given} {s : Memory}

theorem returned_holds {size : ℕ} {source : Source} {r : ℕ × Memory}
    (h : Gives psize ((own++others).filter (0 < ·.size)) size source r) :
    Holds psize r.2 (own++(returned ⟨s,others⟩ size source r).live) := by
  unfold returned
  rcases h with ⟨h0,h⟩|⟨h0,h⟩
  · rw [if_pos h0]
    exact h
  · rw [if_neg h0]
    exact (holds_cons h).perm List.perm_middle.symm

theorem pfree_holds (h : Holds psize s (own++others)) {p : ℕ} (hown : ∀ g ∈ own, g.addr ≠ p) :
    ∃ r, ngxPfree p s = some r ∧ Holds psize r.2 (own++afterPfree p r.1 others) := by
  obtain ⟨⟨ok,m⟩,hr,hk⟩ := pfree_keeps h p
  refine ⟨_,hr,?_⟩
  unfold afterPfree at hk ⊢
  cases ok with
  | false => exact hk
  | true =>
    have hkeep : own.filter (fun g => ¬(g.source = .large ∧ g.addr = p)) = own :=
      List.filter_eq_self.mpr fun g hg => by simpa using Or.inr (hown g hg)
    rw [if_pos rfl] at hk ⊢
    rw [List.filter_comm, List.filter_append, hkeep] at hk
    exact hk

theorem freeChain_holds (h : Holds psize s (own++others)) {cl : ℕ}
    (hcl : ⟨cl,sizeofChain,.link⟩ ∈ others) :
    Holds psize (ngxFreeChain cl s) (own++others.erase ⟨cl,sizeofChain,.link⟩) := by
  have hperm : (own++others).Perm (⟨cl,sizeofChain,.link⟩::
      (own++others.erase ⟨cl,sizeofChain,.link⟩)) :=
    ((List.perm_cons_erase hcl).append_left own).trans List.perm_middle
  have hfirst := (holds_pos (show 0 < sizeofChain by decide)).mp (h.perm hperm)
  have hfree := freeChain_keeps hfirst List.mem_cons_self
  rw [List.erase_cons_head] at hfree
  exact hfree

theorem pool_holds (os : Allocator) (h : Holds psize s (own++others)) {op : Pool.Op}
    (ha : Pool.Allowed ⟨s,others⟩ op) (hreset : op ≠ .resetPool)
    (hfree : ∀ p, op = .pfree p → ∀ g ∈ own, g.addr ≠ p) :
    ∃ ps, Pool.step os ⟨s,others⟩ op = some ps ∧ Holds psize ps.memory (own++ps.live) := by
  cases op with
  | palloc size =>
    obtain ⟨r,hr,hg⟩ := palloc_gives os h size
    exact ⟨_,by simp only [Pool.step, hr]; rfl,returned_holds hg⟩
  | pnalloc size =>
    obtain ⟨r,hr,hg⟩ := pnalloc_gives os h size
    exact ⟨_,by simp only [Pool.step, hr]; rfl,returned_holds hg⟩
  | pcalloc size =>
    obtain ⟨r,hr,hg⟩ := palloc_gives os h size
    exact ⟨_,by simp only [Pool.step, ngxPcalloc, hr]; rfl,returned_holds hg⟩
  | pmemalign size alignment =>
    obtain ⟨r,hr,hg⟩ := pmemalign_gives os h size alignment
    exact ⟨_,by simp only [Pool.step, hr]; rfl,returned_holds hg⟩
  | pfree p =>
    obtain ⟨r,hr,hk⟩ := pfree_holds h (hfree p rfl)
    exact ⟨_,by simp only [Pool.step, hr]; rfl,hk⟩
  | allocChainLink =>
    obtain ⟨r,hr,hg⟩ := allocChainLink_gives os h
    exact ⟨_,by simp only [Pool.step, hr]; rfl,returned_holds hg⟩
  | freeChain cl => exact ⟨_,rfl,freeChain_holds h ha⟩
  | resetPool => exact absurd rfl hreset

theorem clear_elements (os : Allocator) (h : Inv psize st) (op : Pool.Op) {x : Entry}
    (hx : x ∈ st.arrays) {p : ℕ} (hl : x.array.elts ≤ p)
    (hr : p < x.array.elts+x.array.size*x.array.nalloc) : clear os st op p = st.cells p := by
  cases op with
  | pcalloc size =>
    obtain ⟨r,hcall,hg⟩ := holds_palloc os h.holds size
    simp only [clear, ngxPcalloc, hcall]
    split
    · rfl
    · rename_i h0
      obtain ⟨-,-,hk⟩ := hg.resolve_left fun hg => h0 hg.1
      refine write_apart _ _ ?_
      rw [List.length_replicate]
      by_contra hin
      have hap := hk.apart (elements_used hx) (p := p) (by dsimp only; omega) (by dsimp only; omega)
      dsimp only at hap
      omega
  | palloc _ => rfl
  | pnalloc _ => rfl
  | pmemalign _ _ => rfl
  | pfree _ => rfl
  | allocChainLink => rfl
  | freeChain _ => rfl
  | resetPool => rfl

end Calls

/-! Runs -/

theorem step_inv (os : Allocator) {psize : ℕ} {st : State} (op : Op) (h : Inv psize st)
    (ha : Allowed st op) (hfit : Fits st op) :
    ∃ st', PoolArray.step os st op = some st' ∧ Inv psize st' := by
  cases op with
  | create n size => exact create_inv os h ⟨ha.1,ha.2.1⟩ ha.2.2 hfit
  | push i =>
    obtain ⟨e,he⟩ : ∃ e, st.arrays[i]? = some e := ⟨_,List.getElem?_eq_getElem ha⟩
    obtain ⟨hkept,hsized⟩ := h.entry he
    obtain ⟨r,hr,hroom⟩ := push_room os st.cells hsized (h.rest he) hkept.nalloc
      (hfit e he)
    simp only [PoolArray.step, he, hr]
    exact ⟨_,rfl,push_inv h he hroom (push_word hsized hkept.nalloc (hfit e he))⟩
  | pushN i n =>
    obtain ⟨hi,-⟩ := ha
    obtain ⟨e,he⟩ : ∃ e, st.arrays[i]? = some e := ⟨_,List.getElem?_eq_getElem hi⟩
    obtain ⟨hkept,hsized⟩ := h.entry he
    obtain ⟨hn,hgrow⟩ := hfit e he
    obtain ⟨r,hr,hroom⟩ := push_n_room os st.cells hsized (h.rest he) hkept.nalloc
      hn hgrow
    simp only [PoolArray.step, he, hr]
    exact ⟨_,rfl,push_inv h he hroom hn⟩
  | destroy i =>
    obtain ⟨e,he⟩ : ∃ e, st.arrays[i]? = some e := ⟨_,List.getElem?_eq_getElem ha⟩
    simp only [PoolArray.step, he]
    refine ⟨_,rfl,destroy_holds (h.entry he).2 (h.rest he),fun x hx => ?_,fun x hx => ?_⟩
    · exact h.kept x (List.mem_of_mem_eraseIdx hx)
    · exact h.sized x (List.mem_of_mem_eraseIdx hx)
  | set i k v =>
    obtain ⟨e,he,hk,hv⟩ := ha
    obtain ⟨hkept,hsized⟩ := h.entry he
    simp only [PoolArray.step, he]
    have hrest := h.rest he
    refine ⟨_,rfl,inv_set h he hrest (kept_set hkept hk hv) hsized fun p hp => ?_⟩
    have hin := element_inside e.array (k := k) (m := 1) (by have := hkept.nalloc; omega)
    exact write_apart _ _ (by dsimp only at hp; omega)
  | pool op =>
    obtain ⟨hallowed,hreset,hfree⟩ := ha
    have hown : ∀ p, op = .pfree p →
        ∀ g ∈ st.arrays.flatMap (fun e => ranges e.array), g.addr ≠ p := by
      intro p hp g hg
      obtain ⟨e,he,hge⟩ := List.mem_flatMap.mp hg
      exact hfree p hp e he g hge
    obtain ⟨ps,hps,hk⟩ := pool_holds os h.holds hallowed hreset hown
    simp only [PoolArray.step, hps]
    exact ⟨_,rfl,inv_cells h hk fun e he p hl hr => clear_elements os h op he hl hr⟩
  | write g pos v =>
    obtain ⟨hg,hpos⟩ := ha
    refine ⟨_,rfl,inv_cells h h.holds fun e he p hl hr => write_apart _ _ ?_⟩
    have hap := h.others_apart he hg hl hr
    omega
  | scratch p c =>
    refine ⟨_,rfl,inv_cells h h.holds fun e he q hl hr => Function.update_of_ne ?_ _ _⟩
    have hap := ha _ (elements_used he)
    dsimp only at hap
    omega

theorem reaches_inv {os : Allocator} {m : Memory} {psize : ℕ} (hm : Keeps psize m []) {st : State}
    (h : Reaches os Fits m st) : Inv psize st := by
  induction h with
  | start cells =>
    exact ⟨hm,fun e he => absurd he List.not_mem_nil,fun e he => absurd he List.not_mem_nil⟩
  | step op _ ha hfit hs ih =>
    obtain ⟨st',hst,hk⟩ := step_inv os op ih ha hfit
    rw [hs] at hst
    obtain rfl := Option.some.inj hst
    exact hk

theorem inv_sound {psize : ℕ} {st : State} (h : Inv psize st) : Sound st := by
  refine ⟨h.kept,?_,fun g hg hpos => ?_⟩
  · exact (Laid.apart h.holds).sublist (List.sublist_append_left _ _)
  · have hmem : g ∈ (used st).filter (0 < ·.size)++kept st.memory.pool :=
      List.mem_append_left _ (List.mem_filter.mpr ⟨hg,by simpa using hpos⟩)
    have hp := Laid.placed h.holds g hmem
    unfold Placed at hp
    split at hp
    · obtain ⟨-,c,hc,hca,hcs⟩ := hp
      exact Or.inr ⟨c,hc,hca,hcs.ge⟩
    · obtain ⟨b,hb,hl,hr⟩ := hp
      have hle := (Laid.block_bounds h.holds hb).1
      have := start_ge st.memory.pool b
      exact Or.inl ⟨b,hb,by omega,by omega⟩

/-- In every run whose sizes are of 64 bits the elements have the values that were written, the
ranges of arrays and other calls are apart, no call frees what is not allocated, and what a push
returns lies in the array. -/
theorem arrays_sound (os : Allocator) (pagesize size : ℕ) (hp : sizeofPoolLarge < pagesize)
    (ha : ngxPoolAlignment ∣ size) (hs : sizeofPool < size) (m : Memory)
    (hm : ngxCreatePool os pagesize size hp ha hs = some m) (st : State)
    (h : Reaches os Fits m st) :
    Sound st ∧ (∀ op, Allowed st op → Fits st op → (PoolArray.step os st op).isSome) ∧
      ∀ i e, st.arrays[i]? = some e →
        (Fits st (.push i) → ∃ r, ngxArrayPush os e.array st.memory st.cells = some r ∧
          (r.elt ≠ 0 → Returns e.array 1 r)) ∧
        ∀ n, Fits st (.pushN i n) →
          ∃ r, ngxArrayPushN os e.array n st.memory st.cells = some r ∧
            (r.elt ≠ 0 → Returns e.array n r) := by
  have hinv := reaches_inv (create_keeps os pagesize size hp ha hs hm) h
  refine ⟨inv_sound hinv,fun op hop hfit => ?_,fun i e he => ⟨fun hfit => ?_,fun n hfit => ?_⟩⟩
  · obtain ⟨st',hst,-⟩ := step_inv os op hinv hop hfit
    rw [hst]
    rfl
  · obtain ⟨hkept,hsized⟩ := hinv.entry he
    obtain ⟨r,hr,hroom⟩ := push_room os st.cells hsized (hinv.rest he) hkept.nalloc
      (hfit e he)
    exact ⟨_,hr,fun helt => pushed_returns hroom helt (push_word hsized hkept.nalloc (hfit e he))⟩
  · obtain ⟨hkept,hsized⟩ := hinv.entry he
    obtain ⟨hn,hgrow⟩ := hfit e he
    obtain ⟨r,hr,hroom⟩ := push_n_room os st.cells hsized (hinv.rest he) hkept.nalloc
      hn hgrow
    exact ⟨_,hr,fun helt => pushed_returns hroom helt hn⟩

/-- An array of one element to which another is pushed in its place -/
theorem arrays_sound_two : ∃ st, Reaches smallSystem Fits smallPool st ∧
    st.arrays.map (·.array.nelts) = [2] ∧ Sound st := by
  have hone : Reaches smallSystem Fits smallPool _ :=
    .step (.create 1 8) (.start fun _ => 0) ⟨by decide,by decide,by decide⟩
      (by show 1*8 < 2^64; decide) rfl
  have hfirst := hone.step (.push 0) Nat.zero_lt_one (fun e he => by
    obtain rfl := Option.some.inj he
    exact fun h => absurd h (by decide)) rfl
  have hsecond := hfirst.step (.push 0) Nat.zero_lt_one (fun e he => by
    obtain rfl := Option.some.inj he
    exact fun _ => by
      unfold GrowFits
      decide) rfl
  exact ⟨_,hsecond,rfl,(arrays_sound smallSystem 4096 256 (by decide) (by decide) (by decide)
    smallPool smallPool_created _ hsecond).1⟩

/-- The size of as many elements as 2^61, of 8 bytes each, is taken for nothing. -/
theorem push_n_wraps : ¬∀ (os : Allocator) (pagesize size : ℕ) (hp : sizeofPoolLarge < pagesize)
    (ha : ngxPoolAlignment ∣ size) (hs : sizeofPool < size) (m : Memory),
    ngxCreatePool os pagesize size hp ha hs = some m →
      ∀ st, Reaches os (fun _ _ => True) m st → Sound st := by
  intro h
  have hone : Reaches smallSystem (fun _ _ => True) smallPool _ :=
    .step (.create 1 8) (.start fun _ => 0) ⟨by decide,by decide,by decide⟩ trivial rfl
  have hmany := hone.step (.pushN 0 (2^61)) ⟨Nat.zero_lt_one,by decide⟩ trivial rfl
  have hother := hmany.step (.pool (.palloc 16)) ⟨trivial,by decide,fun p hp => by cases hp⟩
    trivial rfl
  have hsound := h smallSystem 4096 256 (by decide) (by decide) (by decide) smallPool
    smallPool_created _ hother
  have hap : List.Pairwise GivenApart [⟨4176,40,.block⟩, ⟨4216,8*(2^61+1),.block⟩,
    ⟨4224,16,.block⟩] := hsound.apart
  have htwo := (List.pairwise_cons.mp (List.pairwise_cons.mp hap).2).1 _ List.mem_cons_self
  revert htwo
  unfold GivenApart
  decide

end Nginx.PoolArrayLaw
