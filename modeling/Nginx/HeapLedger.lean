import Mathlib.Algebra.Order.Ring.Int
import Mathlib.Data.List.Nodup
import Mathlib.Data.List.Pairwise
import Mathlib.Data.List.Perm.Lattice
import Mathlib.Data.List.Range

/-!
# A heap with a ledger

What a program asks of `malloc` and `free`: an allocation is a range apart from all that
are live, a pointer that is not live may not be freed, and the ledger keeps the number of
each allocation that has been freed. The answers of the allocator are arbitrary.
-/

set_option autoImplicit false

namespace Nginx.HeapLedger

/-- The range of `n` bytes at `a` and that of `m` bytes at `b` share no byte. -/
def Apart (a n b m : ℕ) : Prop := a+n ≤ b ∨ b+m ≤ a

instance (a n b m : ℕ) : Decidable (Apart a n b m) := inferInstanceAs (Decidable (_ ∨ _))

theorem apart_symm {a n b m : ℕ} (h : Apart a n b m) : Apart b m a n := h.symm

theorem apart_within {a n b m a' n' b' m' : ℕ} (h : Apart a n b m) (ha : a ≤ a')
    (hn : a'+n' ≤ a+n) (hb : b ≤ b') (hm : b'+m' ≤ b+m) : Apart a' n' b' m' := by
  unfold Apart at h ⊢
  omega

structure Chunk where
  addr : ℕ
  size : ℕ
  id : ℕ
  deriving DecidableEq, Repr

structure Heap where
  live : List Chunk
  count : ℕ
  freed : List ℕ
  calls : ℕ
  deriving DecidableEq, Repr

/-- The answers of the system; 0 is NULL. Each pointer differs from the others, also where
nothing is asked for. -/
structure Allocator where
  answer : Heap → ℕ → ℕ → ℕ
  fresh : ∀ h alignment size, answer h alignment size ≠ 0 →
    alignment ∣ answer h alignment size ∧ answer h alignment size+size < 2^64 ∧
      ∀ c ∈ h.live, Apart (answer h alignment size) (max size 1) c.addr (max c.size 1)

def Heap.alloc (os : Allocator) (alignment size : ℕ) (h : Heap) : ℕ × Heap :=
  let p := os.answer h alignment size
  if p = 0 then (0, { h with calls := h.calls+1 })
  else (p, ⟨⟨p,size,h.count⟩::h.live,h.count+1,h.freed,h.calls+1⟩)

/-- `none` is a pointer that is not live. -/
def Heap.free (p : ℕ) (h : Heap) : Option Heap :=
  if p = 0 then some h
  else match h.live.find? fun c => c.addr = p with
    | none => none
    | some c => some { h with live := h.live.erase c, freed := c.id::h.freed }

@[grind =] def Heap.freeAll : List ℕ → Heap → Option Heap
  | [], h => some h
  | p::ps, h => (h.free p).bind (Heap.freeAll ps)

structure Heap.Ok (h : Heap) : Prop where
  apart : h.live.Pairwise fun c d => Apart c.addr (max c.size 1) d.addr (max d.size 1)
  inRange : ∀ c ∈ h.live, c.addr ≠ 0 ∧ c.addr+c.size < 2^64
  ids : (h.live.map Chunk.id++h.freed).Perm (List.range h.count)

def emptyHeap : Heap := ⟨[],0,[],0⟩

theorem emptyHeap_ok : emptyHeap.Ok := ⟨.nil,by simp [emptyHeap],by simp [emptyHeap]⟩

theorem Heap.Ok.addr_nodup {h : Heap} (hk : h.Ok) : (h.live.map Chunk.addr).Nodup := by
  refine List.pairwise_map.mpr (hk.apart.imp fun {c d} hab he => ?_)
  unfold Apart at hab
  have hc : 1 ≤ max c.size 1 := le_max_right _ _
  have hd : 1 ≤ max d.size 1 := le_max_right _ _
  omega

theorem Heap.Ok.eq_of_addr {h : Heap} (hk : h.Ok) {c d : Chunk} (hc : c ∈ h.live)
    (hd : d ∈ h.live) (he : c.addr = d.addr) : c = d :=
  List.inj_on_of_nodup_map hk.addr_nodup hc hd he

theorem Heap.Ok.apart_of_ne {h : Heap} (hk : h.Ok) {c d : Chunk} (hc : c ∈ h.live)
    (hd : d ∈ h.live) (hne : c.addr ≠ d.addr) :
    Apart c.addr (max c.size 1) d.addr (max d.size 1) := by
  have : Std.Symm fun c d : Chunk => Apart c.addr (max c.size 1) d.addr (max d.size 1) :=
    ⟨fun _ _ h => apart_symm h⟩
  exact hk.apart.forall hc hd fun he => hne (congrArg Chunk.addr he)

theorem Heap.Ok.freed_count {h : Heap} (hk : h.Ok) (n : ℕ) (hn : n < h.count) :
    h.freed.count n = if n ∈ h.live.map Chunk.id then 0 else 1 := by
  have hc := hk.ids.count_eq n
  have hnd : (h.live.map Chunk.id++h.freed).Nodup := hk.ids.nodup_iff.mpr List.nodup_range
  rw [List.count_append, List.count_eq_one_of_mem List.nodup_range (List.mem_range.mpr hn)]
    at hc
  split
  · rename_i hm
    have := List.count_pos_iff.mpr hm
    omega
  · rename_i hm
    rw [List.count_eq_zero_of_not_mem hm] at hc
    omega

inductive Allocated (h h' : Heap) (alignment size p : ℕ) : Prop where
  | failed : p = 0 → h'.live = h.live → Allocated h h' alignment size p
  | given (id : ℕ) : p ≠ 0 → alignment ∣ p → p+size < 2^64 →
      h'.live = ⟨p,size,id⟩::h.live →
      (∀ c ∈ h.live, Apart p (max size 1) c.addr (max c.size 1)) →
      Allocated h h' alignment size p

theorem alloc_spec (os : Allocator) {h : Heap} (hk : h.Ok) (alignment size : ℕ) :
    (h.alloc os alignment size).2.Ok ∧
      Allocated h (h.alloc os alignment size).2 alignment size
        (h.alloc os alignment size).1 := by
  have hf := os.fresh h alignment size
  unfold Heap.alloc
  by_cases h0 : os.answer h alignment size = 0
  · simp only [h0, if_true]
    exact ⟨⟨hk.apart,hk.inRange,hk.ids⟩,.failed rfl rfl⟩
  obtain ⟨h1,h2,h3⟩ := hf h0
  simp only [if_neg h0]
  refine ⟨⟨List.pairwise_cons.mpr ⟨h3,hk.apart⟩,fun c hc => ?_,?_⟩,
    .given h.count h0 h1 h2 rfl h3⟩
  · rcases List.mem_cons.mp hc with rfl | hc
    · exact ⟨h0,h2⟩
    · exact hk.inRange c hc
  · rw [List.range_succ, List.map_cons, List.cons_append]
    exact (List.Perm.cons _ hk.ids).trans (List.perm_append_singleton _ _).symm

theorem free_spec {h : Heap} (hk : h.Ok) {c : Chunk} (hc : c ∈ h.live) :
    ∃ h', h.free c.addr = some h' ∧ h'.Ok ∧ h'.count = h.count ∧
      ∀ d, d ∈ h'.live ↔ d ∈ h.live ∧ d.addr ≠ c.addr := by
  have h0 := (hk.inRange c hc).1
  have hfind : h.live.find? (fun d => d.addr = c.addr) = some c := by
    cases hf : h.live.find? (fun d => d.addr = c.addr) with
    | none =>
      have := List.find?_eq_none.mp hf c hc
      simp at this
    | some d =>
      have hd := List.mem_of_find?_eq_some hf
      have he : d.addr = c.addr := by simpa using List.find?_some hf
      rw [hk.eq_of_addr hd hc he]
  have hperm := List.perm_cons_erase hc
  have hnd : h.live.Nodup := hk.addr_nodup.of_map
  refine ⟨{ h with live := h.live.erase c, freed := c.id::h.freed },
    by rw [Heap.free, if_neg h0, hfind],?_,rfl,fun d => ?_⟩
  · refine ⟨hk.apart.sublist List.erase_sublist,
      fun d hd => hk.inRange d (List.mem_of_mem_erase hd),?_⟩
    refine List.Perm.trans ?_ hk.ids
    refine List.Perm.trans ?_ ((hperm.map Chunk.id).symm.append_right h.freed)
    exact List.perm_middle
  · simp only [hnd.mem_erase_iff]
    constructor
    · rintro ⟨hne,hd⟩
      exact ⟨hd,fun he => hne (hk.eq_of_addr hd hc he)⟩
    · rintro ⟨hd,hne⟩
      exact ⟨fun he => hne (congrArg Chunk.addr he),hd⟩

theorem freeAll_spec (ps : List ℕ) {h : Heap} (hk : h.Ok) (hnd : (ps.filter (· ≠ 0)).Nodup)
    (hp : ∀ p ∈ ps, p ≠ 0 → ∃ c ∈ h.live, c.addr = p) :
    ∃ h', h.freeAll ps = some h' ∧ h'.Ok ∧ h'.count = h.count ∧
      ∀ d, d ∈ h'.live ↔ d ∈ h.live ∧ d.addr ∉ ps := by
  induction ps generalizing h with
  | nil => exact ⟨h,rfl,hk,rfl,by simp⟩
  | cons p ps ih =>
    by_cases h0 : p = 0
    · subst h0
      obtain ⟨h',h1,h2,h3,h4⟩ := ih hk (by simpa using hnd)
        fun q hq => hp q (List.mem_cons_of_mem _ hq)
      refine ⟨h',by simpa [Heap.freeAll, Heap.free] using h1,h2,h3,fun d => ?_⟩
      rw [h4, List.mem_cons, not_or]
      exact ⟨fun hd => ⟨hd.1,(hk.inRange d hd.1).1,hd.2⟩,fun hd => ⟨hd.1,hd.2.2⟩⟩
    obtain ⟨c,hc,rfl⟩ := hp p List.mem_cons_self h0
    obtain ⟨h1,hf,hk1,hn1,hm1⟩ := free_spec hk hc
    rw [List.filter_cons_of_pos (by simpa using h0), List.nodup_cons] at hnd
    obtain ⟨h',h2,h3,h4,h5⟩ := ih hk1 hnd.2 fun q hq hq0 => by
      obtain ⟨d,hd,rfl⟩ := hp q (List.mem_cons_of_mem _ hq) hq0
      refine ⟨d,(hm1 d).mpr ⟨hd,fun he => hnd.1 ?_⟩,rfl⟩
      rw [← he]
      exact List.mem_filter.mpr ⟨hq,by simpa using hq0⟩
    refine ⟨h',by rw [Heap.freeAll, hf, Option.bind_some, h2],h3,h4.trans hn1,fun d => ?_⟩
    rw [h5, hm1, List.mem_cons, not_or, and_assoc]

end Nginx.HeapLedger
