import Mathlib.Data.List.Basic
import Mathlib.Data.Nat.Init
import Mathlib.Logic.Function.Basic

/-!
# Buffers and the filter behind

A buffer is a range of memory, a range of a file or a mark. The filter behind is given
chains of buffers; it keeps what it cannot write at once and takes bytes from the front
of what it keeps, at any time and in any amounts. A filter has buffers of its own, which it
gets back once they are empty and at the front of the chain of the busy ones.
-/

set_option autoImplicit false

namespace Nginx.BufChain

/-- `data` are the bytes from `pos` to `last`, and `room` is the size of the memory. -/
structure Buf where
  tag : ℕ
  temporary : Bool
  memory : Bool
  mmap : Bool
  recycled : Bool
  inFile : Bool
  flush : Bool
  sync : Bool
  lastBuf : Bool
  lastInChain : Bool
  data : List ℕ
  room : ℕ
  file : Option ℕ
  filePos : ℕ
  fileLast : ℕ
  deriving DecidableEq, Repr

def ngxCallocBuf : Buf :=
  ⟨0,false,false,false,false,false,false,false,false,false,[],0,none,0,0⟩

def ngxBufInMemory (b : Buf) : Bool := b.temporary || b.memory || b.mmap

def ngxBufSpecial (b : Buf) : Bool :=
  (b.flush || b.lastBuf || b.sync) && !ngxBufInMemory b && !b.inFile

def ngxBufSize (b : Buf) : ℕ :=
  if ngxBufInMemory b then b.data.length else b.fileLast-b.filePos

def content (files : Option ℕ → ℕ → ℕ) (b : Buf) : List ℕ :=
  if ngxBufInMemory b then b.data
  else (List.range' b.filePos (b.fileLast-b.filePos)).map (files b.file)

/-- The buffer when its first `k` bytes have been written. -/
def advance (k : ℕ) (b : Buf) : Buf :=
  { b with data := b.data.drop k, filePos := if b.inFile then b.filePos+k else b.filePos }

/-- A buffer that is neither in memory nor in a file has no bytes. -/
def Sound (b : Buf) : Prop := ngxBufInMemory b = true ∨ b.inFile = true ∨ b.fileLast ≤ b.filePos

instance (b : Buf) : Decidable (Sound b) := inferInstanceAs (Decidable (_ ∨ _ ∨ _))

variable (files : Option ℕ → ℕ → ℕ) (b : Buf)

theorem content_length : (content files b).length = ngxBufSize b := by
  rw [content, ngxBufSize]
  split_ifs
  · rfl
  · rw [List.length_map, List.length_range']

theorem content_empty (h : ngxBufSize b = 0) : content files b = [] := by
  rw [← content_length files b] at h
  exact List.eq_nil_of_length_eq_zero h

variable (k : ℕ)

theorem content_advance (b : Buf) (h : Sound b) :
    content files (advance k b) = (content files b).drop k := by
  have hmemory : ngxBufInMemory (advance k b) = ngxBufInMemory b := rfl
  rw [content, content, hmemory]
  split_ifs with hin
  · rfl
  · show List.map (files b.file) (List.range' (if b.inFile then b.filePos+k else b.filePos)
        (b.fileLast-(if b.inFile then b.filePos+k else b.filePos))) = _
    rw [← List.map_drop, List.drop_range']
    rcases h with h | h | h
    · exact absurd h hin
    · rw [if_pos h, Nat.sub_add_eq]
      simp
    have hlen : b.fileLast-b.filePos = 0 := by omega
    split_ifs
    · rw [Nat.sub_add_eq, hlen, Nat.zero_sub]
      rfl
    · rw [hlen, Nat.zero_sub]
      rfl

theorem size_advance (b : Buf) (h : Sound b) : ngxBufSize (advance k b) = ngxBufSize b-k := by
  rw [← content_length (fun _ _ => 0), ← content_length (fun _ _ => 0), content_advance _ k b h,
    List.length_drop]

theorem sound_advance (b : Buf) (h : Sound b) : Sound (advance k b) := by
  rcases h with h | h | h
  · exact Or.inl h
  · exact Or.inr (Or.inl h)
  refine Or.inr (Or.inr ?_)
  show b.fileLast ≤ if b.inFile then b.filePos+k else b.filePos
  split_ifs <;> omega

inductive Ptr where
  | own (n : ℕ)
  | given (n : ℕ)
  deriving DecidableEq, Repr

def contents (files : Option ℕ → ℕ → ℕ) (bufs : Ptr → Buf) (ps : List Ptr) : List ℕ :=
  ps.flatMap (fun p => content files (bufs p))

variable (bufs : Ptr → Buf) (ps : List Ptr)

theorem contents_append (qs : List Ptr) :
    contents files bufs (ps++qs) = contents files bufs ps++contents files bufs qs :=
  List.flatMap_append

theorem contents_snoc (p : Ptr) :
    contents files bufs (ps++[p]) = contents files bufs ps++content files (bufs p) := by
  rw [contents_append]
  exact congrArg _ (List.append_nil _)

theorem contents_congr (bufs' : Ptr → Buf) (ps : List Ptr) (h : ∀ p ∈ ps, bufs' p = bufs p) :
    contents files bufs' ps = contents files bufs ps :=
  List.flatMap_congr (fun p hp => by rw [h p hp])

/-- `ngx_chain_get_free_buf` with the counter of the buffers that the filter has made. -/
def ngxChainGetFreeBuf (bufs : Ptr → Buf) (next : ℕ) :
    List Ptr → Ptr × (Ptr → Buf) × ℕ × List Ptr
  | p::free => (p, bufs, next, free)
  | [] => (.own next, Function.update bufs (.own next) ngxCallocBuf, next+1, [])

/-- The loop of `ngx_chain_update_chains` over the busy chain. -/
@[grind =] def updateLoop (tag : ℕ) : (Ptr → Buf) → List Ptr → List Ptr → (Ptr → Buf) × List Ptr × List Ptr
  | bufs, free, [] => (bufs, free, [])
  | bufs, free, p::busy =>
    if ngxBufSize (bufs p) ≠ 0 then (bufs, free, p::busy)
    else if (bufs p).tag ≠ tag then updateLoop tag bufs free busy
    else updateLoop tag (Function.update bufs p { bufs p with data := [] }) (p::free) busy

def ngxChainUpdateChains (bufs : Ptr → Buf) (free busy out : List Ptr) (tag : ℕ) :
    (Ptr → Buf) × List Ptr × List Ptr :=
  updateLoop tag bufs free (busy++out)

theorem update_loop_spec (tag : ℕ) (bufs : Ptr → Buf) (free busy : List Ptr)
    (h : ∀ p ∈ busy, (bufs p).tag = tag → ngxBufInMemory (bufs p) = true) :
    (updateLoop tag bufs free busy).1 = bufs ∧ ∃ gone,
      busy = gone++(updateLoop tag bufs free busy).2.2 ∧ (∀ p ∈ gone, ngxBufSize (bufs p) = 0) ∧
      (updateLoop tag bufs free busy).2.1 =
        (gone.filter (fun p => (bufs p).tag = tag)).reverse++free := by
  induction busy generalizing free with
  | nil => exact ⟨rfl,[],rfl,nofun,rfl⟩
  | cons p busy ih =>
    have hrest : ∀ q ∈ busy, (bufs q).tag = tag → ngxBufInMemory (bufs q) = true :=
      fun q hq => h q (List.mem_cons_of_mem p hq)
    rw [updateLoop]
    by_cases hsize : ngxBufSize (bufs p) ≠ 0
    · rw [if_pos hsize]
      exact ⟨rfl,[],rfl,nofun,rfl⟩
    rw [if_neg hsize]
    rw [ne_eq, not_not] at hsize
    have hgone : ∀ gone : List Ptr, (∀ q ∈ gone, ngxBufSize (bufs q) = 0) →
        ∀ q ∈ p::gone, ngxBufSize (bufs q) = 0 := by
      intro gone hgone q hq
      rcases List.mem_cons.mp hq with rfl | hq
      · exact hsize
      · exact hgone q hq
    by_cases htag : (bufs p).tag ≠ tag
    · rw [if_pos htag]
      obtain ⟨hbufs,gone,hbusy,hzero,hfree⟩ := ih free hrest
      refine ⟨hbufs,p::gone,congrArg (List.cons p) hbusy,hgone gone hzero,?_⟩
      rw [hfree, List.filter_cons, if_neg (by simpa using htag)]
    rw [if_neg htag]
    rw [ne_eq, not_not] at htag
    have hsame : Function.update bufs p { bufs p with data := [] } = bufs := by
      have hmemory := h p List.mem_cons_self htag
      rw [ngxBufSize, if_pos hmemory] at hsize
      have hdata : ({ bufs p with data := [] } : Buf) = bufs p := by
        rw [← List.eq_nil_of_length_eq_zero hsize]
      rw [hdata, Function.update_eq_self]
    rw [hsame]
    obtain ⟨hbufs,gone,hbusy,hzero,hfree⟩ := ih (p::free) hrest
    refine ⟨hbufs,p::gone,congrArg (List.cons p) hbusy,hgone gone hzero,?_⟩
    rw [hfree, List.filter_cons, if_pos (by simpa using htag), List.reverse_cons,
      List.append_assoc]
    rfl

/-- `passed` are the buffers that the filter behind has been given, their bytes and their
marks, `pending` those that it keeps, and `sent` the bytes that it has taken. -/
structure Behind where
  bufs : Ptr → Buf
  pending : List Ptr
  passed : List (List ℕ × Bool)
  sent : List ℕ

@[grind =] def take (files : Option ℕ → ℕ → ℕ) : ℕ → List Ptr → (Ptr → Buf) → (Ptr → Buf) × List Ptr × List ℕ
  | _, [], bufs => (bufs, [], [])
  | k, p::ps, bufs =>
    if ngxBufSize (bufs p) ≤ k then
      let (bufs', rest, sent) := take files (k-ngxBufSize (bufs p)) ps
        (Function.update bufs p (advance (ngxBufSize (bufs p)) (bufs p)))
      (bufs', rest, content files (bufs p)++sent)
    else (Function.update bufs p (advance k (bufs p)), p::ps, (content files (bufs p)).take k)

def Behind.accept (files : Option ℕ → ℕ → ℕ) (k : ℕ) (d : Behind) : Behind :=
  let (bufs, rest, sent) := take files k d.pending d.bufs
  { d with bufs := bufs, pending := rest, sent := d.sent++sent }

def Behind.pass (files : Option ℕ → ℕ → ℕ) (out : List Ptr) (d : Behind) : Behind :=
  { d with pending := d.pending++out,
           passed := d.passed++out.map (fun p => (content files (d.bufs p), (d.bufs p).lastBuf)) }

def Behind.bytes (d : Behind) : List ℕ := d.passed.flatMap Prod.fst

/-- What has been passed is what has been taken and what the kept buffers hold now. -/
structure Intact (files : Option ℕ → ℕ → ℕ) (d : Behind) : Prop where
  bytes : d.sent++contents files d.bufs d.pending = d.bytes
  nodup : d.pending.Nodup
  sound : ∀ p ∈ d.pending, Sound (d.bufs p)

structure Taken (files : Option ℕ → ℕ → ℕ) (ps : List Ptr) (bufs bufs' : Ptr → Buf)
    (rest : List Ptr) (sent : List ℕ) : Prop where
  advanced : ∀ p, ∃ k, bufs' p = advance k (bufs p)
  frame : ∀ p, p ∉ ps → bufs' p = bufs p
  gone : ∃ gone, ps = gone++rest ∧ ∀ p ∈ gone, ngxBufSize (bufs' p) = 0
  front : ∀ p ps', rest = p::ps' → ngxBufSize (bufs' p) ≠ 0 ∧ ∀ q ∈ ps', bufs' q = bufs q
  bytes : sent++contents files bufs' rest = contents files bufs ps

theorem advance_zero : advance 0 b = b := by
  rw [advance, List.drop_zero]
  split_ifs <;> rfl

theorem update_advanced (p : Ptr) (k : ℕ) (q : Ptr) :
    ∃ j, Function.update bufs p (advance k (bufs p)) q = advance j (bufs q) := by
  by_cases hq : q = p
  · subst hq
    exact ⟨k,Function.update_self ..⟩
  · exact ⟨0,by rw [Function.update_of_ne hq, advance_zero]⟩

theorem advance_advance (j k : ℕ) (b : Buf) : advance j (advance k b) = advance (k+j) b := by
  rw [advance, advance, advance]
  simp only [List.drop_drop]
  congr 1
  split_ifs <;> omega

theorem take_kept (bufs : Ptr → Buf) :
    (∀ p, ∃ j, (take files k ps bufs).1 p = advance j (bufs p)) ∧
      (∀ p, p ∉ ps → (take files k ps bufs).1 p = bufs p) ∧
      ∀ p ∈ (take files k ps bufs).2.1, p ∈ ps := by
  induction ps generalizing k bufs with
  | nil => exact ⟨fun p => ⟨0,(advance_zero _).symm⟩,fun _ _ => rfl,nofun⟩
  | cons p ps ih =>
    have houter : ∀ (j : ℕ), ∀ q, q ∉ p::ps →
        Function.update bufs p (advance j (bufs p)) q = bufs q :=
      fun j q hq => Function.update_of_ne (ne_of_mem_of_not_mem List.mem_cons_self hq).symm _ _
    rw [take]
    split_ifs with hall
    · obtain ⟨hadvanced,hframe,hrest⟩ :=
        ih (k-ngxBufSize (bufs p)) (Function.update bufs p (advance (ngxBufSize (bufs p)) (bufs p)))
      refine ⟨fun q => ?_,fun q hq => ?_,fun q hq => List.mem_cons_of_mem p (hrest q hq)⟩
      · obtain ⟨i,hi⟩ := hadvanced q
        obtain ⟨j,hj⟩ := update_advanced bufs p (ngxBufSize (bufs p)) q
        exact ⟨j+i,(hi.trans (by rw [hj])).trans (advance_advance i j _)⟩
      · exact (hframe q (fun hm => hq (List.mem_cons_of_mem p hm))).trans (houter _ q hq)
    · exact ⟨update_advanced bufs p k,houter k,fun q hq => hq⟩

theorem take_spec (bufs : Ptr → Buf) (hnodup : ps.Nodup) (hsound : ∀ p ∈ ps, Sound (bufs p)) :
    Taken files ps bufs (take files k ps bufs).1 (take files k ps bufs).2.1
      (take files k ps bufs).2.2 := by
  induction ps generalizing k bufs with
  | nil =>
    exact ⟨fun p => ⟨0,(advance_zero _).symm⟩,fun _ _ => rfl,⟨[],rfl,nofun⟩,nofun,rfl⟩
  | cons p ps ih =>
    obtain ⟨hp,hps⟩ := List.nodup_cons.mp hnodup
    have hself := hsound p List.mem_cons_self
    have hother : ∀ (j : ℕ), ∀ q ∈ ps, Function.update bufs p (advance j (bufs p)) q = bufs q :=
      fun j q hq => Function.update_of_ne (ne_of_mem_of_not_mem hq hp) _ _
    have houter : ∀ (j : ℕ), ∀ q, q ∉ p::ps →
        Function.update bufs p (advance j (bufs p)) q = bufs q :=
      fun j q hq => Function.update_of_ne (ne_of_mem_of_not_mem List.mem_cons_self hq).symm _ _
    rw [take]
    split_ifs with hall
    · obtain ⟨hadvanced,hframe,⟨gone,hgone,hempty⟩,hfront,hbytes⟩ :=
        ih (k-ngxBufSize (bufs p)) (Function.update bufs p (advance (ngxBufSize (bufs p)) (bufs p)))
          hps (fun q hq => by
            rw [hother _ q hq]
            exact hsound q (List.mem_cons_of_mem p hq))
      generalize take files (k-ngxBufSize (bufs p)) ps
        (Function.update bufs p (advance (ngxBufSize (bufs p)) (bufs p))) = r at *
      obtain ⟨bufs',rest,sent⟩ := r
      refine ⟨fun q => ?_,fun q hq => ?_,⟨p::gone,congrArg (List.cons p) hgone,fun q hq => ?_⟩,
        fun q qs hrest => ?_,?_⟩
      · obtain ⟨i,hi⟩ := hadvanced q
        obtain ⟨j,hj⟩ := update_advanced bufs p (ngxBufSize (bufs p)) q
        exact ⟨j+i,by rw [hi, hj, advance_advance]⟩
      · rw [hframe q (fun hm => hq (List.mem_cons_of_mem p hm)), houter _ q hq]
      · rcases List.mem_cons.mp hq with rfl | hq
        · rw [hframe q hp, Function.update_self, size_advance _ _ hself, Nat.sub_self]
        · exact hempty q hq
      · obtain ⟨hne,hsame⟩ := hfront q qs hrest
        refine ⟨hne,fun t ht => ?_⟩
        rw [hsame t ht]
        refine hother _ t ?_
        rw [hgone, hrest]
        exact List.mem_append_right gone (List.mem_cons_of_mem q ht)
      · show content files (bufs p)++sent++contents files bufs' rest = _
        rw [List.append_assoc, hbytes, contents_congr files bufs _ ps (hother _)]
        rfl
    · refine ⟨update_advanced bufs p k,houter k,⟨[],rfl,nofun⟩,fun q qs hrest => ?_,?_⟩
      · cases hrest
        refine ⟨?_,hother k⟩
        show ngxBufSize (Function.update bufs p (advance k (bufs p)) p) ≠ 0
        rw [Function.update_self, size_advance _ _ hself]
        omega
      · have hrest : contents files (Function.update bufs p (advance k (bufs p))) (p::ps) =
            (content files (bufs p)).drop k++contents files bufs ps := by
          rw [← contents_congr files bufs _ ps (hother k), ← content_advance files k _ hself]
          show content files (Function.update bufs p (advance k (bufs p)) p)++_ = _
          rw [Function.update_self]
          rfl
        rw [hrest, ← List.append_assoc, List.take_append_drop]
        rfl

variable (d : Behind)

theorem accept_taken (h : Intact files d) :
    ∃ sent, (d.accept files k).sent = d.sent++sent ∧ (d.accept files k).passed = d.passed ∧
      Taken files d.pending d.bufs (d.accept files k).bufs (d.accept files k).pending sent :=
  ⟨_,rfl,rfl,take_spec files k d.pending d.bufs h.nodup h.sound⟩

theorem accept_intact (h : Intact files d) : Intact files (d.accept files k) := by
  obtain ⟨sent,hsent,hpassed,htaken⟩ := accept_taken files k d h
  obtain ⟨gone,hgone,-⟩ := htaken.gone
  have hin : ∀ p ∈ (d.accept files k).pending, p ∈ d.pending := by
    intro p hp
    rw [hgone]
    exact List.mem_append_right gone hp
  refine ⟨?_,?_,fun p hp => ?_⟩
  · rw [hsent, List.append_assoc, htaken.bytes, h.bytes, Behind.bytes, Behind.bytes, hpassed]
  · have hnodup := h.nodup
    rw [hgone] at hnodup
    exact (List.nodup_append.mp hnodup).2.1
  · obtain ⟨j,hj⟩ := htaken.advanced p
    rw [hj]
    exact sound_advance j _ (h.sound p (hin p hp))

theorem pass_intact (out : List Ptr) (d : Behind) (h : Intact files d) (hnodup : out.Nodup)
    (hnew : ∀ p ∈ out, p ∉ d.pending) (hsound : ∀ p ∈ out, Sound (d.bufs p)) :
    Intact files (d.pass files out) := by
  refine ⟨?_,?_,fun p hp => ?_⟩
  · show d.sent++contents files d.bufs (d.pending++out) = (d.pass files out).bytes
    rw [contents_append, ← List.append_assoc, h.bytes, Behind.bytes, Behind.bytes, Behind.pass]
    simp only [List.flatMap_append, List.flatMap_map]
    rfl
  · refine List.nodup_append.mpr ⟨h.nodup,hnodup,fun p hp q hq he => ?_⟩
    exact hnew q hq (he ▸ hp)
  · rcases List.mem_append.mp hp with hp | hp
    · exact h.sound p hp
    · exact hsound p hp

theorem write_intact (bufs : Ptr → Buf) (h : Intact files d)
    (hsame : ∀ p ∈ d.pending, bufs p = d.bufs p) : Intact files { d with bufs := bufs } := by
  refine ⟨?_,h.nodup,fun p hp => ?_⟩
  · show d.sent++contents files bufs d.pending = _
    rw [contents_congr files d.bufs bufs d.pending hsame]
    exact h.bytes
  · show Sound (bufs p)
    rw [hsame p hp]
    exact h.sound p hp

end Nginx.BufChain
