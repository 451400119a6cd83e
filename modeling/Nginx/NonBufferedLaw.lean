import Nginx.NonBuffered

/-!
# What is proxied without buffering

The buffers that the output filter keeps and those not passed yet are next to each other in the
memory and end where the next bytes go. As long as the bytes that came with the header are not
more than the length given, what is passed on is the body, up to that length.
-/

set_option autoImplicit false

namespace Nginx.NonBufferedLaw
open MemoryRange NonBuffered

/-- The buffers of a chain are next to each other, from `a` to `z`, and none is empty. -/
@[grind =] def Spans (tag : ℕ) (bufs : ℕ → Buf) : List ℕ → ℕ → ℕ → Prop
  | [], a, z => a = z
  | p::ps, a, z => (bufs p).memory = true ∧ (bufs p).tag = tag ∧ (bufs p).pos = a ∧
      a < (bufs p).last ∧ Spans tag bufs ps (bufs p).last z

variable {tag : ℕ} {bufs : ℕ → Buf} {ps : List ℕ} {a z : ℕ}

theorem spans_le (h : Spans tag bufs ps a z) : a ≤ z := by
  induction ps generalizing a with
  | nil => exact le_of_eq h
  | cons p ps ih =>
    obtain ⟨-,-,-,hlt,hrest⟩ := h
    exact hlt.le.trans (ih hrest)

theorem spans_congr {bufs bufs' : ℕ → Buf} (h : Spans tag bufs ps a z)
    (hs : ∀ p ∈ ps, bufs' p = bufs p) : Spans tag bufs' ps a z := by
  induction ps generalizing a with
  | nil => exact h
  | cons p ps ih =>
    obtain ⟨hm,ht,hp,hlt,hrest⟩ := h
    have hsame := hs p List.mem_cons_self
    refine ⟨by rw [hsame, hm],by rw [hsame, ht],by rw [hsame, hp],by rwa [hsame],?_⟩
    rw [hsame]
    exact ih hrest fun q hq => hs q (List.mem_cons_of_mem p hq)

theorem spans_append {ps qs : List ℕ} {a b z : ℕ} (hl : Spans tag bufs ps a b)
    (hr : Spans tag bufs qs b z) : Spans tag bufs (ps++qs) a z := by
  induction ps generalizing a with
  | nil =>
    obtain rfl : a = b := hl
    exact hr
  | cons p ps ih =>
    obtain ⟨hm,ht,hp,hlt,hrest⟩ := hl
    exact ⟨hm,ht,hp,hlt,ih hrest⟩

theorem spans_bytes {s : State} (h : Spans tag s.bufs ps a z) :
    ps.flatMap (bufBytes s) = readRange s.mem a z := by
  induction ps generalizing a with
  | nil =>
    obtain rfl : a = z := h
    rw [read_empty]
    rfl
  | cons p ps ih =>
    obtain ⟨-,-,hp,hlt,hrest⟩ := h
    rw [List.flatMap_cons, ih hrest, bufBytes, hp, read_append s.mem hlt.le (spans_le hrest)]

theorem spans_inside {a z p : ℕ} (h : Spans tag bufs ps a z) (hp : p ∈ ps) :
    a ≤ (bufs p).pos ∧ (bufs p).last ≤ z := by
  induction ps generalizing a with
  | nil => cases hp
  | cons q ps ih =>
    obtain ⟨-,-,hq,hlt,hrest⟩ := h
    rcases List.mem_cons.mp hp with rfl | hp
    · exact ⟨hq.ge,spans_le hrest⟩
    · obtain ⟨hl,hr⟩ := ih hrest hp
      exact ⟨hlt.le.trans hl,hr⟩

structure Empty (tag : ℕ) (b : Buf) : Prop where
  memory : b.memory = true
  tag : b.tag = tag
  size : b.pos = b.last

/-- `held` are the buffers passed to the output filter, of which those at the front may have been
sent, and `out` those that are not passed yet. Between `a` and `m` there is what the filter
keeps, and from there what it has not been passed. -/
structure Inv (body : List UInt8) (s : State) (held out : List ℕ) (a m : ℕ) : Prop where
  first : s.start ≤ a
  kept : Spans s.tag s.bufs s.pending a m
  waiting : Spans s.tag s.bufs out m s.last
  room : s.last ≤ s.final
  passed : s.sent++readRange s.mem a m = s.passed
  received : s.passed++readRange s.mem m s.last = body.take s.responseLength
  stream : s.responseLength ≤ body.length
  front : ∃ gone, held = gone++s.pending ∧ ∀ p ∈ gone, Empty s.tag (s.bufs p)
  nodup : (s.freeBufs++held++out).Nodup
  made : ∀ p ∈ s.freeBufs++held++out, p < s.next

/-- The length left, with `l` the one that the upstream gave -/
def Counts (l : Option ℕ) (s : State) : Prop :=
  match l with
  | none => s.length = ngxMaxSizeTValue
  | some l => s.responseLength ≤ l ∧
      s.length = if l = ngxMaxSizeTValue then l else l-s.responseLength

section Steps

variable {body : List UInt8} {s : State} {held out : List ℕ} {a m : ℕ}

theorem other_inv (h : Inv body s held out a m) (length : ℕ) (read : ReadEvent) :
    Inv body { s with length := length, read := read } held out a m :=
  ⟨h.first,h.kept,h.waiting,h.room,h.passed,h.received,h.stream,h.front,h.nodup,h.made⟩

variable {p : ℕ}

theorem pending_held (h : Inv body s held out a m) (hp : p ∈ s.pending) : p ∈ held := by
  obtain ⟨gone,hheld,_⟩ := h.front
  rw [hheld]
  exact List.mem_append_right gone hp

theorem held_not_out (h : Inv body s held out a m) (hp : p ∈ held) : p ∉ out :=
  fun ho => (List.nodup_append.mp h.nodup).2.2 p (List.mem_append_right _ hp) p ho rfl

theorem send_byte_inv (h : Inv body s held out a m) :
    ∃ a', Inv body (sendByte s) held out a' m := by
  obtain ⟨gone,hheld,hgone⟩ := h.front
  cases hpending : s.pending with
  | nil =>
    rw [sendByte, hpending]
    exact ⟨a,h⟩
  | cons p ps =>
    have hkept := h.kept
    rw [hpending] at hkept
    obtain ⟨hmemory,htag,hpos,hlt,hrest⟩ := hkept
    rw [hpending] at hheld
    have hnodup : held.Nodup := (List.nodup_append.mp (List.nodup_append.mp h.nodup).1).2.1
    have hparts := hnodup
    rw [hheld] at hparts
    obtain ⟨-,htail,hapart⟩ := List.nodup_append.mp hparts
    obtain ⟨hps,-⟩ := List.nodup_cons.mp htail
    have hin : p ∈ held := pending_held h (by rw [hpending]; exact List.mem_cons_self)
    have hsame : ∀ b, ∀ q ≠ p, Function.update s.bufs p b q = s.bufs q :=
      fun b q hq => Function.update_of_ne hq _ _
    have hout : ∀ b, Spans s.tag (Function.update s.bufs p b) out m s.last := fun b =>
      spans_congr h.waiting fun q hq => hsame b q fun he => held_not_out h hin (he ▸ hq)
    have hlater : ∀ b, Spans s.tag (Function.update s.bufs p b) ps (s.bufs p).last m := fun b =>
      spans_congr hrest fun q hq => hsame b q fun he => hps (he ▸ hq)
    have hbefore : ∀ b, ∀ q ∈ gone, Empty s.tag (Function.update s.bufs p b q) := fun b q hq => by
      rw [hsame b q (hapart q hq p List.mem_cons_self)]
      exact hgone q hq
    have hsent : s.sent++[s.mem (s.bufs p).pos]++readRange s.mem (a+1) m = s.passed := by
      rw [hpos, List.append_assoc, ← h.passed,
        read_first s.mem (lt_of_lt_of_le hlt (spans_le hrest))]
      rfl
    refine ⟨a+1,?_⟩
    rw [sendByte, hpending]
    simp only
    by_cases hlast : (s.bufs p).pos+1 = (s.bufs p).last
    · rw [if_pos hlast]
      rw [hpos] at hlast
      refine ⟨h.first.trans (Nat.le_succ a),?_,hout _,h.room,hsent,h.received,h.stream,
        ⟨gone++[p],by rw [hheld, List.append_assoc]; rfl,fun q hq => ?_⟩,h.nodup,h.made⟩
      · show Spans s.tag _ ps (a+1) m
        rw [hlast]
        exact hlater _
      · rcases List.mem_append.mp hq with hq | hq
        · exact hbefore _ q hq
        rw [List.mem_singleton.mp hq]
        have hempty : Empty s.tag { s.bufs p with pos := (s.bufs p).pos+1 } :=
          ⟨hmemory,htag,by rw [hpos, hlast]⟩
        show Empty s.tag (Function.update s.bufs p _ p)
        rw [Function.update_self]
        exact hempty
    rw [if_neg hlast]
    rw [hpos] at hlast
    refine ⟨h.first.trans (Nat.le_succ a),?_,hout _,h.room,hsent,h.received,h.stream,
      ⟨gone,hheld,hbefore _⟩,h.nodup,h.made⟩
    show Spans s.tag (Function.update s.bufs p _) (p::ps) (a+1) m
    simp only [Spans, Function.update_self]
    exact ⟨hmemory,htag,congrArg (·+1) hpos,by omega,hlater _⟩

theorem send_bytes_keep (P : State → Prop) (hstep : ∀ s, P s → P (sendByte s)) (bytes : ℕ)
    (s : State) (h : P s) : P (Nat.iterate sendByte bytes s) := by
  induction bytes generalizing s with
  | zero => exact h
  | succ bytes ih => exact ih (sendByte s) (hstep s h)

structure Sends (s s' : State) : Prop where
  mem : s'.mem = s.mem
  tag : s'.tag = s.tag
  start : s'.start = s.start
  last : s'.last = s.last
  length : s'.length = s.length
  responseLength : s'.responseLength = s.responseLength
  busy : s'.busyBufs = s.busyBufs
  out : s'.outBufs = s.outBufs

theorem send_byte_sends (s : State) : Sends s (sendByte s) := by
  rw [sendByte]
  cases s.pending with
  | nil => exact ⟨rfl,rfl,rfl,rfl,rfl,rfl,rfl,rfl⟩
  | cons p ps => exact ⟨rfl,rfl,rfl,rfl,rfl,rfl,rfl,rfl⟩

theorem sends_trans {s₁ s₂ s₃ : State} (h : Sends s₁ s₂) (h' : Sends s₂ s₃) : Sends s₁ s₃ :=
  ⟨h'.mem.trans h.mem,h'.tag.trans h.tag,h'.start.trans h.start,h'.last.trans h.last,
    h'.length.trans h.length,h'.responseLength.trans h.responseLength,h'.busy.trans h.busy,
    h'.out.trans h.out⟩

theorem output_filter_inv (bytes : ℕ) (h : Inv body s held out a m) (ho : out = s.outBufs) :
    (∃ a', Inv body (ngxHttpOutputFilter s bytes) (held++out) [] a' s.last) ∧
      Sends s (ngxHttpOutputFilter s bytes) := by
  rw [ngxHttpOutputFilter, ← ho]
  have hbytes := spans_bytes h.waiting
  refine send_bytes_keep (fun s' => (∃ a', Inv body s' (held++out) [] a' s.last) ∧ Sends s s')
    (fun s' hs => ?_) bytes _ ⟨⟨a,?_⟩,⟨rfl,rfl,rfl,rfl,rfl,rfl,rfl,ho⟩⟩
  · obtain ⟨⟨a',ha⟩,hsends⟩ := hs
    exact ⟨send_byte_inv ha,sends_trans hsends (send_byte_sends s')⟩
  · obtain ⟨gone,hheld,hgone⟩ := h.front
    refine ⟨h.first,spans_append h.kept h.waiting,rfl,h.room,?_,?_,h.stream,
      ⟨gone,by rw [hheld, List.append_assoc],hgone⟩,?_,?_⟩
    · show s.sent++readRange s.mem a s.last = s.passed++out.flatMap (bufBytes s)
      rw [hbytes, ← h.passed, List.append_assoc,
        read_append s.mem (spans_le h.kept) (spans_le h.waiting)]
    · show s.passed++out.flatMap (bufBytes s)++readRange s.mem s.last s.last = _
      rw [hbytes, read_empty, List.append_nil]
      exact h.received
    · show (s.freeBufs++(held++out)++[]).Nodup
      rw [List.append_nil, ← List.append_assoc]
      exact h.nodup
    · show ∀ p ∈ s.freeBufs++(held++out)++[], p < s.next
      rw [List.append_nil, ← List.append_assoc]
      exact h.made

theorem update_loop_spec (ps : List ℕ) (gone free : List ℕ) (bufs : ℕ → Buf)
    (hgone : ∀ p ∈ gone, Empty tag (bufs p)) (hn : (gone++ps).Nodup) (hps : Spans tag bufs ps a m) :
    (updateLoop tag bufs free (gone++ps)).2.1 = gone.reverse++free ∧
      (updateLoop tag bufs free (gone++ps)).2.2 = ps ∧
      ∀ p, p ∉ gone → (updateLoop tag bufs free (gone++ps)).1 p = bufs p := by
  induction gone generalizing free bufs with
  | nil =>
    cases ps with
    | nil => exact ⟨rfl,rfl,fun _ _ => rfl⟩
    | cons p ps =>
      obtain ⟨hmemory,-,hpos,hlt,-⟩ := hps
      have hsize : ngxBufSize (bufs p) ≠ 0 := by
        rw [ngxBufSize, if_pos hmemory, hpos]
        omega
      rw [List.nil_append, updateLoop, if_pos hsize]
      exact ⟨rfl,rfl,fun _ _ => rfl⟩
  | cons p gone ih =>
    have hp := hgone p List.mem_cons_self
    obtain ⟨hnot,hrest⟩ := List.nodup_cons.mp hn
    have hsize : ngxBufSize (bufs p) = 0 := by
      rw [ngxBufSize, if_pos hp.memory, hp.size, sub_self]
    rw [List.cons_append, updateLoop, if_neg (not_not.mpr hsize), if_neg (not_not.mpr hp.tag)]
    have hother : ∀ b, ∀ q ∈ gone++ps, Function.update bufs p b q = bufs q := fun b q hq =>
      Function.update_of_ne (ne_of_mem_of_not_mem hq hnot) _ _
    obtain ⟨hfree,hbusy,hsame⟩ := ih (p::free) (Function.update bufs p
        { bufs p with pos := (bufs p).start, last := (bufs p).start })
      (fun q hq => by
        rw [hother _ q (List.mem_append_left ps hq)]
        exact hgone q (List.mem_cons_of_mem p hq)) hrest
      (spans_congr hps fun q hq => hother _ q (List.mem_append_right gone hq))
    refine ⟨by rw [hfree, List.reverse_cons, List.append_assoc]; rfl,hbusy,fun q hq => ?_⟩
    rw [hsame q fun hm => hq (List.mem_cons_of_mem p hm)]
    exact Function.update_of_ne (fun he => hq (by rw [he]; exact List.mem_cons_self)) _ _

theorem update_chains_inv (h : Inv body s (s.busyBufs++s.outBufs) [] a m) :
    Inv body (ngxChainUpdateChains s) (ngxChainUpdateChains s).busyBufs
        (ngxChainUpdateChains s).outBufs a m ∧
      (ngxChainUpdateChains s).busyBufs = s.pending ∧ (ngxChainUpdateChains s).outBufs = [] := by
  obtain ⟨gone,hheld,hgone⟩ := h.front
  have hn := h.nodup
  rw [List.append_nil, hheld] at hn
  obtain ⟨-,hparts,hapart⟩ := List.nodup_append.mp hn
  obtain ⟨hfree,hbusy,hsame⟩ :=
    update_loop_spec s.pending gone s.freeBufs s.bufs hgone hparts h.kept
  have hout : m = s.last := h.waiting
  have hpending : ∀ p ∈ s.pending, p ∉ gone := fun p hp hg =>
    (List.nodup_append.mp hparts).2.2 p hg p hp rfl
  rw [ngxChainUpdateChains, hheld]
  generalize updateLoop s.tag s.bufs s.freeBufs (gone++s.pending) = r at hfree hbusy hsame ⊢
  obtain ⟨bufs,free,busy⟩ := r
  simp only at hfree hbusy hsame ⊢
  subst hfree hbusy
  have hperm : (gone.reverse++s.freeBufs++s.pending++[]).Perm
      (s.freeBufs++(gone++s.pending)) := by
    rw [List.append_nil, ← List.append_assoc]
    exact ((List.reverse_perm gone).append_right _ |>.trans List.perm_append_comm).append_right _
  refine ⟨⟨h.first,spans_congr h.kept fun p hp => hsame p (hpending p hp),hout,h.room,h.passed,
    h.received,h.stream,⟨[],rfl,by simp⟩,?_,fun p hp => ?_⟩,rfl,trivial⟩
  · exact hperm.nodup_iff.mpr hn
  · refine h.made p ?_
    rw [List.append_nil, hheld]
    exact hperm.mem_iff.mp hp

variable {s' : State}

theorem get_free_spec {alloc : Bool} (hn : (s.freeBufs++held++out).Nodup)
    (hmade : ∀ q ∈ s.freeBufs++held++out, q < s.next)
    (hg : ngxChainGetFreeBuf alloc s = some (p, s')) :
    ∃ bufs free next, s' = { s with bufs := bufs, freeBufs := free, next := next } ∧
      (∀ q, q ≠ p → bufs q = s.bufs q) ∧ p ∉ held ∧ p ∉ out ∧
      (free++held++(out++[p])).Nodup ∧ ∀ q ∈ free++held++(out++[p]), q < next := by
  cases hfree : s.freeBufs with
  | cons q free =>
    rw [ngxChainGetFreeBuf, hfree] at hg
    obtain ⟨rfl,rfl⟩ := Prod.mk.inj (Option.some.inj hg)
    rw [hfree] at hn hmade
    have hperm : (free++held++(out++[q])).Perm (q::free++held++out) := by
      rw [← List.append_assoc]
      exact List.perm_append_comm
    have hnot := (List.nodup_cons.mp hn).1
    refine ⟨s.bufs,free,s.next,rfl,fun _ _ => rfl,fun hin => hnot ?_,fun hin => hnot ?_,
      hperm.nodup_iff.mpr hn,fun x hx => hmade x (hperm.mem_iff.mp hx)⟩
    · exact List.mem_append_left _ (List.mem_append_right _ hin)
    · exact List.mem_append_right _ hin
  | nil =>
    rw [ngxChainGetFreeBuf, hfree] at hg
    cases alloc with
    | false => cases hg
    | true =>
      obtain ⟨rfl,rfl⟩ := Prod.mk.inj (Option.some.inj hg)
      rw [hfree, List.nil_append] at hn hmade
      have hnew : s.next ∉ held++out := fun hin => absurd (hmade _ hin) (Nat.lt_irrefl _)
      obtain ⟨hheld,hout⟩ := not_or.mp fun hor => hnew (List.mem_append.mpr hor)
      refine ⟨_,[],s.next+1,by rw [← hfree],fun q hq => Function.update_of_ne hq _ _,hheld,hout,
        ?_,fun x hx => ?_⟩
      · rw [List.nil_append, ← List.append_assoc]
        refine List.nodup_append.mpr ⟨hn,List.nodup_singleton _,fun x hx y hy he => ?_⟩
        rw [he, List.mem_singleton.mp hy] at hx
        exact hnew hx
      · rw [List.nil_append, ← List.append_assoc] at hx
        rcases List.mem_append.mp hx with hx | hx
        · exact Nat.lt_succ_of_lt (hmade x hx)
        · rw [List.mem_singleton.mp hx]
          exact Nat.lt_succ_self _

/-- What `ngx_http_upstream_non_buffered_filter` does with bytes that follow the others -/
structure Filtered (body : List UInt8) (s s' : State) (mem : ℕ → UInt8) (n : ℕ) (held : List ℕ) :
    Prop where
  mem : s'.mem = mem
  out : ∃ p, s'.outBufs = s.outBufs++[p]
  busy : s'.busyBufs = s.busyBufs
  bufs : ∀ q ∈ held, s'.bufs q = s.bufs q
  responseLength : s'.responseLength = s.responseLength+n
  length : s'.length = if s.length = ngxMaxSizeTValue then s.length
    else (s.length+(2^64-n % 2^64)) % 2^64

theorem filter_inv {alloc : Bool} {mem : ℕ → UInt8} {data : List UInt8}
    (h : Inv body s held s.outBufs a m) (hne : data ≠ []) (hbefore : ∀ i < s.last, mem i = s.mem i)
    (hread : readRange mem s.last (s.last+data.length) = data)
    (hdata : data = (body.drop s.responseLength).take data.length)
    (hroom : s.last+data.length ≤ s.final)
    (hf : nonBufferedFilter alloc { s with mem := mem, responseLength :=
      s.responseLength+data.length } data.length = some s') :
    Inv body s' held s'.outBufs a m ∧ Filtered body s s' mem data.length held := by
  obtain ⟨⟨p,s₁⟩,hg,hs⟩ := Option.map_eq_some_iff.mp hf
  have hlen : 0 < data.length := List.length_pos_iff.mpr hne
  have hle := spans_le h.kept
  have hlast := spans_le h.waiting
  have hstream : s.responseLength+data.length ≤ body.length := by
    have hl := congrArg List.length hdata
    rw [List.length_take, List.length_drop] at hl
    have := h.stream
    omega
  have hbefore' : ∀ b c, c ≤ s.last → readRange mem b c = readRange s.mem b c := fun b c hc =>
    read_congr s.mem mem fun i _ hi => hbefore i (by omega)
  obtain ⟨bufs,free,next,rfl,hsame,hheld,hout,hn,hmade⟩ := get_free_spec (by exact h.nodup) (by exact h.made) hg
  have hbufs : ∀ b, ∀ q, q ≠ p → Function.update bufs p b q = s.bufs q := fun b q hq =>
    (Function.update_of_ne hq _ _).trans (hsame q hq)
  have hspans : ∀ b, ∀ qs x z, p ∉ qs → Spans s.tag s.bufs qs x z →
      Spans s.tag (Function.update bufs p b) qs x z := fun b qs x z hp hq =>
    spans_congr hq fun q hin => hbufs b q (ne_of_mem_of_not_mem hin hp)
  have hpending : p ∉ s.pending := fun hin => hheld (pending_held h hin)
  obtain ⟨gone,hfront,hgone⟩ := h.front
  have hempty : ∀ b, ∀ q ∈ gone, Empty s.tag (Function.update bufs p b q) := fun b q hq => by
    rw [hbufs b q fun he => hheld (by rw [hfront, ← he]; exact List.mem_append_left _ hq)]
    exact hgone q hq
  have hall : s.passed++readRange mem m (s.last+data.length) =
      body.take (s.responseLength+data.length) := by
    rw [← read_append mem hlast (Nat.le_add_right _ _), hbefore' m s.last le_rfl, hread,
      ← List.append_assoc, h.received, List.take_add, ← hdata]
  have hnew : ∀ length, Inv body { s with
      mem := mem, responseLength := s.responseLength+data.length, freeBufs := free, next := next
      outBufs := s.outBufs++[p], length := length
      bufs := Function.update bufs p { bufs p with
        flush := true, memory := true, pos := s.last, last := s.last+data.length, tag := s.tag }
      last := s.last+data.length } held (s.outBufs++[p]) a m := fun length => by
    refine ⟨h.first,hspans _ _ _ _ hpending h.kept,?_,hroom,?_,hall,hstream,
      ⟨gone,hfront,hempty _⟩,hn,hmade⟩
    · refine spans_append (hspans _ _ _ _ hout h.waiting) ?_
      simp only [Spans, Function.update_self]
      exact ⟨trivial,trivial,trivial,by omega,trivial⟩
    · exact (congrArg (s.sent++·) (hbefore' a m hlast)).trans h.passed
  have hother : ∀ q ∈ held, q ≠ p := fun q hq => ne_of_mem_of_not_mem hq hheld
  simp only at hs
  split_ifs at hs with hmax
  · obtain rfl := hs
    exact ⟨hnew _,rfl,⟨p,rfl⟩,rfl,fun q hq => hbufs _ q (hother q hq),rfl,(if_pos hmax).symm⟩
  · obtain rfl := hs
    exact ⟨hnew _,rfl,⟨p,rfl⟩,rfl,fun q hq => hbufs _ q (hother q hq),rfl,(if_neg hmax).symm⟩

end Steps

def allowed (l : Option ℕ) (received : ℕ) : ℕ :=
  match l with
  | none => received
  | some l => min l received

/-- The state before `ngx_http_upstream_send_response`: the buffer has the first bytes of the body
behind the header, and `l` is the length in the header. -/
structure Start (body : List UInt8) (l : Option ℕ) (s : State) : Prop where
  first : s.start ≤ s.pos
  pos : s.pos ≤ s.last
  room : s.last ≤ s.final
  preread : readRange s.mem s.pos s.last = body.take (s.last-s.pos)
  length : s.length = l.getD ngxMaxSizeTValue
  off : ∀ n, l = some n → n ≤ ngxMaxSizeTValue
  received : s.responseLength = 0
  free : s.freeBufs = []
  busy : s.busyBufs = []
  out : s.outBufs = []
  pending : s.pending = []
  passed : s.passed = []
  sent : s.sent = []

/-- The bytes that came with the header are not more than the length; a length that is the greatest
value stands for none. -/
def Fits (body : List UInt8) (l : Option ℕ) (preread : ℕ) : Prop :=
  ∀ n, l = some n → preread ≤ n ∧ (n = ngxMaxSizeTValue → body.length ≤ n)

/-- What `ngx_http_upstream_send_response` and the events after it lead to -/
inductive Reached (body : List UInt8) (s₀ : State) : State → Stage → Prop where
  | opening (a : Opening) : Reached body s₀ (sendResponse s₀ a).1 (sendResponse s₀ a).2
  | turn (s : State) (doWrite : Bool) (a : Answer) (h : Reached body s₀ s (.loop doWrite)) :
      Reached body s₀ (turn body s doWrite a).1 (turn body s doWrite a).2
  | downstream (s : State) (timedout : Bool) (h : Reached body s₀ s .waiting) :
      Reached body s₀ (processNonBufferedDownstream s timedout).1
        (processNonBufferedDownstream s timedout).2
  | upstream (s : State) (timedout : Bool) (h : Reached body s₀ s .waiting) :
      Reached body s₀ (processNonBufferedUpstream s timedout).1
        (processNonBufferedUpstream s timedout).2
  | handleError (s : State) (h : Reached body s₀ s .waiting) :
      Reached body s₀ s (.finalized .failed)
  | flags (s : State) (stage : Stage) (read : ReadEvent) (h : Reached body s₀ s stage)
      (hs : ∀ why, stage ≠ .finalized why) : Reached body s₀ { s with read := read } stage
  | sends (s : State) (stage : Stage) (h : Reached body s₀ s stage)
      (hs : ∀ why, stage ≠ .finalized why) : Reached body s₀ (sendByte s) stage

/-- The bytes passed on are the first of the body, at most as many as the length allows; what the
filter keeps is as it was passed; and the length left does not go below zero. -/
structure Exact (body : List UInt8) (l : Option ℕ) (s : State) : Prop where
  passed : s.passed <+: body.take (allowed l s.responseLength)
  kept : s.sent++s.pending.flatMap (bufBytes s) = s.passed
  length : ∀ n, l = some n →
    s.responseLength ≤ n ∧ s.length ≤ n ∧ n ≤ s.length+s.responseLength

def Good (body : List UInt8) (l : Option ℕ) (s : State) : Stage → Prop
  | .finalized why => Exact body l s ∧
      (why = .finished → s.passed = body.take (allowed l s.responseLength))
  | _ => Counts l s ∧ ∃ a m, Inv body s s.busyBufs s.outBufs a m

section Stages

variable {body : List UInt8} {l : Option ℕ} {s : State} {held out : List ℕ} {a m : ℕ}

theorem allowed_eq (hc : Counts l s) : allowed l s.responseLength = s.responseLength := by
  cases l with
  | none => rfl
  | some n => exact Nat.min_eq_right hc.1

theorem allowed_mono (received n : ℕ) : allowed l received ≤ allowed l (received+n) := by
  cases l with
  | none => exact Nat.le_add_right _ _
  | some k => exact min_le_min_left k (Nat.le_add_right _ _)

theorem exact_of (h : Inv body s held out a m) (hc : Counts l s) : Exact body l s := by
  refine ⟨?_,?_,fun n hn => ?_⟩
  · rw [allowed_eq hc, ← h.received]
    exact List.prefix_append _ _
  · rw [spans_bytes h.kept]
    exact h.passed
  · subst hn
    obtain ⟨hle,hlen⟩ := hc
    refine ⟨hle,?_,?_⟩ <;> rw [hlen] <;> split_ifs <;> omega

variable {s' : State}

theorem counts_step {n : ℕ} (hc : Counts l s) (hoff : ∀ k, l = some k → k ≤ ngxMaxSizeTValue)
    (hn : ∀ k, l = some k → s.responseLength+n ≤ k) (hr : s'.responseLength = s.responseLength+n)
    (hl : s'.length = if s.length = ngxMaxSizeTValue then s.length else (s.length+(2^64-n % 2^64))
      % 2^64) : Counts l s' := by
  cases l with
  | none => rw [Counts, hl, if_pos (show s.length = _ from hc)]; exact hc
  | some k =>
    obtain ⟨hle,hlen⟩ := hc
    have hmax := hoff k rfl
    have hfit := hn k rfl
    have hsize : ngxMaxSizeTValue < 2^64 := by decide
    refine ⟨by omega,?_⟩
    rw [hl, hr, hlen]
    by_cases hk : k = ngxMaxSizeTValue
    · rw [if_pos hk, if_pos hk, if_pos hk]
    rw [if_neg hk, if_neg hk]
    rw [if_neg (by omega), Nat.mod_eq_of_lt (show n < 2^64 by omega),
      show k-s.responseLength+(2^64-n) = k-(s.responseLength+n)+2^64 by omega,
      Nat.add_mod_right]
    exact Nat.mod_eq_of_lt (by omega)

/-- What the busy buffers of the second state refer to is what it was in the first. -/
def Untouched (s s' : State) : Prop :=
  ∀ p ∈ s'.busyBufs, ∀ i, (s'.bufs p).pos ≤ i → i < (s'.bufs p).last → s'.mem i = s.mem i

theorem untouched_of (h : Inv body s held out a m) (hb : s'.busyBufs = held)
    (hbufs : ∀ p ∈ held, s'.bufs p = s.bufs p) (hmem : ∀ i < s.last, s'.mem i = s.mem i) :
    Untouched s s' := by
  intro p hp i hl hr
  obtain ⟨gone,hheld,hgone⟩ := h.front
  rw [hb] at hp
  rw [hbufs p hp] at hl hr
  rw [hheld] at hp
  rcases List.mem_append.mp hp with hp | hp
  · have hsize := (hgone p hp).size
    omega
  have hinside := (spans_inside h.kept hp).2
  have hlast := spans_le h.waiting
  exact hmem i (by omega)

/-- A length that is the greatest value is more than the stream has. -/
def Bounded (body : List UInt8) (l : Option ℕ) : Prop :=
  ∀ n, l = some n → n ≤ ngxMaxSizeTValue ∧ (n = ngxMaxSizeTValue → body.length ≤ n)

theorem read_allowed (h : Inv body s held out a m) (hc : Counts l s) (hl : Bounded body l)
    {n size : ℕ} (hs : size ≤ s.length) {k : ℕ} (hk : l = some k) :
    s.responseLength+((body.drop s.responseLength).take (min n size)).length ≤ k := by
  subst hk
  obtain ⟨-,hmax⟩ := hl k rfl
  obtain ⟨hle,hlen⟩ := hc
  have hstream := h.stream
  rw [List.length_take, List.length_drop]
  by_cases hm : k = ngxMaxSizeTValue
  · have := hmax hm
    omega
  · rw [if_neg hm] at hlen
    omega

theorem reading_good (h : Inv body s s.busyBufs s.outBufs a m) (hc : Counts l s)
    (hl : Bounded body l) (x : Answer) :
    Good body l (reading body s x).1 (reading body s x).2 ∧
      Untouched s (reading body s x).1 := by
  rw [reading]
  simp only
  have hsize : (if s.final-s.last > s.length then s.length else s.final-s.last) =
      min (s.final-s.last) s.length := by
    split_ifs <;> omega
  rw [hsize]
  have hsame : ∀ s' : State, s'.busyBufs = s.busyBufs → s'.bufs = s.bufs → s'.mem = s.mem →
      Untouched s s' := fun s' hb hbufs hmem =>
    untouched_of h hb (fun p _ => by rw [hbufs]) fun i _ => by rw [hmem]
  have hgood : ∀ read, Counts l { s with read := read } ∧ ∃ a m,
      Inv body { s with read := read } s.busyBufs s.outBufs a m := fun read =>
    ⟨hc,a,m,other_inv h s.length read⟩
  split_ifs with hready
  · cases hrecv : x.recv with
    | again => exact ⟨hgood x.read,hsame _ rfl rfl rfl⟩
    | error => exact ⟨hgood x.read,hsame _ rfl rfl rfl⟩
    | bytes n =>
      simp only
      have hfit := fun k => read_allowed h hc hl (n := n) (Nat.min_le_right (s.final-s.last) _)
        (k := k)
      generalize hdata : (body.drop s.responseLength).take
        (min n (min (s.final-s.last) s.length)) = data at hfit
      have hbefore : ∀ i < s.last, writeRange s.mem s.last data i = s.mem i := fun i hi =>
        write_before s.mem data hi
      split_ifs with hlen
      · have hprefix : data <+: body.drop s.responseLength := hdata ▸ List.take_prefix _ _
        have hroom : s.last+data.length ≤ s.final := by
          have hle := congrArg List.length hdata
          rw [List.length_take] at hle
          have := h.room
          omega
        cases hf : nonBufferedFilter x.alloc { s with
            read := x.read, mem := writeRange s.mem s.last data
            responseLength := s.responseLength+data.length } data.length with
        | some s' =>
          obtain ⟨hinv,hfiltered⟩ := filter_inv (other_inv h s.length x.read)
            (List.ne_nil_of_length_pos hlen) hbefore (read_write s.mem s.last data)
            (List.prefix_iff_eq_take.mp hprefix) hroom hf
          have hcounts := counts_step hc (fun k hk => (hl k hk).1) hfit hfiltered.responseLength
            hfiltered.length
          refine ⟨⟨hcounts,a,m,?_⟩,untouched_of h hfiltered.busy hfiltered.bufs fun i hi => ?_⟩
          · rw [hfiltered.busy]
            exact hinv
          · rw [hfiltered.mem]
            exact hbefore i hi
        | none =>
          have hexact := exact_of h hc
          have hle := spans_le h.waiting
          refine ⟨⟨⟨?_,?_,fun k hk => ⟨hfit k hk,(hexact.length k hk).2.1,?_⟩⟩,nofun⟩,
            untouched_of h rfl (fun _ _ => rfl) hbefore⟩
          · exact hexact.passed.trans (List.take_prefix_take_left (allowed_mono _ _))
          · refine Eq.trans (congrArg (s.sent++·) (spans_bytes h.kept)) ?_
            rw [read_write_before s.mem s.last data hle]
            exact h.passed
          · have := (hexact.length k hk).2.2
            simp only
            omega
      · have hnil : data = [] := List.eq_nil_of_length_eq_zero (by omega)
        subst hnil
        rw [write_empty]
        exact ⟨hgood x.read,hsame _ rfl rfl rfl⟩
  · exact ⟨⟨hc,a,m,h⟩,hsame s rfl rfl rfl⟩

theorem rewound_inv (h : Inv body s s.busyBufs s.outBufs a m) (hb : s.busyBufs = [])
    (ho : s.outBufs = []) :
    Inv body { s with pos := s.start, last := s.start } s.busyBufs s.outBufs s.start s.start := by
  obtain ⟨gone,hheld,-⟩ := h.front
  rw [hb] at hheld
  obtain ⟨rfl,hpending⟩ := List.append_eq_nil_iff.mp hheld.symm
  have hkept := h.kept
  have hwaiting := h.waiting
  rw [hpending] at hkept
  rw [ho] at hwaiting
  obtain rfl : a = m := hkept
  obtain rfl : a = s.last := hwaiting
  have hpassed := h.passed
  have hreceived := h.received
  rw [read_empty] at hpassed hreceived
  refine ⟨le_rfl,?_,?_,h.first.trans h.room,?_,?_,h.stream,⟨[],?_,by simp⟩,h.nodup,h.made⟩
  · show Spans s.tag s.bufs s.pending s.start s.start
    rw [hpending]
    rfl
  · show Spans s.tag s.bufs s.outBufs s.start s.start
    rw [ho]
    rfl
  · show s.sent++readRange s.mem s.start s.start = s.passed
    rw [read_empty]
    exact hpassed
  · show s.passed++readRange s.mem s.start s.start = body.take s.responseLength
    rw [read_empty]
    exact hreceived
  · rw [hb]
    exact hpending.symm

theorem written_good (h : Inv body s s.busyBufs s.outBufs a m) (ho : s.outBufs = [])
    (hc : Counts l s) (hl : Bounded body l) (x : Answer) :
    Good body l (written body s x).1 (written body s x).2 ∧
      Untouched s (written body s x).1 := by
  rw [written]
  by_cases hb : s.busyBufs = []
  · rw [if_pos hb]
    split_ifs with hend
    · refine ⟨⟨exact_of h hc,fun _ => ?_⟩,fun _ _ _ _ _ => rfl⟩
      have hreceived := h.received
      have hwaiting := h.waiting
      rw [ho] at hwaiting
      obtain rfl : m = s.last := hwaiting
      rw [read_empty, List.append_nil] at hreceived
      rw [hreceived, allowed_eq hc]
    · exact reading_good (rewound_inv h hb ho) hc hl x
  · rw [if_neg hb]
    exact reading_good h hc hl x

theorem counts_sends (hc : Counts l s) (hs : Sends s s') : Counts l s' := by
  cases l with
  | none => exact hs.length.trans hc
  | some n =>
    obtain ⟨hle,hlen⟩ := hc
    refine ⟨hs.responseLength.trans_le hle,?_⟩
    rw [hs.length, hs.responseLength, hlen]

theorem turn_good (h : Inv body s s.busyBufs s.outBufs a m) (hc : Counts l s)
    (hl : Bounded body l) (doWrite : Bool) (x : Answer) :
    Good body l (turn body s doWrite x).1 (turn body s doWrite x).2 ∧
      Untouched s (turn body s doWrite x).1 := by
  rw [turn]
  cases doWrite with
  | false => exact reading_good h hc hl x
  | true =>
    rw [if_pos rfl]
    by_cases hsome : s.outBufs ≠ [] ∨ s.busyBufs ≠ []
    · rw [if_pos hsome]
      simp only
      obtain ⟨⟨a',hinv⟩,hsends⟩ := output_filter_inv x.bytes h rfl
      have hcounts := counts_sends hc hsends
      have hmem := hsends.mem
      have hbusy := hsends.busy
      have hout := hsends.out
      generalize ngxHttpOutputFilter s x.bytes = s' at hinv hcounts hmem hbusy hout
      rw [← hbusy, ← hout] at hinv
      split_ifs with herror
      · refine ⟨⟨exact_of hinv hcounts,nofun⟩,fun _ _ i _ _ => ?_⟩
        rw [hmem]
      · obtain ⟨hupdated,-,hnone⟩ := update_chains_inv hinv
        obtain ⟨hgood,huntouched⟩ := written_good hupdated hnone hcounts hl x
        refine ⟨hgood,fun p hp i hi hlast => (huntouched p hp i hi hlast).trans ?_⟩
        exact congrFun hmem i
    rw [if_neg hsome]
    obtain ⟨ho,-⟩ := not_or.mp hsome
    exact written_good h (not_not.mp ho) hc hl x

end Stages

section Runs

variable {body : List UInt8} {l : Option ℕ} {s₀ s : State} {stage : Stage}

theorem request_good (h : Counts l s ∧ ∃ a m, Inv body s s.busyBufs s.outBufs a m)
    (doWrite : Bool) : Good body l (processNonBufferedRequest s doWrite).1
      (processNonBufferedRequest s doWrite).2 := h

theorem finalized_good (h : Counts l s ∧ ∃ a m, Inv body s s.busyBufs s.outBufs a m) {why : Why}
    (hw : why ≠ .finished) : Good body l s (.finalized why) := by
  obtain ⟨hc,a,m,hinv⟩ := h
  exact ⟨exact_of hinv hc,fun he => absurd he hw⟩

theorem downstream_good (h : Counts l s ∧ ∃ a m, Inv body s s.busyBufs s.outBufs a m)
    (timedout : Bool) : Good body l (processNonBufferedDownstream s timedout).1
      (processNonBufferedDownstream s timedout).2 := by
  rw [processNonBufferedDownstream]
  cases timedout with
  | true => exact finalized_good h nofun
  | false => exact request_good h true

theorem upstream_good (h : Counts l s ∧ ∃ a m, Inv body s s.busyBufs s.outBufs a m)
    (timedout : Bool) : Good body l (processNonBufferedUpstream s timedout).1
      (processNonBufferedUpstream s timedout).2 := by
  rw [processNonBufferedUpstream]
  cases timedout with
  | true => exact finalized_good h nofun
  | false => exact request_good h false

theorem start_inv (h : Start body l s) : Inv body { s with last := s.pos } s.busyBufs s.outBufs
    s.pos s.pos := by
  refine ⟨h.first,?_,?_,h.pos.trans h.room,?_,?_,?_,⟨[],?_,by simp⟩,?_,?_⟩
  · show Spans s.tag s.bufs s.pending s.pos s.pos
    rw [h.pending]
    rfl
  · show Spans s.tag s.bufs s.outBufs s.pos s.pos
    rw [h.out]
    rfl
  · show s.sent++readRange s.mem s.pos s.pos = s.passed
    rw [h.sent, h.passed, read_empty]
    rfl
  · show s.passed++readRange s.mem s.pos s.pos = body.take s.responseLength
    rw [h.passed, h.received, read_empty, List.take_zero]
    rfl
  · show s.responseLength ≤ body.length
    rw [h.received]
    exact Nat.zero_le _
  · rw [h.busy, h.pending]
    rfl
  · show (s.freeBufs++s.busyBufs++s.outBufs).Nodup
    rw [h.free, h.busy, h.out]
    exact List.nodup_nil
  · show ∀ p ∈ s.freeBufs++s.busyBufs++s.outBufs, p < s.next
    rw [h.free, h.busy, h.out]
    simp

theorem start_counts (h : Start body l s) : Counts l { s with last := s.pos } := by
  have hlength := h.length
  cases l with
  | none => exact hlength
  | some n =>
    refine ⟨h.received.trans_le (Nat.zero_le n),?_⟩
    show s.length = if n = ngxMaxSizeTValue then n else n-s.responseLength
    rw [h.received, Nat.sub_zero, ite_self]
    exact hlength

theorem opening_good (h : Start body l s) (hf : Fits body l (s.last-s.pos)) (x : Opening) :
    Good body l (sendResponse s x).1 (sendResponse s x).2 := by
  have hinv := start_inv h
  have hcounts := start_counts h
  have hexact := exact_of hinv hcounts
  have hrewound : Counts l { s with pos := s.start, last := s.start } ∧ ∃ a m, Inv body
      { s with pos := s.start, last := s.start } s.busyBufs s.outBufs a m :=
    ⟨hcounts,s.start,s.start,
      rewound_inv (s := { s with last := s.pos }) hinv h.busy h.out⟩
  rw [sendResponse]
  simp only
  split_ifs with hnodelay hn hspecial hready
  · exact ⟨⟨hexact.passed,hexact.kept,hexact.length⟩,nofun⟩
  · have hlen := read_length s.mem s.pos s.last
    have hdata : readRange s.mem s.pos s.last =
        (body.drop s.responseLength).take (readRange s.mem s.pos s.last).length := by
      rw [hlen, h.received, List.drop_zero]
      exact h.preread
    have hread : readRange s.mem s.pos (s.pos+(readRange s.mem s.pos s.last).length) =
        readRange s.mem s.pos s.last := by
      rw [hlen, Nat.add_sub_of_le h.pos]
    have hfit : ∀ k, l = some k → s.responseLength+(readRange s.mem s.pos s.last).length ≤ k :=
      fun k hk => by
        rw [h.received, Nat.zero_add, hlen]
        exact (hf k hk).1
    rw [← hlen] at hn ⊢
    generalize readRange s.mem s.pos s.last = data at hdata hread hfit hlen hn
    cases hfilter : nonBufferedFilter x.alloc { s with
        last := s.pos, responseLength := s.responseLength+data.length } data.length with
    | some s' =>
      have hroom : s.pos+data.length ≤ s.final := by
        rw [hlen, Nat.add_sub_of_le h.pos]
        exact h.room
      obtain ⟨hinv',hfiltered⟩ : Inv body s' s.busyBufs s'.outBufs s.pos s.pos ∧
          Filtered body { s with last := s.pos } s' s.mem data.length s.busyBufs :=
        filter_inv hinv (fun he => hn (by rw [he]; rfl)) (fun _ _ => rfl) hread hdata hroom hfilter
      refine downstream_good ⟨counts_step hcounts h.off hfit hfiltered.responseLength
        hfiltered.length,s.pos,s.pos,?_⟩ x.clientTimedout
      rw [hfiltered.busy]
      exact hinv'
    | none =>
      refine ⟨⟨?_,hexact.kept,fun k hk => ⟨hfit k hk,(hexact.length k hk).2.1,?_⟩⟩,nofun⟩
      · rw [show _ = s.passed from rfl, h.passed]
        exact List.nil_prefix
      · have := (hexact.length k hk).2.2
        show k ≤ s.length+(s.responseLength+data.length)
        simp only at this
        omega
  · exact finalized_good hrewound Why.noConfusion
  · exact upstream_good hrewound x.upstreamTimedout
  · exact hrewound

theorem send_byte_good (h : Counts l s ∧ ∃ a m, Inv body s s.busyBufs s.outBufs a m) :
    Counts l (sendByte s) ∧ ∃ a m,
      Inv body (sendByte s) (sendByte s).busyBufs (sendByte s).outBufs a m := by
  obtain ⟨hc,a,m,hinv⟩ := h
  have hsends := send_byte_sends s
  obtain ⟨a',ha⟩ := send_byte_inv hinv
  rw [hsends.busy, hsends.out]
  exact ⟨counts_sends hc hsends,a',m,ha⟩

theorem reached_good (hs : Start body l s₀) (hf : Fits body l (s₀.last-s₀.pos))
    (h : Reached body s₀ s stage) : Good body l s stage := by
  have hl : Bounded body l := fun n hn => ⟨hs.off n hn,(hf n hn).2⟩
  induction h with
  | opening a => exact opening_good hs hf a
  | turn s doWrite a h ih =>
    obtain ⟨hc,_,_,hinv⟩ := ih
    exact (turn_good hinv hc hl doWrite a).1
  | downstream s timedout h ih => exact downstream_good ih timedout
  | upstream s timedout h ih => exact upstream_good ih timedout
  | handleError s h ih => exact finalized_good ih Why.noConfusion
  | flags s stage read h hn ih =>
    have hflags : ∀ a m, Inv body s s.busyBufs s.outBufs a m →
        Inv body { s with read := read } s.busyBufs s.outBufs a m := fun _ _ hinv =>
      other_inv hinv s.length read
    cases stage with
    | finalized why => exact absurd rfl (hn why)
    | loop doWrite =>
      obtain ⟨hc,a,m,hinv⟩ := ih
      exact ⟨hc,a,m,hflags a m hinv⟩
    | waiting =>
      obtain ⟨hc,a,m,hinv⟩ := ih
      exact ⟨hc,a,m,hflags a m hinv⟩
  | sends s stage h hn ih =>
    cases stage with
    | finalized why => exact absurd rfl (hn why)
    | loop doWrite => exact send_byte_good ih
    | waiting => exact send_byte_good ih

/-- In every state the bytes passed on are as they should be, a turn does not write what busy
buffers refer to, and all bytes have been passed on when the end of the response is reached. -/
structure Law (body : List UInt8) (l : Option ℕ) (s : State) (stage : Stage) : Prop where
  exact : Exact body l s
  busy : ∀ doWrite a, stage = .loop doWrite → Untouched s (turn body s doWrite a).1
  finished : stage = .finalized .finished → s.passed = body.take (allowed l s.responseLength)

/-- The law holds in every run in which the bytes that come with the header fit the length. -/
theorem non_buffered (hs : Start body l s₀) (hf : Fits body l (s₀.last-s₀.pos))
    (h : Reached body s₀ s stage) : Law body l s stage := by
  have hl : Bounded body l := fun n hn => ⟨hs.off n hn,(hf n hn).2⟩
  have hgood := reached_good hs hf h
  cases stage with
  | finalized why =>
    obtain ⟨hexact,hfinished⟩ := hgood
    exact ⟨hexact,nofun,fun he => hfinished (Stage.finalized.inj he)⟩
  | loop doWrite =>
    obtain ⟨hc,a,m,hinv⟩ := hgood
    exact ⟨exact_of hinv hc,fun d x _ => (turn_good hinv hc hl d x).2,nofun⟩
  | waiting =>
    obtain ⟨hc,a,m,hinv⟩ := hgood
    exact ⟨exact_of hinv hc,nofun,nofun⟩

end Runs

def preread (l : ℕ) : State :=
  ⟨fun i => i.toUInt8,0,1,6,8,l,0,1,fun _ => ngxCallocBuf,0,[],[],[],
    ⟨false,false,false⟩,[],[],[]⟩

def fiveBytes : List UInt8 := [1,2,3,4,5]

theorem preread_start (l : ℕ) (h : l ≤ ngxMaxSizeTValue) :
    Start fiveBytes (some l) (preread l) :=
  ⟨Nat.zero_le 1,Nat.le_of_ble_eq_true rfl,Nat.le_of_ble_eq_true rfl,rfl,rfl,
    fun _ hn => by cases hn; exact h,rfl,rfl,rfl,rfl,rfl,rfl,rfl⟩

def noErrors : Opening := ⟨false,true,false,false,false⟩

def allSent : Answer := ⟨false,5,.again,⟨false,false,false⟩,true⟩

theorem non_buffered_small : Law fiveBytes (some 5)
    (turn fiveBytes (sendResponse (preread 5) noErrors).1 true allSent).1
    (turn fiveBytes (sendResponse (preread 5) noErrors).1 true allSent).2 :=
  non_buffered (preread_start 5 (by decide)) (fun n hn => by cases hn; decide)
    (.turn _ true allSent (.opening noErrors))

/-- Five bytes with the header where the length is four: all are passed on, and the length left
is taken for 2^64-1 bytes. -/
theorem long_preread : Start fiveBytes (some 4) (preread 4) ∧
    ∃ s stage, Reached fiveBytes (preread 4) s stage ∧ s.length = 2^64-1 ∧
      ¬ s.passed <+: fiveBytes.take (allowed (some 4) s.responseLength) := by
  refine ⟨preread_start 4 (by decide),_,_,.turn _ true allSent (.opening noErrors),?_,?_⟩
  · decide
  · decide

end Nginx.NonBufferedLaw
