import Nginx.OutputChain
import Mathlib.Data.List.Nodup

/-!
# What the output chain passes on

What has been passed, what a call has collected and what is left in `ctx->in` are together
the input, in order. A buffer of the chain is idle, or holds bytes on their way, in one
place at a time. The mark stays behind the last byte.
-/

set_option autoImplicit false

namespace Nginx.OutputChainLaw
open Nginx.BufChain Nginx.OutputChain

def Marked (last : Bool) (marks : List Bool) : Prop :=
  ∃ k, marks = List.replicate k false++(if last then [true] else [])

theorem marked_cons (last a : Bool) (marks : List Bool) (hne : marks ≠ []) :
    Marked last (a::marks) ↔ a = false ∧ Marked last marks := by
  constructor
  · rintro ⟨k,hk⟩
    cases k with
    | zero =>
      split_ifs at hk
      · exact absurd (List.cons.inj hk).2 hne
      · cases hk
    | succ k =>
      rw [List.replicate_succ, List.cons_append] at hk
      exact ⟨(List.cons.inj hk).1,k,(List.cons.inj hk).2⟩
  · rintro ⟨rfl,k,rfl⟩
    exact ⟨k+1,rfl⟩

theorem marked_false (last : Bool) (marks : List Bool) :
    Marked last (false::marks) ↔ Marked last marks := by
  constructor
  · rintro ⟨k,hk⟩
    cases k with
    | zero => split_ifs at hk <;> cases hk
    | succ k => exact ⟨k,(List.cons.inj hk).2⟩
  · rintro ⟨k,rfl⟩
    exact ⟨k+1,rfl⟩

theorem marked_append (last : Bool) (xs ys : List Bool) (hne : ys ≠ []) :
    Marked last (xs++ys) ↔ (∀ x ∈ xs, x = false) ∧ Marked last ys := by
  induction xs with
  | nil => exact ⟨fun h => ⟨nofun,h⟩,And.right⟩
  | cons x xs ih =>
    rw [List.cons_append, marked_cons last x _ (List.append_ne_nil_of_right_ne_nil xs hne), ih,
      List.forall_mem_cons, and_assoc]

theorem marked_front (last x : Bool) (xs ys : List Bool) (h : Marked last (xs++x::ys))
    (hlast : last = false ∨ ys ≠ []) : x = false := by
  have hx := ((marked_append last xs (x::ys) (List.cons_ne_nil x ys)).mp h).2
  rcases hlast with rfl | hne
  · obtain ⟨k,hk⟩ := hx
    rw [if_neg Bool.false_ne_true, List.append_nil] at hk
    exact List.eq_of_mem_replicate (hk ▸ List.mem_cons_self)
  · exact ((marked_cons last x ys hne).mp hx).1

theorem marked_drop (last : Bool) (xs ys : List Bool) (h : Marked last (xs++false::ys)) :
    Marked last (xs++ys) := by
  induction xs with
  | nil => exact (marked_false last ys).mp h
  | cons x xs ih =>
    obtain ⟨rfl,hrest⟩ := (marked_cons last x _
      (List.append_ne_nil_of_right_ne_nil xs (List.cons_ne_nil false ys))).mp h
    exact (marked_false last _).mpr (ih hrest)

theorem marked_insert (last x : Bool) (xs ys : List Bool) (h : Marked last (xs++x::ys)) :
    Marked last (xs++false::x::ys) := by
  obtain ⟨hxs,hys⟩ := (marked_append last xs (x::ys) (List.cons_ne_nil x ys)).mp h
  exact (marked_append last xs _ (List.cons_ne_nil _ _)).mpr ⟨hxs,(marked_false last _).mpr hys⟩

theorem marked_join (last : Bool) (xs ys : List Bool) (h : Marked false xs) (h' : Marked last ys) :
    Marked last (xs++ys) := by
  obtain ⟨k,rfl⟩ := h
  obtain ⟨j,rfl⟩ := h'
  refine ⟨k+j,?_⟩
  rw [if_neg Bool.false_ne_true, List.append_nil, List.replicate_add, List.append_assoc]

def held (s : State) (out : List Ptr) : List Ptr := s.free++s.buf.toList++s.busy++out

/-- What holds while a call has collected the chain `out`. -/
structure Inv (c : Config) (files : Option ℕ → ℕ → ℕ) (s : State) (out : List Ptr) (input : List ℕ)
    (last : Bool) : Prop where
  bytes : s.behind.bytes++contents files s.behind.bufs out++
    contents files s.behind.bufs s.ins = input
  marks : Marked last (s.behind.passed.map Prod.snd++
    out.map (fun p => (s.behind.bufs p).lastBuf)++s.ins.map (fun p => (s.behind.bufs p).lastBuf))
  clean : last = false ∨ s.ins ≠ [] → ∀ n < s.next, (s.behind.bufs (.own n)).lastBuf = false
  full : ∀ p ∈ s.ins, (s.behind.bufs p).lastBuf = true → ngxBufSpecial (s.behind.bufs p) = true ∨
    ngxBufSize (s.behind.bufs p) ≠ 0
  once : ∀ n, (held s out).count (.own n) ≤ 1
  below : ∀ n, .own n ∈ held s out ∨ .own n ∈ s.behind.pending → n < s.next
  idle : ∀ p ∈ s.free++s.buf.toList, (∃ n, p = .own n) ∧ (s.behind.bufs p).data = []
  own : ∀ n < s.next, (s.behind.bufs (.own n)).temporary = true
  given : ∀ p ∈ s.ins, ∃ n, p = .given n
  nodup : s.ins.Nodup
  apart : ∀ p ∈ s.ins, p ∉ s.behind.pending ∧ p ∉ out
  sound : ∀ p ∈ s.ins, Sound (s.behind.bufs p)
  tag : ∀ n, (s.behind.bufs (.given n)).tag ≠ c.tag

structure Like (b b' : Buf) : Prop where
  content : ∀ files, content files b' = content files b
  special : ngxBufSpecial b' = ngxBufSpecial b
  lastBuf : b'.lastBuf = b.lastBuf
  tag : b'.tag = b.tag
  sound : Sound b → Sound b'

theorem Like.size (b b' : Buf) (h : Like b b') : ngxBufSize b' = ngxBufSize b := by
  rw [← content_length (fun _ _ => 0), ← content_length (fun _ _ => 0), h.content]

theorem like_self (b : Buf) : Like b b := ⟨fun _ => rfl,rfl,rfl,rfl,id⟩

theorem as_is_like (c : Config) (b : Buf) : Like b (ngxOutputChainAsIs c b).2 := by
  rw [ngxOutputChainAsIs]
  by_cases hspecial : ngxBufSpecial b = true
  · rw [if_pos hspecial]
    exact like_self b
  rw [if_neg hspecial]
  by_cases hdirectio : (b.inFile && fileDirectio c b) = true
  · rw [if_pos hdirectio]
    exact like_self b
  rw [if_neg hdirectio]
  by_cases hmemory : (!c.sendfile && !ngxBufInMemory b) = true
  · rw [if_pos hmemory]
    exact like_self b
  rw [if_neg hmemory]
  have hlike : Like b (if c.sendfile then b else { b with inFile := false }) := by
    by_cases hsendfile : c.sendfile = true
    · rw [if_pos hsendfile]
      exact like_self b
    rw [if_neg hsendfile]
    have hin : ngxBufInMemory b = true := by
      cases hb : ngxBufInMemory b with
      | true => rfl
      | false => exact absurd (by rw [hb, eq_false_of_ne_true hsendfile]; rfl) hmemory
    refine ⟨fun files => ?_,?_,rfl,rfl,fun _ => Or.inl hin⟩
    · rw [content, content, if_pos hin]
      exact if_pos hin
    · show ((b.flush || b.lastBuf || b.sync) && !ngxBufInMemory b && !false) = _
      rw [ngxBufSpecial, hin]
      simp
  generalize (if c.sendfile then b else { b with inFile := false }) = b' at hlike ⊢
  simp only
  split_ifs <;> exact hlike

/-- What holds besides where no buffer of the chain is without room. -/
structure Kept (files : Option ℕ → ℕ → ℕ) (s : State) (out : List Ptr) : Prop where
  intact : Intact files s.behind
  pending : ∀ n, .own n ∈ s.behind.pending → .own n ∈ s.busy ∧
    ngxBufSize (s.behind.bufs (.own n)) ≠ 0
  room : ∀ n < s.next, 0 < (s.behind.bufs (.own n)).room
  nodup : out.Nodup
  apart : ∀ p ∈ out, p ∉ s.behind.pending
  sound : ∀ p ∈ out, Sound (s.behind.bufs p)
  filled : ∀ n, .own n ∈ out → ngxBufSize (s.behind.bufs (.own n)) ≠ 0

theorem update_own (bufs : Ptr → Buf) (n m : ℕ) (b : Buf) :
    Function.update bufs (.own n) b (.given m) = bufs (.given m) :=
  Function.update_of_ne (by simp) _ _

section Turns
variable (c : Config) (files : Option ℕ → ℕ → ℕ) (s : State) (out : List Ptr) (input : List ℕ)
  (last : Bool) (p : Ptr) (rest : List Ptr)

theorem held_count (n : ℕ) : (held s out).count (.own n) =
    s.free.count (.own n)+s.buf.toList.count (.own n)+s.busy.count (.own n)+out.count (.own n) := by
  rw [held, List.count_append, List.count_append, List.count_append]

theorem front_given (h : Inv c files s out input last) (hins : s.ins = p::rest) :
    (∃ n, p = .given n) ∧ p ∉ rest ∧ p ∉ s.behind.pending ∧ p ∉ out ∧
      Sound (s.behind.bufs p) := by
  have hp : p ∈ s.ins := by
    rw [hins]
    exact List.mem_cons_self
  have hnodup := h.nodup
  rw [hins] at hnodup
  exact ⟨h.given p hp,(List.nodup_cons.mp hnodup).1,(h.apart p hp).1,(h.apart p hp).2,
    h.sound p hp⟩

theorem rewrite_inv (h : Inv c files s out input last) (hp : p ∉ s.behind.pending) (hout : p ∉ out)
    (hgiven : ∃ n, p = .given n) (b : Buf) (hlike : Like (s.behind.bufs p) b) :
    Inv c files (s.set p b) out input last := by
  obtain ⟨m,rfl⟩ := hgiven
  have hall : ∀ q, Like (s.behind.bufs q) (Function.update s.behind.bufs (.given m) b q) := by
    intro q
    by_cases hq : q = .given m
    · subst hq
      rw [Function.update_self]
      exact hlike
    · rw [Function.update_of_ne hq]
      exact like_self _
  have hown : ∀ n, Function.update s.behind.bufs (.given m) b (.own n) = s.behind.bufs (.own n) :=
    fun n => Function.update_of_ne (by simp) _ _
  have hcontents : ∀ ps, contents files (Function.update s.behind.bufs (.given m) b) ps =
      contents files s.behind.bufs ps :=
    fun ps => List.flatMap_congr (fun q _ => (hall q).content files)
  have hmarks : ∀ ps : List Ptr, ps.map (fun q => (Function.update s.behind.bufs (.given m) b q).lastBuf) =
      ps.map (fun q => (s.behind.bufs q).lastBuf) :=
    fun ps => List.map_congr_left (fun q _ => (hall q).lastBuf)
  refine ⟨?_,?_,fun hl n hn => ?_,fun q hq hmark => ?_,h.once,h.below,fun q hq => ?_,
    fun n hn => ?_,h.given,h.nodup,h.apart,fun q hq => (hall q).sound (h.sound q hq),
    fun n => ?_⟩
  · show s.behind.bytes++contents files (Function.update s.behind.bufs (.given m) b) out++
      contents files (Function.update s.behind.bufs (.given m) b) s.ins = input
    rw [hcontents, hcontents]
    exact h.bytes
  · show Marked last (s.behind.passed.map Prod.snd++
      out.map (fun q => (Function.update s.behind.bufs (.given m) b q).lastBuf)++
      s.ins.map (fun q => (Function.update s.behind.bufs (.given m) b q).lastBuf))
    rw [hmarks, hmarks]
    exact h.marks
  · show (Function.update s.behind.bufs (.given m) b (.own n)).lastBuf = false
    rw [hown]
    exact h.clean hl n hn
  · show ngxBufSpecial (Function.update s.behind.bufs (.given m) b q) = true ∨
      ngxBufSize (Function.update s.behind.bufs (.given m) b q) ≠ 0
    rw [(hall q).special, (hall q).size]
    exact h.full q hq ((hall q).lastBuf ▸ hmark)
  · obtain ⟨⟨n,rfl⟩,hdata⟩ := h.idle q hq
    refine ⟨⟨n,rfl⟩,?_⟩
    show (Function.update s.behind.bufs (.given m) b (.own n)).data = []
    rw [hown]
    exact hdata
  · show (Function.update s.behind.bufs (.given m) b (.own n)).temporary = true
    rw [hown]
    exact h.own n hn
  · show (Function.update s.behind.bufs (.given m) b (.given n)).tag ≠ c.tag
    rw [(hall _).tag]
    exact h.tag n

theorem rewrite_kept (h : Kept files s out) (hp : p ∉ s.behind.pending) (hout : p ∉ out)
    (hgiven : ∃ n, p = .given n) (b : Buf) : Kept files (s.set p b) out := by
  obtain ⟨m,rfl⟩ := hgiven
  have hown : ∀ n, Function.update s.behind.bufs (.given m) b (.own n) = s.behind.bufs (.own n) :=
    fun n => Function.update_of_ne (by simp) _ _
  refine ⟨write_intact files s.behind _ h.intact (fun q hq =>
      Function.update_of_ne (ne_of_mem_of_not_mem hq hp) _ _),fun n hn => ?_,fun n hn => ?_,
    h.nodup,h.apart,fun q hq => ?_,fun n hn => ?_⟩
  · show .own n ∈ s.busy ∧ ngxBufSize (Function.update s.behind.bufs (.given m) b (.own n)) ≠ 0
    rw [hown]
    exact h.pending n hn
  · show 0 < (Function.update s.behind.bufs (.given m) b (.own n)).room
    rw [hown]
    exact h.room n hn
  · show Sound (Function.update s.behind.bufs (.given m) b q)
    rw [Function.update_of_ne (ne_of_mem_of_not_mem hq hout)]
    exact h.sound q hq
  · show ngxBufSize (Function.update s.behind.bufs (.given m) b (.own n)) ≠ 0
    rw [hown]
    exact h.filled n hn

theorem drop_inv (h : Inv c files s out input last) (hins : s.ins = p::rest)
    (hsize : ngxBufSize (s.behind.bufs p) = 0) (hspecial : ngxBufSpecial (s.behind.bufs p) = false) :
    Inv c files { s with ins := rest } out input last := by
  have hin : ∀ q ∈ rest, q ∈ s.ins := by
    intro q hq
    rw [hins]
    exact List.mem_cons_of_mem p hq
  have hp : p ∈ s.ins := by
    rw [hins]
    exact List.mem_cons_self
  have hne : s.ins ≠ [] := List.ne_nil_of_mem hp
  have hmark : (s.behind.bufs p).lastBuf = false := by
    by_contra hmark
    rw [Bool.not_eq_false] at hmark
    rcases h.full p hp hmark with hs | hs
    · rw [hspecial] at hs
      cases hs
    · exact hs hsize
  have hbytes := h.bytes
  have hmarks := h.marks
  have hnodup := h.nodup
  rw [hins] at hbytes hmarks hnodup
  refine ⟨?_,?_,fun _ => h.clean (Or.inr hne),fun q hq => h.full q (hin q hq),h.once,h.below,
    h.idle,h.own,fun q hq => h.given q (hin q hq),(List.nodup_cons.mp hnodup).2,
    fun q hq => h.apart q (hin q hq),fun q hq => h.sound q (hin q hq),h.tag⟩
  · rw [← hbytes]
    show _ = _++(content files (s.behind.bufs p)++contents files s.behind.bufs rest)
    rw [content_empty files _ hsize]
    rfl
  · rw [List.map_cons, hmark] at hmarks
    exact marked_drop last _ _ hmarks

theorem pass_as_is_inv (h : Inv c files s out input last) (hins : s.ins = p::rest) :
    Inv c files { s with ins := rest } (out++[p]) input last := by
  obtain ⟨⟨m,rfl⟩,hrest,-,-,-⟩ := front_given c files s out input last p rest h hins
  have hin : ∀ q ∈ rest, q ∈ s.ins := by
    intro q hq
    rw [hins]
    exact List.mem_cons_of_mem _ hq
  have hne : s.ins ≠ [] := by
    rw [hins]
    exact List.cons_ne_nil _ _
  have hbytes := h.bytes
  have hmarks := h.marks
  have hnodup := h.nodup
  rw [hins] at hbytes hmarks hnodup
  have hmem : ∀ n, .own n ∈ held { s with ins := rest } (out++[.given m]) → .own n ∈ held s out := by
    intro n hn
    rcases List.mem_append.mp hn with hn | hn
    · exact List.mem_append_left out hn
    rcases List.mem_append.mp hn with hn | hn
    · exact List.mem_append_right _ hn
    · cases List.mem_singleton.mp hn
  refine ⟨?_,?_,fun _ => h.clean (Or.inr hne),fun q hq => h.full q (hin q hq),fun n => ?_,
    fun n hn => h.below n (hn.imp (hmem n) id),h.idle,h.own,fun q hq => h.given q (hin q hq),
    (List.nodup_cons.mp hnodup).2,fun q hq => ⟨(h.apart q (hin q hq)).1,fun hm => ?_⟩,
    fun q hq => h.sound q (hin q hq),h.tag⟩
  · rw [← hbytes]
    show s.behind.bytes++contents files s.behind.bufs (out++[.given m])++_ = _
    rw [contents_snoc, ← List.append_assoc, List.append_assoc]
    rfl
  · show Marked last (s.behind.passed.map Prod.snd++(out++[Ptr.given m]).map _++rest.map _)
    rw [List.map_append, ← List.append_assoc, List.append_assoc]
    exact hmarks
  · have hold := h.once n
    rw [held_count] at hold
    rw [held_count, List.count_append, List.count_singleton]
    simpa using hold
  · rcases List.mem_append.mp hm with hm | hm
    · exact (h.apart q (hin q hq)).2 hm
    · rw [List.mem_singleton.mp hm] at hq
      exact hrest hq

theorem pass_as_is_kept (h : Inv c files s out input last) (hk : Kept files s out)
    (hins : s.ins = p::rest) : Kept files { s with ins := rest } (out++[p]) := by
  obtain ⟨⟨m,rfl⟩,-,hpending,hout,hsound⟩ := front_given c files s out input last p rest h hins
  refine ⟨hk.intact,hk.pending,hk.room,?_,fun q hq => ?_,fun q hq => ?_,fun n hn => ?_⟩
  · refine List.nodup_append.mpr ⟨hk.nodup,List.nodup_singleton _,fun q hq r hr => ?_⟩
    rw [List.mem_singleton.mp hr]
    exact ne_of_mem_of_not_mem hq hout
  · rcases List.mem_append.mp hq with hq | hq
    · exact hk.apart q hq
    · rw [List.mem_singleton.mp hq]
      exact hpending
  · rcases List.mem_append.mp hq with hq | hq
    · exact hk.sound q hq
    · rw [List.mem_singleton.mp hq]
      exact hsound
  · rcases List.mem_append.mp hn with hn | hn
    · exact hk.filled n hn
    · cases List.mem_singleton.mp hn

theorem set_directio_inv (h : Inv c files s out input last) (directio : Bool) :
    Inv c files { s with directio := directio } out input last :=
  ⟨h.bytes,h.marks,h.clean,h.full,h.once,h.below,h.idle,h.own,h.given,h.nodup,h.apart,
    h.sound,h.tag⟩

theorem set_directio_kept (h : Kept files s out) (directio : Bool) :
    Kept files { s with directio := directio } out :=
  ⟨h.intact,h.pending,h.room,h.nodup,h.apart,h.sound,h.filled⟩

theorem new_absent (h : Inv c files s out input last) :
    .own s.next ∉ held s out ∧ .own s.next ∉ s.behind.pending :=
  ⟨fun hm => absurd (h.below s.next (Or.inl hm)) (Nat.lt_irrefl _),
    fun hm => absurd (h.below s.next (Or.inr hm)) (Nat.lt_irrefl _)⟩

def made (b : Buf) (allocated : ℕ) : State :=
  { s.set (.own s.next) b with next := s.next+1, buf := some (.own s.next), allocated := allocated }

theorem make_inv (h : Inv c files s out input last) (hbuf : s.buf = none) (b : Buf) (allocated : ℕ)
    (htemporary : b.temporary = true) (hdata : b.data = []) (hmark : b.lastBuf = false) :
    Inv c files (made s b allocated) out input last := by
  obtain ⟨hheld,hpending⟩ := new_absent c files s out input last h
  have hout : .own s.next ∉ out := fun hm => hheld (List.mem_append_right _ hm)
  have hins : .own s.next ∉ s.ins := by
    intro hm
    obtain ⟨n,hn⟩ := h.given _ hm
    cases hn
  have hother : ∀ q, q ≠ .own s.next → Function.update s.behind.bufs (.own s.next) b q =
      s.behind.bufs q := fun q hq => Function.update_of_ne hq _ _
  have hmem : ∀ n, .own n ∈ held (made s b allocated) out →
      n = s.next ∨ .own n ∈ held s out := by
    intro n hn
    rcases List.mem_append.mp hn with hn | hn
    · rcases List.mem_append.mp hn with hn | hn
      · rcases List.mem_append.mp hn with hn | hn
        · exact Or.inr (List.mem_append_left _ (List.mem_append_left _ (List.mem_append_left _ hn)))
        · cases List.mem_singleton.mp hn
          exact Or.inl rfl
      · exact Or.inr (List.mem_append_left _ (List.mem_append_right _ hn))
    · exact Or.inr (List.mem_append_right _ hn)
  refine ⟨?_,?_,fun hl n hn => ?_,fun q hq => ?_,fun n => ?_,fun n hn => ?_,fun q hq => ?_,
    fun n hn => ?_,h.given,h.nodup,h.apart,fun q hq => ?_,fun n => ?_⟩
  · show s.behind.bytes++contents files (Function.update s.behind.bufs (.own s.next) b) out++
      contents files (Function.update s.behind.bufs (.own s.next) b) s.ins = input
    rw [contents_congr files s.behind.bufs _ out (fun q hq => hother q (ne_of_mem_of_not_mem hq hout)),
      contents_congr files s.behind.bufs _ s.ins
        (fun q hq => hother q (ne_of_mem_of_not_mem hq hins))]
    exact h.bytes
  · show Marked last (s.behind.passed.map Prod.snd++
      out.map (fun q => (Function.update s.behind.bufs (.own s.next) b q).lastBuf)++
      s.ins.map (fun q => (Function.update s.behind.bufs (.own s.next) b q).lastBuf))
    rw [List.map_congr_left (fun q hq => congrArg Buf.lastBuf
        (hother q (ne_of_mem_of_not_mem hq hout))),
      List.map_congr_left (fun q hq => congrArg Buf.lastBuf
        (hother q (ne_of_mem_of_not_mem hq hins)))]
    exact h.marks
  · show (Function.update s.behind.bufs (.own s.next) b (.own n)).lastBuf = false
    by_cases he : n = s.next
    · rw [he, Function.update_self]
      exact hmark
    · rw [hother _ (by simpa using he)]
      exact h.clean hl n (Nat.lt_of_le_of_ne (Nat.le_of_lt_succ hn) he)
  · show (Function.update s.behind.bufs (.own s.next) b q).lastBuf = true → _
    rw [show (made s b allocated).behind.bufs q = s.behind.bufs q from
        hother q (ne_of_mem_of_not_mem hq hins), hother q (ne_of_mem_of_not_mem hq hins)]
    exact h.full q hq
  · have hold := h.once n
    have hcount := held_count s out n
    rw [held_count]
    rw [hbuf] at hcount
    show s.free.count (.own n)+[Ptr.own s.next].count (.own n)+s.busy.count (.own n)+
      out.count (.own n) ≤ 1
    by_cases he : n = s.next
    · subst he
      have hzero := List.count_eq_zero_of_not_mem hheld
      rw [List.count_singleton_self]
      omega
    have hnew : [Ptr.own s.next].count (.own n) = 0 :=
      List.count_eq_zero_of_not_mem (by simpa using he)
    simp only [Option.toList_none, List.count_nil] at hcount
    omega
  · rcases hn with hn | hn
    · rcases hmem n hn with rfl | hn
      · exact Nat.lt_succ_self _
      · exact Nat.lt_succ_of_lt (h.below n (Or.inl hn))
    · exact Nat.lt_succ_of_lt (h.below n (Or.inr hn))
  · rcases List.mem_append.mp hq with hq | hq
    · obtain ⟨⟨n,rfl⟩,hempty⟩ := h.idle q (List.mem_append_left _ hq)
      refine ⟨⟨n,rfl⟩,?_⟩
      show (Function.update s.behind.bufs (.own s.next) b (.own n)).data = []
      rw [hother _ (ne_of_mem_of_not_mem (List.mem_append_left _ (List.mem_append_left _
        (List.mem_append_left _ hq))) hheld)]
      exact hempty
    rw [List.mem_singleton.mp hq]
    refine ⟨⟨_,rfl⟩,?_⟩
    show (Function.update s.behind.bufs (.own s.next) b (.own s.next)).data = []
    rw [Function.update_self]
    exact hdata
  · show (Function.update s.behind.bufs (.own s.next) b (.own n)).temporary = true
    by_cases he : n = s.next
    · rw [he, Function.update_self]
      exact htemporary
    · rw [hother _ (by simpa using he)]
      exact h.own n (Nat.lt_of_le_of_ne (Nat.le_of_lt_succ hn) he)
  · show Sound (Function.update s.behind.bufs (.own s.next) b q)
    rw [hother q (ne_of_mem_of_not_mem hq hins)]
    exact h.sound q hq
  · show (Function.update s.behind.bufs (.own s.next) b (.given n)).tag ≠ c.tag
    rw [hother _ (by simp)]
    exact h.tag n

theorem make_kept (h : Inv c files s out input last) (hk : Kept files s out) (b : Buf)
    (allocated : ℕ) (hroom : 0 < b.room) :
    Kept files (made s b allocated) out := by
  obtain ⟨hheld,hpending⟩ := new_absent c files s out input last h
  have hout : .own s.next ∉ out := fun hm => hheld (List.mem_append_right _ hm)
  have hother : ∀ q, q ≠ .own s.next → Function.update s.behind.bufs (.own s.next) b q =
      s.behind.bufs q := fun q hq => Function.update_of_ne hq _ _
  refine ⟨write_intact files s.behind _ hk.intact (fun q hq =>
      hother q (ne_of_mem_of_not_mem hq hpending)),fun n hn => ?_,fun n hn => ?_,hk.nodup,hk.apart,
    fun q hq => ?_,fun n hn => ?_⟩
  · show .own n ∈ s.busy ∧ ngxBufSize (Function.update s.behind.bufs (.own s.next) b (.own n)) ≠ 0
    rw [hother _ (ne_of_mem_of_not_mem hn hpending)]
    exact hk.pending n hn
  · show 0 < (Function.update s.behind.bufs (.own s.next) b (.own n)).room
    by_cases he : n = s.next
    · rw [he, Function.update_self]
      exact hroom
    · rw [hother _ (by simpa using he)]
      exact hk.room n (Nat.lt_of_le_of_ne (Nat.le_of_lt_succ hn) he)
  · show Sound (Function.update s.behind.bufs (.own s.next) b q)
    rw [hother q (ne_of_mem_of_not_mem hq hout)]
    exact hk.sound q hq
  · show ngxBufSize (Function.update s.behind.bufs (.own s.next) b (.own n)) ≠ 0
    rw [hother _ (ne_of_mem_of_not_mem hn hout)]
    exact hk.filled n hn

theorem take_free_inv (h : Inv c files s out input last) (hbuf : s.buf = none) (q : Ptr)
    (free : List Ptr) (hfree : s.free = q::free) :
    Inv c files { s with buf := some q, free := free } out input last := by
  have hcount : ∀ n, (held { s with buf := some q, free := free } out).count (.own n) =
      (held s out).count (.own n) := by
    intro n
    rw [held_count, held_count, hbuf, hfree]
    show free.count _+[q].count _+_+_ = (q::free).count _+0+_+_
    simp only [List.count_cons, List.count_nil]
    omega
  have hidle : ∀ r ∈ free++[q], r ∈ s.free++s.buf.toList := by
    intro r hr
    rw [hfree]
    refine List.mem_append_left _ ?_
    rcases List.mem_append.mp hr with hr | hr
    · exact List.mem_cons_of_mem q hr
    · rw [List.mem_singleton.mp hr]
      exact List.mem_cons_self
  refine ⟨h.bytes,h.marks,h.clean,h.full,fun n => by rw [hcount]; exact h.once n,fun n hn => ?_,
    fun r hr => h.idle r (hidle r hr),h.own,h.given,h.nodup,h.apart,h.sound,h.tag⟩
  refine h.below n (hn.imp (fun hn => ?_) id)
  rw [← List.count_pos_iff, ← hcount]
  exact List.count_pos_iff.mpr hn

theorem take_free_kept (h : Kept files s out) (q : Ptr) (free : List Ptr) :
    Kept files { s with buf := some q, free := free } out :=
  ⟨h.intact,h.pending,h.room,h.nodup,h.apart,h.sound,h.filled⟩

structure Found (s s' : State) (q : Option Ptr) : Prop where
  buf : ∀ r, q = some r → s'.buf = some r
  ins : s'.ins = s.ins
  given : ∀ n, s'.behind.bufs (.given n) = s.behind.bufs (.given n)
  passed : s'.behind.passed = s.behind.passed

theorem aligned_pos (b : Buf) (bsize size : ℕ) (hb : 0 < bsize)
    (h : ngxOutputChainAlignFileBuf c b bsize = some size) : 0 < size := by
  have hland : Nat.land b.filePos (c.alignment-1) ≤ c.alignment-1 := Nat.and_le_right
  rw [ngxOutputChainAlignFileBuf] at h
  simp only at h
  split_ifs at h <;> cases h <;> omega

theorem get_buf_size_pos (directio : Bool) (b : Buf) (bsize : ℕ) (hb : 0 < bsize) (hc : 0 < c.size) :
    0 < (getBufSize c directio b bsize).1 := by
  rw [getBufSize]
  split_ifs <;> assumption

theorem get_buf_cases (b : Buf) (bsize : ℕ) :
    (∃ q, s.buf = some q ∧ s.getBuf c out b bsize = (some q, s)) ∨
    (s.buf = none ∧ ∃ d,
      ((∃ b' a, b'.temporary = true ∧ b'.data = [] ∧ b'.lastBuf = false ∧
        (0 < c.size → 0 < bsize → 0 < b'.room) ∧
        s.getBuf c out b bsize = (some (.own s.next), made { s with directio := d } b' a)) ∨
      (∃ q free, s.free = q::free ∧ s.getBuf c out b bsize =
        (some q, { s with directio := d, buf := some q, free := free })) ∨
      s.getBuf c out b bsize = (none, { s with directio := d }))) := by
  rw [State.getBuf]
  cases hbuf : s.buf with
  | some q => exact Or.inl ⟨q,rfl,rfl⟩
  | none =>
    refine Or.inr ⟨rfl,s.directio || fileDirectio c b,?_⟩
    simp only
    cases halign : ngxOutputChainAlignFileBuf c b bsize with
    | some size =>
      exact Or.inl ⟨{ ngxCallocBuf with temporary := true, room := size },s.allocated,rfl,rfl,rfl,
        fun hc hb => aligned_pos c b bsize size hb halign,by rw [← hbuf]; rfl⟩
    | none =>
      cases hfree : s.free with
      | cons q free => exact Or.inr (Or.inl ⟨q,free,rfl,rfl⟩)
      | nil =>
        simp only
        by_cases hfull : out ≠ [] ∨ s.allocated = c.num
        · rw [if_pos hfull]
          exact Or.inr (Or.inr (by rw [← hbuf, ← hfree]))
        rw [if_neg hfull]
        exact Or.inl ⟨_,s.allocated+1,rfl,rfl,rfl,
          fun hc hb => get_buf_size_pos c (s.directio || fileDirectio c b) b bsize hb hc,
          by rw [← hbuf, ← hfree]; rfl⟩

theorem get_buf_inv (h : Inv c files s out input last) (b : Buf) (bsize : ℕ) :
    Inv c files (s.getBuf c out b bsize).2 out input last ∧
      Found s (s.getBuf c out b bsize).2 (s.getBuf c out b bsize).1 ∧
      (0 < c.size → 0 < bsize → Kept files s out → Kept files (s.getBuf c out b bsize).2 out) := by
  rcases get_buf_cases c s out b bsize with ⟨q,hbuf,hget⟩ | ⟨hbuf,d,hget⟩
  · rw [hget]
    exact ⟨h,⟨fun r hr => by cases hr; exact hbuf,rfl,fun _ => rfl,rfl⟩,fun _ _ => id⟩
  have hd := set_directio_inv c files s out input last h d
  have hdk := fun hk => set_directio_kept files s out hk d
  rcases hget with ⟨b',a,htemporary,hdata,hmark,hroom,hget⟩ | ⟨q,free,hfree,hget⟩ | hget
  · rw [hget]
    exact ⟨make_inv c files _ out input last hd hbuf b' a htemporary hdata hmark,
      ⟨fun r hr => by cases hr; rfl,rfl,fun n => update_own s.behind.bufs s.next n b',
        rfl⟩,fun hc hb hk => make_kept c files _ out input last hd (hdk hk) b' a (hroom hc hb)⟩
  · rw [hget]
    exact ⟨take_free_inv c files _ out input last hd hbuf q free hfree,
      ⟨fun r hr => by cases hr; rfl,rfl,fun _ => rfl,rfl⟩,
      fun _ _ hk => take_free_kept files _ out (hdk hk) q free⟩
  · rw [hget]
    exact ⟨hd,⟨nofun,rfl,fun _ => rfl,rfl⟩,fun _ _ hk => hdk hk⟩

theorem copy_buf_spec (sendfile : Bool) (src dst : Buf) (hmemory : dst.temporary = true)
    (hdata : dst.data = []) (hsound : Sound src) :
    ∃ src' dst', ngxOutputChainCopyBuf files sendfile src dst = (src', dst') ∧
      src' = advance (min (ngxBufSize src) dst.room) src ∧
      content files dst'++content files src' = content files src ∧
      ngxBufSize dst' = min (ngxBufSize src) dst.room ∧ dst'.temporary = true ∧
      dst'.room = dst.room ∧ dst'.lastBuf = (if ngxBufSize src' = 0 then src.lastBuf else dst.lastBuf) := by
  have hfields : (ngxOutputChainCopyBuf files sendfile src dst).2.data =
        (content files src).take (min (ngxBufSize src) dst.room) ∧
      (ngxOutputChainCopyBuf files sendfile src dst).2.temporary = true ∧
      (ngxOutputChainCopyBuf files sendfile src dst).2.room = dst.room ∧
      (ngxOutputChainCopyBuf files sendfile src dst).2.lastBuf =
        (if ngxBufSize (advance (min (ngxBufSize src) dst.room) src) = 0 then src.lastBuf
          else dst.lastBuf) := by
    rw [ngxOutputChainCopyBuf]
    simp only [hdata, List.nil_append]
    split_ifs <;> exact ⟨rfl,hmemory,rfl,rfl⟩
  obtain ⟨htaken,htemporary,hroom,hmark⟩ := hfields
  have hin : ngxBufInMemory (ngxOutputChainCopyBuf files sendfile src dst).2 = true := by
    rw [ngxBufInMemory, htemporary]
    rfl
  refine ⟨(ngxOutputChainCopyBuf files sendfile src dst).1,
    (ngxOutputChainCopyBuf files sendfile src dst).2,rfl,rfl,?_,?_,htemporary,hroom,hmark⟩
  · rw [content, if_pos hin, htaken]
    show _++content files (advance _ src) = _
    rw [content_advance files _ src hsound, List.take_append_drop]
  · rw [ngxBufSize, if_pos hin, htaken, List.length_take, content_length]
    omega

def copied (src dst : Buf) (q : Ptr) : State :=
  { (s.set p src).set q dst with buf := none, ins := if ngxBufSize src = 0 then rest else p::rest }

theorem copied_inv (h : Inv c files s out input last) (hins : s.ins = p::rest)
    (q : Ptr) (hbuf : s.buf = some q) (src dst : Buf) (k : ℕ)
    (hsrc : src = advance k (s.behind.bufs p))
    (hcontent : content files dst++content files src = content files (s.behind.bufs p))
    (htemporary : dst.temporary = true)
    (hmark : dst.lastBuf = (if ngxBufSize src = 0 then (s.behind.bufs p).lastBuf
      else (s.behind.bufs q).lastBuf)) :
    Inv c files (copied s p rest src dst q) (out++[q]) input last := by
  obtain ⟨⟨m,rfl⟩,hrest,hpending,hout,hsound⟩ :=
    front_given c files s out input last p rest h hins
  have hidle : q ∈ s.free++s.buf.toList := by
    rw [hbuf]
    exact List.mem_append_right _ (List.mem_singleton_self q)
  obtain ⟨⟨m',rfl⟩,hdata⟩ := h.idle q hidle
  have hcount := fun n => held_count s out n
  have honce := fun n => h.once n
  have hne : s.ins ≠ [] := by
    rw [hins]
    exact List.cons_ne_nil _ _
  have hqheld : .own m' ∈ held s out :=
    List.mem_append_left _ (List.mem_append_left _ hidle)
  have hqout : .own m' ∉ out ∧ .own m' ∉ s.free ∧ .own m' ∉ s.busy := by
    have h1 := honce m'
    rw [hcount, hbuf] at h1
    have h2 : (some (Ptr.own m')).toList.count (.own m') = 1 := List.count_singleton_self
    exact ⟨List.count_eq_zero.mp (by omega),List.count_eq_zero.mp (by omega),
      List.count_eq_zero.mp (by omega)⟩
  have hq : (copied s (.given m) rest src dst (.own m')).behind.bufs (.own m') = dst :=
    Function.update_self ..
  have hp : (copied s (.given m) rest src dst (.own m')).behind.bufs (.given m) = src := by
    show Function.update (Function.update s.behind.bufs (.given m) src) (.own m') dst (.given m) = src
    rw [Function.update_of_ne (by simp), Function.update_self]
  have hother : ∀ r, r ≠ .given m → r ≠ .own m' →
      (copied s (.given m) rest src dst (.own m')).behind.bufs r = s.behind.bufs r := by
    intro r hr hr'
    show Function.update (Function.update s.behind.bufs (.given m) src) (.own m') dst r = _
    rw [Function.update_of_ne hr', Function.update_of_ne hr]
  have hinside : ∀ r ∈ (copied s (.given m) rest src dst (.own m')).ins, r = .given m ∧
      ngxBufSize src ≠ 0 ∨ r ∈ rest := by
    intro r hr
    have hr' : r ∈ (if ngxBufSize src = 0 then rest else .given m::rest) := hr
    split_ifs at hr' with hsize
    · exact Or.inr hr'
    · exact (List.mem_cons.mp hr').imp (fun he => ⟨he,hsize⟩) id
  have hrestIn : ∀ r ∈ rest, r ∈ s.ins := by
    intro r hr
    rw [hins]
    exact List.mem_cons_of_mem _ hr
  have hold : ∀ r ∈ (copied s (.given m) rest src dst (.own m')).ins, r ∈ s.ins := by
    intro r hr
    rcases hinside r hr with ⟨rfl,-⟩ | hr
    · rw [hins]
      exact List.mem_cons_self
    · exact hrestIn r hr
  have hrestSame : ∀ r ∈ rest, (copied s (.given m) rest src dst (.own m')).behind.bufs r =
      s.behind.bufs r := by
    intro r hr
    obtain ⟨n,rfl⟩ := h.given r (hrestIn r hr)
    exact hother _ (ne_of_mem_of_not_mem hr hrest) (by simp)
  have houtSame : ∀ r ∈ out, (copied s (.given m) rest src dst (.own m')).behind.bufs r =
      s.behind.bufs r := fun r hr =>
    hother r (ne_of_mem_of_not_mem hr hout) (ne_of_mem_of_not_mem hr hqout.1)
  have hsrcMark : src.lastBuf = (s.behind.bufs (.given m)).lastBuf := by
    rw [hsrc]
    rfl
  have hmoved : ∀ n, (held (copied s (.given m) rest src dst (.own m')) (out++[.own m'])).count
      (.own n) = (held s out).count (.own n) := by
    intro n
    rw [held_count, held_count, hbuf, List.count_append]
    show s.free.count _+0+s.busy.count _+(out.count _+[Ptr.own m'].count _) =
      s.free.count _+[Ptr.own m'].count _+s.busy.count _+out.count _
    omega
  have hbytes := h.bytes
  have hmarks := h.marks
  have hnodup := h.nodup
  rw [hins] at hbytes hmarks hnodup
  have hqmark : (s.behind.bufs (.own m')).lastBuf = false :=
    h.clean (Or.inr hne) m' (h.below m' (Or.inl hqheld))
  have hinsBytes : contents files (copied s (.given m) rest src dst (.own m')).behind.bufs
      (copied s (.given m) rest src dst (.own m')).ins =
      content files src++contents files s.behind.bufs rest := by
    show contents files (copied s (.given m) rest src dst (.own m')).behind.bufs
      (if ngxBufSize src = 0 then rest else .given m::rest) = _
    rw [← contents_congr files s.behind.bufs _ rest hrestSame]
    split_ifs with hsize
    · rw [content_empty files src hsize]
      rfl
    · show content files ((copied s (.given m) rest src dst (.own m')).behind.bufs (.given m))++_ = _
      rw [hp]
      rfl
  have houtMarks : (out++[Ptr.own m']).map (fun r =>
      ((copied s (.given m) rest src dst (.own m')).behind.bufs r).lastBuf) =
      out.map (fun r => (s.behind.bufs r).lastBuf)++[dst.lastBuf] := by
    rw [List.map_append, List.map_congr_left (fun r hr => congrArg Buf.lastBuf (houtSame r hr)),
      List.map_singleton, hq]
  have hrestMarks : rest.map (fun r =>
      ((copied s (.given m) rest src dst (.own m')).behind.bufs r).lastBuf) =
      rest.map (fun r => (s.behind.bufs r).lastBuf) :=
    List.map_congr_left (fun r hr => congrArg Buf.lastBuf (hrestSame r hr))
  refine ⟨?_,?_,fun hl n hn => ?_,fun r hr hrmark => ?_,fun n => by rw [hmoved]; exact h.once n,
    fun n hn => ?_,fun r hr => ?_,fun n hn => ?_,fun r hr => h.given r (hold r hr),?_,
    fun r hr => ⟨(h.apart r (hold r hr)).1,fun hm => ?_⟩,fun r hr => ?_,fun n => ?_⟩
  · show s.behind.bytes++contents files _ (out++[.own m'])++_ = input
    rw [hinsBytes, contents_snoc, hq, contents_congr files s.behind.bufs _ out houtSame, ← hbytes]
    show _ = _++(content files (s.behind.bufs (.given m))++contents files s.behind.bufs rest)
    rw [← hcontent]
    simp only [List.append_assoc]
  · show Marked last (s.behind.passed.map Prod.snd++(out++[Ptr.own m']).map _++
      (if ngxBufSize src = 0 then rest else .given m::rest).map _)
    rw [houtMarks, hmark]
    split_ifs with hsize
    · rw [hrestMarks, ← List.append_assoc, List.append_assoc]
      exact hmarks
    · rw [List.map_cons, hrestMarks, hp, hsrcMark, hqmark, ← List.append_assoc, List.append_assoc]
      exact marked_insert last _ _ _ hmarks
  · by_cases he : n = m'
    · subst he
      rw [hq, hmark]
      split_ifs with hsize
      · refine marked_front last _ _ _ hmarks (hl.imp id (fun hl => ?_))
        have hl' : (if ngxBufSize src = 0 then rest else .given m::rest) ≠ [] := hl
        rw [if_pos hsize] at hl'
        exact fun hnil => hl' (List.map_eq_nil_iff.mp hnil)
      · exact hqmark
    · rw [hother _ (by simp) (by simpa using he)]
      exact h.clean (Or.inr hne) n hn
  · rcases hinside r hr with ⟨rfl,hsize⟩ | hr'
    · rw [hp]
      exact Or.inr hsize
    · rw [hrestSame r hr'] at hrmark ⊢
      exact h.full r (hrestIn r hr') hrmark
  · refine h.below n (hn.imp (fun hn => ?_) id)
    rw [← List.count_pos_iff, ← hmoved]
    exact List.count_pos_iff.mpr hn
  · have hr' : r ∈ s.free := by
      rcases List.mem_append.mp hr with hr | hr
      · exact hr
      · cases hr
    obtain ⟨⟨n,rfl⟩,hempty⟩ := h.idle r (List.mem_append_left _ hr')
    refine ⟨⟨n,rfl⟩,?_⟩
    rw [hother _ (by simp) (ne_of_mem_of_not_mem hr' hqout.2.1)]
    exact hempty
  · by_cases he : n = m'
    · rw [he, hq]
      exact htemporary
    · rw [hother _ (by simp) (by simpa using he)]
      exact h.own n hn
  · show (if ngxBufSize src = 0 then rest else .given m::rest).Nodup
    split_ifs
    · exact (List.nodup_cons.mp hnodup).2
    · exact hnodup
  · rcases List.mem_append.mp hm with hm | hm
    · exact (h.apart r (hold r hr)).2 hm
    obtain ⟨n,hn⟩ := h.given r (hold r hr)
    rw [hn] at hm
    cases List.mem_singleton.mp hm
  · rcases hinside r hr with ⟨rfl,-⟩ | hr'
    · rw [hp, hsrc]
      exact sound_advance k _ hsound
    · rw [hrestSame r hr']
      exact h.sound r (hrestIn r hr')
  · by_cases he : n = m
    · rw [he, hp, hsrc]
      exact h.tag m
    · rw [hother _ (by simpa using he) (by simp)]
      exact h.tag n

theorem copied_kept (h : Inv c files s out input last) (hk : Kept files s out)
    (hins : s.ins = p::rest) (q : Ptr) (hbuf : s.buf = some q) (src dst : Buf)
    (htemporary : dst.temporary = true) (hsize : ngxBufSize dst ≠ 0)
    (hroom : dst.room = (s.behind.bufs q).room) :
    Kept files (copied s p rest src dst q) (out++[q]) := by
  obtain ⟨⟨m,rfl⟩,hrest,hpending,hout,hsound⟩ :=
    front_given c files s out input last p rest h hins
  have hidle : q ∈ s.free++s.buf.toList := by
    rw [hbuf]
    exact List.mem_append_right _ (List.mem_singleton_self q)
  obtain ⟨⟨m',rfl⟩,-⟩ := h.idle q hidle
  have hqout : .own m' ∉ out ∧ .own m' ∉ s.busy := by
    have h1 := h.once m'
    rw [held_count, hbuf] at h1
    have h2 : (some (Ptr.own m')).toList.count (.own m') = 1 := List.count_singleton_self
    exact ⟨List.count_eq_zero.mp (by omega),List.count_eq_zero.mp (by omega)⟩
  have hqpending : .own m' ∉ s.behind.pending := fun hm => hqout.2 (hk.pending m' hm).1
  have hq : (copied s (.given m) rest src dst (.own m')).behind.bufs (.own m') = dst :=
    Function.update_self ..
  have hother : ∀ r, r ≠ .given m → r ≠ .own m' →
      (copied s (.given m) rest src dst (.own m')).behind.bufs r = s.behind.bufs r := by
    intro r hr hr'
    show Function.update (Function.update s.behind.bufs (.given m) src) (.own m') dst r = _
    rw [Function.update_of_ne hr', Function.update_of_ne hr]
  refine ⟨write_intact files s.behind _ hk.intact (fun r hr => hother r
      (ne_of_mem_of_not_mem hr hpending) (ne_of_mem_of_not_mem hr hqpending)),fun n hn => ?_,
    fun n hn => ?_,?_,fun r hr => ?_,fun r hr => ?_,fun n hn => ?_⟩
  · rw [hother _ (by simp) (ne_of_mem_of_not_mem hn hqpending)]
    exact hk.pending n hn
  · by_cases he : n = m'
    · rw [he, hq, hroom]
      exact hk.room m' (he ▸ hn)
    · rw [hother _ (by simp) (by simpa using he)]
      exact hk.room n hn
  · refine List.nodup_append.mpr ⟨hk.nodup,List.nodup_singleton _,fun r hr r' hr' => ?_⟩
    rw [List.mem_singleton.mp hr']
    exact ne_of_mem_of_not_mem hr hqout.1
  · rcases List.mem_append.mp hr with hr | hr
    · exact hk.apart r hr
    · rw [List.mem_singleton.mp hr]
      exact hqpending
  · rcases List.mem_append.mp hr with hr | hr
    · rw [hother r (ne_of_mem_of_not_mem hr hout) (ne_of_mem_of_not_mem hr hqout.1)]
      exact hk.sound r hr
    · rw [List.mem_singleton.mp hr, hq]
      exact Or.inl (by rw [ngxBufInMemory, htemporary]; rfl)
  · rcases List.mem_append.mp hn with hn | hn
    · rw [hother _ (by simp) (ne_of_mem_of_not_mem hn hqout.1)]
      exact hk.filled n hn
    · rw [List.mem_singleton.mp hn, hq]
      exact hsize

theorem set_aio_inv (h : Inv c files s out input last) (aio : Bool) :
    Inv c files { s with aio := aio } out input last :=
  ⟨h.bytes,h.marks,h.clean,h.full,h.once,h.below,h.idle,h.own,h.given,h.nodup,h.apart,
    h.sound,h.tag⟩

theorem set_aio_kept (h : Kept files s out) (aio : Bool) : Kept files { s with aio := aio } out :=
  ⟨h.intact,h.pending,h.room,h.nodup,h.apart,h.sound,h.filled⟩

inductive Held : Turn → Prop where
  | more (s' : State) (out' : List Ptr) (h : Inv c files s' out' input last)
      (hk : 0 < c.size → Kept files s out → Kept files s' out')
      (hpassed : s'.behind.passed = s.behind.passed) : Held (.more s' out')
  | full (s' : State) (out' : List Ptr) (h : Inv c files s' out' input last)
      (hk : 0 < c.size → Kept files s out → Kept files s' out')
      (hpassed : s'.behind.passed = s.behind.passed) : Held (.full s' out')
  | again (s' : State) (h : Inv c files s' [] input last)
      (hk : 0 < c.size → Kept files s out → Kept files s' [])
      (hpassed : s'.behind.passed = s.behind.passed) : Held (.returned s' .again)
  | failed (s' : State) (hpassed : s'.behind.passed = s.behind.passed) : Held (.returned s' .error)

theorem turn_held (h : Inv c files s out input last) (hins : s.ins = p::rest) (a : Answer) (t : Turn)
    (ht : turn c files s out p rest a = some t) : Held c files s out input last t := by
  obtain ⟨hgiven,-,hpending,hout,hsound⟩ := front_given c files s out input last p rest h hins
  rw [turn] at ht
  simp only at ht
  by_cases hdrop : ngxBufSize (s.behind.bufs p) = 0 ∧ ngxBufSpecial (s.behind.bufs p) = false
  · rw [if_pos hdrop] at ht
    cases ht
    refine Held.more _ _ (drop_inv c files s out input last p rest h hins hdrop.1 hdrop.2)
      (fun _ hk => ?_) rfl
    exact ⟨hk.intact,hk.pending,hk.room,hk.nodup,hk.apart,hk.sound,hk.filled⟩
  rw [if_neg hdrop] at ht
  have hlike := as_is_like c (s.behind.bufs p)
  have hfalse : ngxBufSpecial (s.behind.bufs p) = true →
      (ngxOutputChainAsIs c (s.behind.bufs p)).1 = true := by
    intro hs
    rw [ngxOutputChainAsIs, if_pos hs]
  generalize ngxOutputChainAsIs c (s.behind.bufs p) = r at ht hlike hfalse
  obtain ⟨asIs,b⟩ := r
  simp only at ht hlike hfalse
  have hset := rewrite_inv c files s out input last p h hpending hout hgiven b hlike
  have hsetk := fun hk => rewrite_kept files s out p hk hpending hout hgiven b
  cases asIs with
  | true =>
    rw [if_pos rfl] at ht
    cases ht
    exact Held.more _ _ (pass_as_is_inv c files _ out input last p rest hset hins)
      (fun _ hk => pass_as_is_kept c files _ out input last p rest hset (hsetk hk) hins) rfl
  | false =>
    rw [if_neg Bool.false_ne_true] at ht
    have hsize : 0 < ngxBufSize (s.behind.bufs p) := by
      refine Nat.pos_of_ne_zero (fun hzero => hdrop ⟨hzero,?_⟩)
      by_contra hs
      rw [Bool.not_eq_false] at hs
      cases hfalse hs
    obtain ⟨hgot,hfound,hgotk⟩ := get_buf_inv c files (s.set p b) out input last hset b
      (ngxBufSize (s.behind.bufs p))
    generalize (s.set p b).getBuf c out b (ngxBufSize (s.behind.bufs p)) = r at ht hgot hfound hgotk
    obtain ⟨oq,s1⟩ := r
    simp only at ht hgot hfound hgotk
    have hk1 := fun hc hk => hgotk hc hsize (hsetk hk)
    cases oq with
    | none =>
      cases ht
      exact Held.full _ _ hgot hk1 hfound.passed
    | some q =>
      have hbuf := hfound.buf q rfl
      have hins1 : s1.ins = p::rest := hfound.ins.trans hins
      cases a with
      | fail =>
        cases ht
        exact Held.failed _ hfound.passed
      | again =>
        simp only at ht
        split_ifs at ht with hwait hnil
        · cases ht
          subst hnil
          exact Held.again _ (set_aio_inv c files s1 [] input last hgot true)
            (fun hc hk => set_aio_kept files s1 [] (hk1 hc hk) true) hfound.passed
        · cases ht
          exact Held.full _ _ (set_aio_inv c files s1 out input last hgot true)
            (fun hc hk => set_aio_kept files s1 out (hk1 hc hk) true) hfound.passed
      | fine =>
        have hidle : q ∈ s1.free++s1.buf.toList := by
          rw [hbuf]
          exact List.mem_append_right _ (List.mem_singleton_self q)
        obtain ⟨⟨m,rfl⟩,hdata⟩ := hgot.idle q hidle
        have hbelow := hgot.below m (Or.inl (List.mem_append_left _ (List.mem_append_left _ hidle)))
        have hb : s1.behind.bufs p = b := by
          obtain ⟨n,rfl⟩ := hgiven
          rw [hfound.given]
          exact Function.update_self ..
        obtain ⟨src,dst,hcopy,hsrc,hcontent,hcount,htemporary,hroom,hmark⟩ :=
          copy_buf_spec files (c.sendfile && !s1.directio) b (s1.behind.bufs (.own m))
            (hgot.own m hbelow) hdata (hlike.sound hsound)
        simp only [hcopy] at ht
        cases ht
        rw [← hb] at hsrc hcontent hmark
        refine Held.more _ _ (copied_inv c files s1 out input last p rest hgot hins1 (.own m) hbuf
          src dst _ hsrc hcontent htemporary hmark) (fun hc hk => ?_) hfound.passed
        refine copied_kept c files s1 out input last p rest hgot (hk1 hc hk) hins1 (.own m) hbuf src
          dst htemporary ?_ hroom
        have hpos := (hk1 hc hk).room m hbelow
        have := hlike.size
        omega

theorem fill_held (as : List Answer) (h : Inv c files s out input last) (t : Turn)
    (ht : fill c files as s out = some t) :
    Held c files s out input last t ∧ ∀ s' out', t ≠ .more s' out' := by
  induction as generalizing s out with
  | nil =>
    rw [fill] at ht
    split_ifs at ht
    cases ht
    exact ⟨Held.full _ _ h (fun _ => id) rfl,fun _ _ he => by cases he⟩
  | cons a as ih =>
    rw [fill] at ht
    cases hins : s.ins with
    | nil =>
      rw [hins] at ht
      cases ht
    | cons p rest =>
      simp only [hins] at ht
      cases hturn : turn c files s out p rest a with
      | none =>
        rw [hturn] at ht
        cases ht
      | some t' =>
        have hheld := turn_held c files s out input last p rest h hins a t' hturn
        simp only [hturn] at ht
        cases hheld with
        | more s' out' h' hk hpassed =>
          obtain ⟨hrest,hnot⟩ := ih s' out' h' ht
          refine ⟨?_,hnot⟩
          cases hrest with
          | more s2 out2 h2 hk2 hp2 => exact absurd rfl (hnot s2 out2)
          | full s2 out2 h2 hk2 hp2 =>
            exact Held.full s2 out2 h2 (fun hc hk0 => hk2 hc (hk hc hk0)) (hp2.trans hpassed)
          | again s2 h2 hk2 hp2 =>
            exact Held.again s2 h2 (fun hc hk0 => hk2 hc (hk hc hk0)) (hp2.trans hpassed)
          | failed s2 hp2 => exact Held.failed s2 (hp2.trans hpassed)
        | full s' out' h' hk hpassed =>
          simp only at ht
          split_ifs at ht
          cases ht
          exact ⟨Held.full s' out' h' hk hpassed,fun _ _ he => by cases he⟩
        | again s' h' hk hpassed =>
          simp only at ht
          split_ifs at ht
          cases ht
          exact ⟨Held.again s' h' hk hpassed,fun _ _ he => by cases he⟩
        | failed s' hpassed =>
          simp only at ht
          split_ifs at ht
          cases ht
          exact ⟨Held.failed s' hpassed,fun _ _ he => by cases he⟩

theorem accept_inv (h : Inv c files s [] input last) (k : ℕ) :
    Inv c files { s with behind := s.behind.accept files k } [] input last := by
  obtain ⟨hadvanced,hframe,hrest⟩ := take_kept files k s.behind.pending s.behind.bufs
  have hsame : ∀ p, ∃ j, (s.behind.accept files k).bufs p = advance j (s.behind.bufs p) := hadvanced
  have hins : ∀ p ∈ s.ins, (s.behind.accept files k).bufs p = s.behind.bufs p :=
    fun p hp => hframe p (h.apart p hp).1
  refine ⟨?_,?_,fun hl n hn => ?_,fun p hp => ?_,h.once,fun n hn => ?_,fun p hp => ?_,
    fun n hn => ?_,h.given,h.nodup,fun p hp => ⟨fun hm => ?_,List.not_mem_nil⟩,fun p hp => ?_,
    fun n => ?_⟩
  · show s.behind.bytes++[]++contents files (s.behind.accept files k).bufs s.ins = input
    rw [contents_congr files s.behind.bufs _ s.ins hins]
    exact h.bytes
  · show Marked last (s.behind.passed.map Prod.snd++[]++
      s.ins.map (fun p => ((s.behind.accept files k).bufs p).lastBuf))
    rw [List.map_congr_left (fun p hp => congrArg Buf.lastBuf (hins p hp))]
    exact h.marks
  · obtain ⟨j,hj⟩ := hsame (.own n)
    show ((s.behind.accept files k).bufs (.own n)).lastBuf = false
    rw [hj]
    exact h.clean hl n hn
  · show ((s.behind.accept files k).bufs p).lastBuf = true → _
    rw [hins p hp]
    exact h.full p hp
  · exact h.below n (hn.imp id (hrest _))
  · obtain ⟨hown,hdata⟩ := h.idle p hp
    refine ⟨hown,?_⟩
    obtain ⟨j,hj⟩ := hsame p
    show ((s.behind.accept files k).bufs p).data = []
    rw [hj, advance, hdata]
    exact List.drop_nil
  · obtain ⟨j,hj⟩ := hsame (.own n)
    show ((s.behind.accept files k).bufs (.own n)).temporary = true
    rw [hj]
    exact h.own n hn
  · exact (h.apart p hp).1 (hrest p hm)
  · show Sound ((s.behind.accept files k).bufs p)
    rw [hins p hp]
    exact h.sound p hp
  · obtain ⟨j,hj⟩ := hsame (.given n)
    show ((s.behind.accept files k).bufs (.given n)).tag ≠ c.tag
    rw [hj]
    exact h.tag n

theorem accept_kept (h : Kept files s []) (k : ℕ) :
    Kept files { s with behind := s.behind.accept files k } [] := by
  obtain ⟨sent,-,-,htaken⟩ := accept_taken files k s.behind h.intact
  obtain ⟨gone,hgone,-⟩ := htaken.gone
  refine ⟨accept_intact files k s.behind h.intact,fun n hn => ?_,fun n hn => ?_,List.nodup_nil,
    nofun,nofun,nofun⟩
  · have hn : .own n ∈ (s.behind.accept files k).pending := hn
    have hold : .own n ∈ s.behind.pending := by
      rw [hgone]
      exact List.mem_append_right gone hn
    refine ⟨(h.pending n hold).1,?_⟩
    cases hrest : (s.behind.accept files k).pending with
    | nil =>
      rw [hrest] at hn
      exact absurd hn List.not_mem_nil
    | cons q qs =>
      obtain ⟨hfront,hothers⟩ := htaken.front q qs hrest
      rw [hrest] at hn
      rcases List.mem_cons.mp hn with he | hn
      · rw [he]
        exact hfront
      show ngxBufSize ((s.behind.accept files k).bufs (.own n)) ≠ 0
      rw [hothers _ hn]
      exact (h.pending n hold).2
  · obtain ⟨j,hj⟩ := htaken.advanced (.own n)
    show 0 < ((s.behind.accept files k).bufs (.own n)).room
    rw [hj]
    exact h.room n hn

theorem pass_inv (h : Inv c files s out input last) :
    Inv c files { s with behind := s.behind.pass files out, busy := s.busy++out } [] input last := by
  have hheld : held { s with behind := s.behind.pass files out, busy := s.busy++out } [] =
      held s out := by
    simp only [held, List.append_nil, List.append_assoc]
  refine ⟨?_,?_,h.clean,h.full,fun n => by rw [hheld]; exact h.once n,fun n hn => ?_,h.idle,
    h.own,h.given,h.nodup,fun p hp => ⟨fun hm => ?_,List.not_mem_nil⟩,h.sound,h.tag⟩
  · show (s.behind.pass files out).bytes++[]++contents files s.behind.bufs s.ins = input
    rw [← h.bytes, Behind.bytes, Behind.bytes, Behind.pass]
    simp only [List.flatMap_append, List.flatMap_map, List.append_nil]
    rfl
  · show Marked last ((s.behind.passed++out.map _).map Prod.snd++[]++_)
    rw [List.map_append, List.map_map, List.append_nil]
    exact h.marks
  · rw [hheld] at hn
    rcases hn with hn | hn
    · exact h.below n (Or.inl hn)
    rcases List.mem_append.mp hn with hn | hn
    · exact h.below n (Or.inr hn)
    · exact h.below n (Or.inl (List.mem_append_right _ hn))
  · rcases List.mem_append.mp hm with hm | hm
    · exact (h.apart p hp).1 hm
    · exact (h.apart p hp).2 hm

theorem pass_kept (h : Kept files s out) :
    Kept files { s with behind := s.behind.pass files out, busy := s.busy++out } [] := by
  refine ⟨pass_intact files out s.behind h.intact h.nodup h.apart h.sound,fun n hn => ?_,h.room,
    List.nodup_nil,nofun,nofun,nofun⟩
  rcases List.mem_append.mp hn with hn | hn
  · exact ⟨List.mem_append_left out (h.pending n hn).1,(h.pending n hn).2⟩
  · exact ⟨List.mem_append_right s.busy hn,h.filled n hn⟩

/-- The state when the empty buffers in front of the busy ones have been taken back. -/
def takenBack : State :=
  let (bufs, free, busy) := updateLoop c.tag s.behind.bufs s.free s.busy
  { s with behind := { s.behind with bufs := bufs }, free := free, busy := busy }

theorem taken_back_inv (h : Inv c files s [] input last) :
    Inv c files (takenBack c s) [] input last ∧
      (Kept files s [] → Kept files (takenBack c s) []) := by
  have hbusy : ∀ n, .own n ∈ s.busy → n < s.next := fun n hn =>
    h.below n (Or.inl (List.mem_append_left _ (List.mem_append_right _ hn)))
  have hmemory : ∀ p ∈ s.busy, (s.behind.bufs p).tag = c.tag →
      ngxBufInMemory (s.behind.bufs p) = true := by
    intro p hp htag
    cases p with
    | own n =>
      rw [ngxBufInMemory, h.own n (hbusy n hp)]
      rfl
    | given n => exact absurd htag (h.tag n)
  rw [takenBack]
  obtain ⟨hbufs,gone,hsplit,hempty,hfree⟩ :=
    update_loop_spec c.tag s.behind.bufs s.free s.busy hmemory
  generalize updateLoop c.tag s.behind.bufs s.free s.busy = r at *
  obtain ⟨bufs,free,busy⟩ := r
  simp only at hbufs hsplit hfree ⊢
  subst hbufs
  have hcount : ∀ n, (held { s with free := free, busy := busy } []).count (.own n) ≤
      (held s []).count (.own n) := by
    intro n
    have hle : (gone.filter (fun p => (s.behind.bufs p).tag = c.tag)).reverse.count (.own n) ≤
        gone.count (.own n) := by
      rw [List.count_reverse]
      exact List.filter_sublist.count_le _
    have hsum : s.busy.count (.own n) = gone.count (.own n)+busy.count (.own n) := by
      rw [hsplit, List.count_append]
    rw [held_count, held_count]
    show free.count _+s.buf.toList.count _+busy.count _+_ ≤ _
    rw [hfree, List.count_append]
    omega
  have hidle : ∀ p ∈ free++s.buf.toList, (∃ n, p = .own n) ∧ (s.behind.bufs p).data = [] := by
    intro p hp
    rw [hfree, List.append_assoc] at hp
    rcases List.mem_append.mp hp with hp | hp
    · rw [List.mem_reverse, List.mem_filter, decide_eq_true_eq] at hp
      have hin : p ∈ s.busy := by
        rw [hsplit]
        exact List.mem_append_left busy hp.1
      cases p with
      | given n => exact absurd hp.2 (h.tag n)
      | own n =>
        have hsize := hempty (.own n) hp.1
        rw [ngxBufSize, if_pos (hmemory _ hin hp.2)] at hsize
        exact ⟨⟨n,rfl⟩,List.eq_nil_of_length_eq_zero hsize⟩
    · exact h.idle p hp
  refine ⟨⟨h.bytes,h.marks,h.clean,h.full,fun n => Nat.le_trans (hcount n) (h.once n),
    fun n hn => ?_,hidle,h.own,h.given,h.nodup,h.apart,h.sound,h.tag⟩,fun hk => ?_⟩
  · refine h.below n (hn.imp (fun hn => ?_) id)
    exact List.count_pos_iff.mp (Nat.lt_of_lt_of_le (List.count_pos_iff.mpr hn) (hcount n))
  · refine ⟨hk.intact,fun n hn => ?_,hk.room,List.nodup_nil,by rintro _ ⟨⟩,by rintro _ ⟨⟩,by rintro _ ⟨⟩⟩
    obtain ⟨hin,hsize⟩ := hk.pending n hn
    refine ⟨?_,hsize⟩
    rw [hsplit] at hin
    rcases List.mem_append.mp hin with hin | hin
    · exact absurd (hempty _ hin) hsize
    · exact hin

theorem sent_inv (h : Inv c files s out input last) (k : ℕ) :
    Inv c files ((s.pass files out k).update c out) [] input last ∧
      (0 < c.size → Kept files s out → Kept files ((s.pass files out k).update c out) []) := by
  have hpass := pass_inv c files s out input last h
  obtain ⟨hinv,hkept⟩ := taken_back_inv c files _ input last
    (accept_inv c files _ input last hpass k)
  exact ⟨hinv,fun _ hk => hkept (accept_kept files _ (pass_kept files s out hk) k)⟩

/-- How a call has ended: what has been passed are first bytes of the input, and all of them
with all marks where it says so. -/
structure Ended (s' : State) (rc : Rc) : Prop where
  more : s.behind.passed <+: s'.behind.passed
  bytes : s'.behind.bytes <+: input
  marks : ∃ tail, Marked last (s'.behind.passed.map Prod.snd++tail)
  after : true ∈ s'.behind.passed.map Prod.snd → s'.behind.bytes = input
  inv : rc ≠ .error → rc ≠ .done → Inv c files s' [] input last ∧
    (0 < c.size → Kept files s out → Kept files s' [])
  whole : rc ≠ .error → rc ≠ .done → rc ≠ .again → s'.ins = []

theorem inv_front (h : Inv c files s out input last) :
    s.behind.bytes <+: input ∧ (∃ tail, Marked last (s.behind.passed.map Prod.snd++tail)) ∧
      (true ∈ s.behind.passed.map Prod.snd → s.behind.bytes = input) := by
  have hbytes := h.bytes
  have hmarks := h.marks
  rw [List.append_assoc] at hbytes hmarks
  refine ⟨⟨_,hbytes⟩,⟨_,hmarks⟩,fun hmark => ?_⟩
  by_cases hnil : out.map (fun p => (s.behind.bufs p).lastBuf)++
      s.ins.map (fun p => (s.behind.bufs p).lastBuf) = []
  · obtain ⟨hout,hins⟩ := List.append_eq_nil_iff.mp hnil
    rw [List.map_eq_nil_iff.mp hout, List.map_eq_nil_iff.mp hins] at hbytes
    rw [← hbytes]
    exact (List.append_nil _).symm
  · cases ((marked_append last _ _ hnil).mp hmarks).1 true hmark

theorem pass_more (k : ℕ) : s.behind.passed <+: (s.pass files out k).behind.passed :=
  List.prefix_append _ _

theorem output_loop_ended (rs : List Round) (lastRc : Option Rc) (h : Inv c files s [] input last)
    (s' : State) (rc : Rc) (hrun : outputLoop c files rs lastRc s = some (s', rc)) :
    Ended c files s [] input last s' rc := by
  induction rs generalizing s lastRc with
  | nil => cases hrun
  | cons r rs ih =>
    obtain ⟨hbytes,hmarks,hafter⟩ := inv_front c files s [] input last h
    rw [outputLoop] at hrun
    by_cases haio : s.aio = true
    · rw [if_pos haio] at hrun
      split_ifs at hrun
      cases hrun
      exact ⟨List.prefix_refl _,hbytes,hmarks,hafter,fun _ _ => ⟨h,fun _ => id⟩,
        fun _ _ hagain => absurd rfl hagain⟩
    rw [if_neg haio] at hrun
    cases hfill : fill c files r.answers s [] with
    | none =>
      rw [hfill] at hrun
      cases hrun
    | some t =>
      obtain ⟨hheld,hnot⟩ := fill_held c files s [] input last r.answers h t hfill
      simp only [hfill] at hrun
      cases hheld with
      | more s1 out1 => exact absurd rfl (hnot s1 out1)
      | again s1 h1 hk1 hp1 =>
        simp only at hrun
        split_ifs at hrun
        cases hrun
        obtain ⟨hbytes1,hmarks1,hafter1⟩ := inv_front c files s' [] input last h1
        exact ⟨by simp only [hp1, List.prefix_refl],hbytes1,hmarks1,hafter1,fun _ _ => ⟨h1,hk1⟩,
          fun _ _ hagain => absurd rfl hagain⟩
      | failed s1 hp1 =>
        simp only at hrun
        split_ifs at hrun
        cases hrun
        refine ⟨by simp only [hp1, List.prefix_refl],?_,by rw [hp1]; exact hmarks,?_,fun herror => absurd rfl herror,
          fun herror => absurd rfl herror⟩
        · rw [Behind.bytes, hp1]
          exact hbytes
        · rw [Behind.bytes, hp1]
          exact hafter
      | full s1 out1 h1 hk1 hp1 =>
        obtain ⟨hsent,hsentk⟩ := sent_inv c files s1 out1 input last h1 r.accepted
        have hmore : s.behind.passed <+: (s1.pass files out1 r.accepted).behind.passed := by
          rw [← hp1]
          exact pass_more files s1 out1 r.accepted
        have hpass : (if r.rc = .error ∨ r.rc = .done then
            (if rs = [] then some (s1.pass files out1 r.accepted, r.rc) else none)
            else outputLoop c files rs (some r.rc)
              ((s1.pass files out1 r.accepted).update c out1)) = some (s', rc) →
            Ended c files s [] input last s' rc := by
          intro hrun
          by_cases hstop : r.rc = .error ∨ r.rc = .done
          · rw [if_pos hstop] at hrun
            split_ifs at hrun
            cases hrun
            obtain ⟨hbytes1,hmarks1,hafter1⟩ := inv_front c files _ [] input last
              (accept_inv c files _ input last (pass_inv c files s1 out1 input last h1) r.accepted)
            refine ⟨hmore,hbytes1,hmarks1,hafter1,fun herror hdone => ?_,fun herror hdone => ?_⟩
            · exact absurd hstop (not_or.mpr ⟨herror,hdone⟩)
            · exact absurd hstop (not_or.mpr ⟨herror,hdone⟩)
          rw [if_neg hstop] at hrun
          obtain ⟨hmore2,hbytes2,hmarks2,hafter2,hinv2,hwhole2⟩ := ih _ (some r.rc) hsent hrun
          refine ⟨hmore.trans hmore2,hbytes2,hmarks2,hafter2,fun herror hdone => ?_,hwhole2⟩
          obtain ⟨h2,hk2⟩ := hinv2 herror hdone
          exact ⟨h2,fun hc hk => hk2 hc (hsentk hc (hk1 hc hk))⟩
        cases lastRc with
        | none => exact hpass hrun
        | some rc0 =>
          cases out1 with
          | cons q out2 => exact hpass hrun
          | nil =>
            simp only at hrun
            obtain ⟨hbytes1,hmarks1,hafter1⟩ := inv_front c files s1 [] input last h1
            by_cases hrs : rs = []
            · rw [if_pos hrs] at hrun
              cases hrun
              refine ⟨by simp only [hp1, List.prefix_refl],hbytes1,hmarks1,hafter1,fun _ _ => ⟨h1,hk1⟩,
                fun _ _ hagain => ?_⟩
              by_contra hins
              rw [if_pos hins] at hagain
              exact hagain rfl
            · rw [if_neg hrs] at hrun
              cases hrun

end Turns

end Nginx.OutputChainLaw
