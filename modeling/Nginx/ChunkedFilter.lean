import Nginx.BufChain
import Nginx.ChunkedCoding
import Mathlib.Data.List.Nodup

/-!
# The chunked filter

Each call puts a line with the size in front of the buffers that it is given and a line end, or
the last chunk, behind them. The lines are in buffers that the filter takes from its
free chain or makes. The caller may fill a buffer again once the filter behind does not keep it.
-/

set_option autoImplicit false

namespace Nginx.ChunkedFilter
open Nginx.BufChain Nginx.ChunkedCoding

/-- `next` counts the buffers that the filter has made. -/
structure State where
  behind : Behind
  next : ℕ
  free : List Ptr
  busy : List Ptr

/-- The address of `ngx_http_chunked_filter_module`. -/
def chunkedTag : ℕ := 1

def State.set (s : State) (p : Ptr) (b : Buf) : State :=
  { s with behind := { s.behind with bufs := Function.update s.behind.bufs p b } }

def State.getFree (s : State) : Ptr × State :=
  let (p, bufs, next, free) := ngxChainGetFreeBuf s.behind.bufs s.next s.free
  (p, { s with behind := { s.behind with bufs := bufs }, next := next, free := free })

/-- The buffer of a length line; one without memory of its own gets 18 bytes. -/
def sizeLine (b : Buf) (size : ℕ) : Buf :=
  { b with tag := chunkedTag, memory := false, temporary := true, data := hex size++[13,10],
           room := if b.room = 0 then 18 else b.room }

def constant (b : Buf) (data : List ℕ) : Buf :=
  { b with tag := chunkedTag, temporary := false, memory := true, data := data }

def addLine (s : State) (size : ℕ) : State × List Ptr :=
  if size ≠ 0 then
    let (p, s) := s.getFree
    (s.set p (sizeLine (s.behind.bufs p) size), [p])
  else (s, [])

/-- What follows the data of a call whose last buffer is `cl`. -/
def addEnd (s : State) (size : ℕ) (cl : Ptr) : State × List Ptr :=
  if (s.behind.bufs cl).lastBuf then
    let (p, s) := s.getFree
    let s := s.set p { constant (s.behind.bufs p)
      (if size = 0 then lastChunk else [13,10]++lastChunk) with lastBuf := true }
    (s.set cl { s.behind.bufs cl with lastBuf := false }, [p])
  else if size > 0 then
    let (p, s) := s.getFree
    (s.set p (constant (s.behind.bufs p) [13,10]), [p])
  else (s, [])

/-- The call of the next filter, which takes `k` bytes, and what follows it. -/
def send (files : Option ℕ → ℕ → ℕ) (s : State) (out : List Ptr) (k : ℕ) : State :=
  let behind := (s.behind.pass files out).accept files k
  let (bufs, free, busy) := ngxChainUpdateChains behind.bufs s.free s.busy out chunkedTag
  { s with behind := { behind with bufs := bufs }, free := free, busy := busy }

/-- `ngx_http_chunked_body_filter` for a chain with the last link `cl`. The link of the
size line gets lost where no buffer of the chain is passed on. -/
def ngxHttpChunkedBodyFilter (files : Option ℕ → ℕ → ℕ) (s : State) (ins : List Ptr) (cl : Ptr)
    (k : ℕ) : State :=
  let size := (ins.map (fun p => ngxBufSize (s.behind.bufs p))).sum
  let links := ins.filter (fun p => (s.behind.bufs p).flush || (s.behind.bufs p).sync ||
    ngxBufInMemory (s.behind.bufs p) || (s.behind.bufs p).inFile)
  let (s, line) := addLine s size
  let (s, tail) := addEnd s size cl
  send files s (if links = [] then tail else line++links++tail) k

/-- A call with the chain `ins` of buffers that now hold `bufs`. Only the last one may
carry the mark. -/
structure Valid (s : State) (ins : List Ptr) (cl : Ptr) (bufs : Ptr → Buf) : Prop where
  last : ins.getLast? = some cl
  given : ∀ p ∈ ins, ∃ n, p = .given n
  nodup : ins.Nodup
  taken : ∀ p ∈ ins, p ∉ s.behind.pending
  frame : ∀ p, (p ∈ s.behind.pending ∨ ∃ n, p = .own n) → bufs p = s.behind.bufs p
  sound : ∀ p ∈ ins, Sound (bufs p)
  tag : ∀ n, (bufs (.given n)).tag ≠ chunkedTag
  marks : ∀ p ∈ ins, p ≠ cl → (bufs p).lastBuf = false

/-- A run with the bytes that the calls have carried, and whether the last call has been. -/
inductive Reached (files : Option ℕ → ℕ → ℕ) : State → List ℕ → Bool → Prop where
  | init (bufs : Ptr → Buf) (htag : ∀ n, (bufs (.given n)).tag ≠ chunkedTag) :
      Reached files ⟨⟨bufs,[],[],[]⟩,0,[],[]⟩ [] false
  | call (s : State) (body : List ℕ) (ins : List Ptr) (cl : Ptr) (bufs : Ptr → Buf) (k : ℕ)
      (h : Reached files s body false) (hvalid : Valid s ins cl bufs) :
      Reached files (ngxHttpChunkedBodyFilter files
          { s with behind := { s.behind with bufs := bufs } } ins cl k)
        (body++contents files bufs ins) (bufs cl).lastBuf
  | drain (s : State) (body : List ℕ) (last : Bool) (k : ℕ) (h : Reached files s body last) :
      Reached files { s with behind := s.behind.accept files k } body last

/-- The own buffers of the filter are free, or busy, or lost; those that the filter behind
keeps are busy and not empty. -/
structure Inv (files : Option ℕ → ℕ → ℕ) (s : State) : Prop where
  intact : Intact files s.behind
  free : ∀ p ∈ s.free, ∃ n < s.next, p = .own n
  freeNodup : s.free.Nodup
  idle : ∀ p ∈ s.free, p ∉ s.busy
  busy : ∀ n, .own n ∈ s.busy → n < s.next ∧ (s.behind.bufs (.own n)).tag = chunkedTag ∧
    ngxBufInMemory (s.behind.bufs (.own n)) = true
  busyOnce : ∀ n, s.busy.count (.own n) ≤ 1
  pending : ∀ n, .own n ∈ s.behind.pending → .own n ∈ s.busy ∧
    ngxBufSize (s.behind.bufs (.own n)) ≠ 0
  tag : ∀ n, (s.behind.bufs (.given n)).tag ≠ chunkedTag

structure Fresh (s : State) (p : Ptr) : Prop where
  own : ∃ n < s.next, p = .own n
  free : p ∉ s.free
  busy : p ∉ s.busy

variable (files : Option ℕ → ℕ → ℕ) (s : State) (p : Ptr)

theorem fresh_not_pending (h : Inv files s) (hp : Fresh s p) : p ∉ s.behind.pending := by
  obtain ⟨n,-,rfl⟩ := hp.own
  exact fun hin => hp.busy (h.pending n hin).1

theorem fresh_set (q : Ptr) (b : Buf) (h : Fresh s q) : Fresh (s.set p b) q :=
  ⟨h.own,h.free,h.busy⟩

theorem set_inv (b : Buf) (h : Inv files s) (hp : p ∉ s.behind.pending)
    (hbusy : ∀ n, p = .own n → p ∉ s.busy) (htag : ∀ n, p = .given n → b.tag ≠ chunkedTag) :
    Inv files (s.set p b) := by
  have hown : ∀ n, .own n ∈ s.busy →
      Function.update s.behind.bufs p b (.own n) = s.behind.bufs (.own n) := by
    intro n hn
    refine Function.update_of_ne (fun he => ?_) _ _
    exact hbusy n he.symm (he ▸ hn)
  refine ⟨write_intact files s.behind _ h.intact (fun q hq => ?_),h.free,h.freeNodup,h.idle,
    fun n hn => ?_,h.busyOnce,fun n hn => ?_,fun n => ?_⟩
  · exact Function.update_of_ne (ne_of_mem_of_not_mem hq hp) _ _
  · show n < s.next ∧ (Function.update s.behind.bufs p b (.own n)).tag = chunkedTag ∧
      ngxBufInMemory (Function.update s.behind.bufs p b (.own n)) = true
    rw [hown n hn]
    exact h.busy n hn
  · obtain ⟨hin,hsize⟩ := h.pending n hn
    refine ⟨hin,?_⟩
    show ngxBufSize (Function.update s.behind.bufs p b (.own n)) ≠ 0
    rw [hown n hin]
    exact hsize
  · show (Function.update s.behind.bufs p b (.given n)).tag ≠ chunkedTag
    by_cases he : Ptr.given n = p
    · rw [he, Function.update_self]
      exact htag n he.symm
    · rw [Function.update_of_ne he]
      exact h.tag n

theorem set_fresh_inv (b : Buf) (h : Inv files s) (hp : Fresh s p) : Inv files (s.set p b) := by
  obtain ⟨m,-,hown⟩ := hp.own
  refine set_inv files s p b h (fresh_not_pending files s p h hp) (fun _ _ => hp.busy)
    (fun n he => ?_)
  rw [hown] at he
  cases he

structure Got (s : State) (p : Ptr) (s' : State) : Prop where
  fresh : Fresh s' p
  frame : ∀ q, q ≠ p → s'.behind.bufs q = s.behind.bufs q
  passed : s'.behind.passed = s.behind.passed
  pending : s'.behind.pending = s.behind.pending
  busy : s'.busy = s.busy
  other : ∀ q, Fresh s q → Fresh s' q ∧ q ≠ p

theorem get_free_inv (h : Inv files s) : Inv files s.getFree.2 ∧ Got s s.getFree.1 s.getFree.2 := by
  cases hfree : s.free with
  | cons p free =>
    have hget : s.getFree = (p, { s with free := free }) := by
      rw [State.getFree, hfree]
      rfl
    have hin : ∀ q ∈ free, q ∈ s.free := by
      intro q hq
      rw [hfree]
      exact List.mem_cons_of_mem p hq
    have hp : p ∈ s.free := by
      rw [hfree]
      exact List.mem_cons_self
    have hnodup := h.freeNodup
    rw [hfree, List.nodup_cons] at hnodup
    rw [hget]
    refine ⟨⟨h.intact,fun q hq => h.free q (hin q hq),hnodup.2,fun q hq => h.idle q (hin q hq),
      h.busy,h.busyOnce,h.pending,h.tag⟩,⟨h.free p hp,hnodup.1,h.idle p hp⟩,fun _ _ => rfl,
      rfl,rfl,rfl,fun q hq => ⟨⟨hq.own,fun hm => hq.free (hin q hm),hq.busy⟩,?_⟩⟩
    rintro rfl
    exact hq.free hp
  | nil =>
    have hget : s.getFree = (.own s.next, { s.set (.own s.next) ngxCallocBuf with
        next := s.next+1, free := [] }) := by
      rw [State.getFree, hfree]
      rfl
    have hnew : .own s.next ∉ s.busy := fun hm => absurd (h.busy s.next hm).1 (Nat.lt_irrefl _)
    have hkept : .own s.next ∉ s.behind.pending := fun hm => hnew (h.pending s.next hm).1
    have hset := set_inv files s (.own s.next) ngxCallocBuf h hkept (fun _ _ => hnew) nofun
    rw [hget]
    refine ⟨⟨hset.intact,nofun,List.nodup_nil,nofun,fun n hn => ?_,hset.busyOnce,hset.pending,
      hset.tag⟩,⟨⟨s.next,Nat.lt_succ_self _,rfl⟩,List.not_mem_nil,hnew⟩,fun q hq => ?_,rfl,rfl,
      rfl,fun q hq => ?_⟩
    · exact ⟨Nat.lt_succ_of_lt (hset.busy n hn).1,(hset.busy n hn).2⟩
    · exact Function.update_of_ne hq _ _
    · obtain ⟨n,hn,rfl⟩ := hq.own
      refine ⟨⟨⟨n,Nat.lt_succ_of_lt hn,rfl⟩,List.not_mem_nil,hq.busy⟩,fun he => ?_⟩
      cases he
      exact absurd hn (Nat.lt_irrefl _)

theorem accept_inv (k : ℕ) (h : Inv files s) :
    Inv files { s with behind := s.behind.accept files k } := by
  obtain ⟨sent,-,-,htaken⟩ := accept_taken files k s.behind h.intact
  obtain ⟨gone,hgone,-⟩ := htaken.gone
  have hsame : ∀ p, ((s.behind.accept files k).bufs p).tag = (s.behind.bufs p).tag ∧
      ngxBufInMemory ((s.behind.accept files k).bufs p) = ngxBufInMemory (s.behind.bufs p) := by
    intro p
    obtain ⟨j,hj⟩ := htaken.advanced p
    rw [hj]
    exact ⟨rfl,rfl⟩
  refine ⟨accept_intact files k s.behind h.intact,h.free,h.freeNodup,h.idle,fun n hn => ?_,
    h.busyOnce,fun n hn => ?_,fun n => ?_⟩
  · show n < s.next ∧ ((s.behind.accept files k).bufs (.own n)).tag = chunkedTag ∧
      ngxBufInMemory ((s.behind.accept files k).bufs (.own n)) = true
    rw [(hsame _).1, (hsame _).2]
    exact h.busy n hn
  · have hn : .own n ∈ (s.behind.accept files k).pending := hn
    have hold : .own n ∈ s.behind.pending := by
      rw [hgone]
      exact List.mem_append_right gone hn
    refine ⟨(h.pending n hold).1,?_⟩
    cases hrest : (s.behind.accept files k).pending with
    | nil =>
      rw [hrest] at hn
      exact absurd hn List.not_mem_nil
    | cons q qs =>
      obtain ⟨hfront,hothers⟩ := htaken.front q qs hrest
      rw [hrest] at hn
      rcases List.mem_cons.mp hn with he | hn
      · rw [he]
        exact hfront
      show ngxBufSize ((s.behind.accept files k).bufs (.own n)) ≠ 0
      rw [hothers _ hn]
      exact (h.pending n hold).2
  · show ((s.behind.accept files k).bufs (.given n)).tag ≠ chunkedTag
    rw [(hsame _).1]
    exact h.tag n

structure Passable (s : State) (out : List Ptr) : Prop where
  nodup : out.Nodup
  kept : ∀ p ∈ out, p ∉ s.behind.pending
  sound : ∀ p ∈ out, Sound (s.behind.bufs p)
  own : ∀ n, .own n ∈ out → Fresh s (.own n) ∧ (s.behind.bufs (.own n)).tag = chunkedTag ∧
    ngxBufInMemory (s.behind.bufs (.own n)) = true ∧ ngxBufSize (s.behind.bufs (.own n)) ≠ 0

theorem pass_inv (out : List Ptr) (h : Inv files s) (hout : Passable s out) :
    Inv files { s with behind := s.behind.pass files out, busy := s.busy++out } := by
  refine ⟨pass_intact files out s.behind h.intact hout.nodup hout.kept hout.sound,h.free,
    h.freeNodup,fun p hp hm => ?_,fun n hn => ?_,fun n => ?_,fun n hn => ?_,h.tag⟩
  · rcases List.mem_append.mp hm with hm | hm
    · exact h.idle p hp hm
    · obtain ⟨n,-,rfl⟩ := h.free p hp
      exact (hout.own n hm).1.free hp
  · rcases List.mem_append.mp hn with hn | hn
    · exact h.busy n hn
    obtain ⟨⟨⟨m,hm,he⟩,-,-⟩,htag,hmemory,-⟩ := hout.own n hn
    cases he
    exact ⟨hm,htag,hmemory⟩
  · rw [List.count_append]
    by_cases hn : .own n ∈ out
    · rw [List.count_eq_zero_of_not_mem (hout.own n hn).1.busy, Nat.zero_add]
      exact List.nodup_iff_count_le_one.mp hout.nodup _
    · rw [List.count_eq_zero_of_not_mem hn]
      exact h.busyOnce n
  · rcases List.mem_append.mp hn with hn | hn
    · exact ⟨List.mem_append_left out (h.pending n hn).1,(h.pending n hn).2⟩
    · exact ⟨List.mem_append_right s.busy hn,(hout.own n hn).2.2.2⟩

/-- The state when the empty buffers in front of the busy ones have been taken back. -/
def updated (s : State) : State :=
  let (bufs, free, busy) := updateLoop chunkedTag s.behind.bufs s.free s.busy
  { s with behind := { s.behind with bufs := bufs }, free := free, busy := busy }

theorem update_inv (h : Inv files s) : Inv files (updated s) := by
  rw [updated]
  have hmemory : ∀ p ∈ s.busy, (s.behind.bufs p).tag = chunkedTag →
      ngxBufInMemory (s.behind.bufs p) = true := by
    intro p hp htag
    cases p with
    | own n => exact (h.busy n hp).2.2
    | given n => exact absurd htag (h.tag n)
  obtain ⟨hbufs,gone,hsplit,hempty,hfree⟩ :=
    update_loop_spec chunkedTag s.behind.bufs s.free s.busy hmemory
  generalize updateLoop chunkedTag s.behind.bufs s.free s.busy = r at *
  obtain ⟨bufs,free,busy⟩ := r
  simp only at hbufs hsplit hfree ⊢
  subst hbufs
  have hrecycled : ∀ p, p ∈ (gone.filter (fun p => (s.behind.bufs p).tag = chunkedTag)).reverse →
      p ∈ gone ∧ ∃ n, p = .own n := by
    intro p hp
    rw [List.mem_reverse, List.mem_filter, decide_eq_true_eq] at hp
    refine ⟨hp.1,?_⟩
    cases p with
    | own n => exact ⟨n,rfl⟩
    | given n => exact absurd hp.2 (h.tag n)
  have hgone : ∀ p ∈ gone, p ∈ s.busy := by
    intro p hp
    rw [hsplit]
    exact List.mem_append_left busy hp
  have hrest : ∀ p ∈ busy, p ∈ s.busy := by
    intro p hp
    rw [hsplit]
    exact List.mem_append_right gone hp
  have hcount : ∀ n, gone.count (.own n)+busy.count (.own n) ≤ 1 := by
    intro n
    rw [← List.count_append, ← hsplit]
    exact h.busyOnce n
  refine ⟨h.intact,fun p hp => ?_,?_,fun p hp hm => ?_,fun n hn => h.busy n (hrest _ hn),
    fun n => ?_,fun n hn => ?_,h.tag⟩
  · rw [hfree] at hp
    rcases List.mem_append.mp hp with hp | hp
    · obtain ⟨hin,n,rfl⟩ := hrecycled p hp
      exact ⟨n,(h.busy n (hgone _ hin)).1,rfl⟩
    · exact h.free p hp
  · rw [hfree]
    refine List.nodup_append.mpr ⟨List.nodup_iff_count_le_one.mpr (fun p => ?_),h.freeNodup,
      fun p hp q hq he => ?_⟩
    · by_cases hp : p ∈ (gone.filter (fun p => (s.behind.bufs p).tag = chunkedTag)).reverse
      · obtain ⟨-,n,rfl⟩ := hrecycled p hp
        rw [List.count_reverse]
        have hsub : (gone.filter (fun p => (s.behind.bufs p).tag = chunkedTag)).Sublist gone :=
          List.filter_sublist
        have hle := hsub.count_le (Ptr.own n)
        have := hcount n
        omega
      · rw [List.count_eq_zero_of_not_mem hp]
        exact Nat.zero_le 1
    · exact h.idle q hq (he ▸ hgone p (hrecycled p hp).1)
  · rw [hfree] at hp
    rcases List.mem_append.mp hp with hp | hp
    · obtain ⟨hin,n,rfl⟩ := hrecycled p hp
      have hpos := List.count_pos_iff.mpr hin
      have hm : .own n ∈ busy := hm
      have hpos' := List.count_pos_iff.mpr hm
      have := hcount n
      omega
    · exact h.idle p hp (hrest p hm)
  · have := hcount n
    show busy.count (.own n) ≤ 1
    omega
  · obtain ⟨hin,hsize⟩ := h.pending n hn
    refine ⟨?_,hsize⟩
    rw [hsplit] at hin
    rcases List.mem_append.mp hin with hin | hin
    · exact absurd (hempty _ hin) hsize
    · exact hin

theorem send_inv (out : List Ptr) (k : ℕ) (h : Inv files s) (hout : Passable s out) :
    Inv files (send files s out k) ∧
      (send files s out k).behind.bytes = s.behind.bytes++contents files s.behind.bufs out := by
  have hinv := update_inv files _ (accept_inv files _ k (pass_inv files s out h hout))
  refine ⟨hinv,?_⟩
  show (s.behind.pass files out).bytes = _
  rw [Behind.bytes, Behind.bytes, Behind.pass]
  simp only [List.flatMap_append, List.flatMap_map]
  rfl

structure Holds (s : State) (held : List (Ptr × List ℕ)) : Prop where
  fresh : ∀ x ∈ held, Fresh s x.1
  tag : ∀ x ∈ held, (s.behind.bufs x.1).tag = chunkedTag
  memory : ∀ x ∈ held, ngxBufInMemory (s.behind.bufs x.1) = true
  data : ∀ x ∈ held, (s.behind.bufs x.1).data = x.2 ∧ x.2 ≠ []
  nodup : (held.map Prod.fst).Nodup

/-- Between the start of a call and its sending only the mark of a given buffer changes. -/
structure Framed (s s' : State) : Prop where
  given : ∀ n, ∃ last, s'.behind.bufs (.given n) = { s.behind.bufs (.given n) with lastBuf := last }
  passed : s'.behind.passed = s.behind.passed
  pending : s'.behind.pending = s.behind.pending

theorem framed_refl : Framed s s := ⟨fun _ => ⟨_,rfl⟩,rfl,rfl⟩

theorem framed_trans (s' s'' : State) (h : Framed s s') (h' : Framed s' s'') : Framed s s'' := by
  refine ⟨fun n => ?_,h'.passed.trans h.passed,h'.pending.trans h.pending⟩
  obtain ⟨last,hlast⟩ := h.given n
  obtain ⟨last',hlast'⟩ := h'.given n
  exact ⟨last',by rw [hlast', hlast]⟩

/-- The state with one more own buffer, filled by `f`. -/
def State.fill (s : State) (f : Buf → Buf) : State :=
  s.getFree.2.set s.getFree.1 (f (s.getFree.2.behind.bufs s.getFree.1))

theorem fill_holds (f : Buf → Buf) (data : List ℕ) (held : List (Ptr × List ℕ)) (h : Inv files s)
    (hheld : Holds s held)
    (hf : ∀ b, (f b).tag = chunkedTag ∧ ngxBufInMemory (f b) = true ∧ (f b).data = data)
    (hdata : data ≠ []) :
    Inv files (s.fill f) ∧ Holds (s.fill f) (held++[(s.getFree.1, data)]) ∧
      (∀ n, (s.fill f).behind.bufs (.given n) = s.behind.bufs (.given n)) ∧ Framed s (s.fill f) := by
  obtain ⟨hinv,hgot⟩ := get_free_inv files s h
  rw [State.fill]
  generalize s.getFree.1 = p at *
  generalize s.getFree.2 = t at *
  obtain ⟨m,-,hown⟩ := hgot.fresh.own
  have hother : ∀ q, q ≠ p → Function.update t.behind.bufs p (f (t.behind.bufs p)) q =
      s.behind.bufs q := by
    intro q hq
    rw [Function.update_of_ne hq]
    exact hgot.frame q hq
  have hself : Function.update t.behind.bufs p (f (t.behind.bufs p)) p = f (t.behind.bufs p) :=
    Function.update_self ..
  have hgiven : ∀ n, Function.update t.behind.bufs p (f (t.behind.bufs p)) (.given n) =
      s.behind.bufs (.given n) := by
    intro n
    refine hother _ (fun he => ?_)
    rw [hown] at he
    cases he
  have hne : ∀ x ∈ held, x.1 ≠ p := fun x hx => (hgot.other x.1 (hheld.fresh x hx)).2
  refine ⟨set_fresh_inv files t p _ hinv hgot.fresh,⟨fun x hx => ?_,fun x hx => ?_,fun x hx => ?_,
    fun x hx => ?_,?_⟩,hgiven,⟨fun n => ⟨_,hgiven n⟩,hgot.passed,hgot.pending⟩⟩
  · rcases List.mem_append.mp hx with hx | hx
    · exact fresh_set t p x.1 _ (hgot.other x.1 (hheld.fresh x hx)).1
    · rw [List.mem_singleton.mp hx]
      exact fresh_set t p p _ hgot.fresh
  · show (Function.update t.behind.bufs p (f (t.behind.bufs p)) x.1).tag = chunkedTag
    rcases List.mem_append.mp hx with hx | hx
    · rw [hother x.1 (hne x hx)]
      exact hheld.tag x hx
    · rw [List.mem_singleton.mp hx, hself]
      exact (hf _).1
  · show ngxBufInMemory (Function.update t.behind.bufs p (f (t.behind.bufs p)) x.1) = true
    rcases List.mem_append.mp hx with hx | hx
    · rw [hother x.1 (hne x hx)]
      exact hheld.memory x hx
    · rw [List.mem_singleton.mp hx, hself]
      exact (hf _).2.1
  · show (Function.update t.behind.bufs p (f (t.behind.bufs p)) x.1).data = x.2 ∧ x.2 ≠ []
    rcases List.mem_append.mp hx with hx | hx
    · rw [hother x.1 (hne x hx)]
      exact hheld.data x hx
    · rw [List.mem_singleton.mp hx, hself]
      exact ⟨(hf _).2.2,hdata⟩
  · rw [List.map_append]
    refine List.nodup_append.mpr ⟨hheld.nodup,List.nodup_singleton p,fun q hq r hr he => ?_⟩
    obtain ⟨x,hx,rfl⟩ := List.mem_map.mp hq
    exact hne x hx (he.trans (List.mem_singleton.mp hr))

variable (held : List (Ptr × List ℕ))

theorem held_contents (h : Holds s held) :
    contents files s.behind.bufs (held.map Prod.fst) = held.flatMap Prod.snd := by
  rw [contents, List.flatMap_map]
  refine List.flatMap_congr (fun x hx => ?_)
  rw [content, if_pos (h.memory x hx), (h.data x hx).1]

theorem add_line_spec (size : ℕ) (h : Inv files s) :
    Inv files (addLine s size).1 ∧ (∀ n, (addLine s size).1.behind.bufs (.given n) =
        s.behind.bufs (.given n)) ∧ Framed s (addLine s size).1 ∧
      ∃ held, Holds (addLine s size).1 held ∧ (addLine s size).2 = held.map Prod.fst ∧
        held.flatMap Prod.snd = if size ≠ 0 then hex size++[13,10] else [] := by
  have hnone : Holds s [] := ⟨nofun,nofun,nofun,nofun,List.nodup_nil⟩
  rw [addLine]
  split_ifs with hsize
  · obtain ⟨hinv,hheld,hgiven,hframed⟩ := fill_holds files s (fun b => sizeLine b size)
      (hex size++[13,10]) [] h hnone (fun b => ⟨rfl,rfl,rfl⟩) (by simp)
    exact ⟨hinv,hgiven,hframed,_,hheld,rfl,List.append_nil _⟩
  · exact ⟨h,fun _ => rfl,framed_refl s,[],hnone,rfl,rfl⟩

def tailBytes (size : ℕ) (last : Bool) : List ℕ :=
  if last then (if size = 0 then lastChunk else [13,10]++lastChunk)
  else if size > 0 then [13,10] else []

theorem mark_holds (t : State) (n : ℕ) (held : List (Ptr × List ℕ)) (p : Ptr) (data : List ℕ)
    (hinv : Inv files t) (hheld : Holds t (held++[(p, data)])) (hframed : Framed s t)
    (hcl : .given n ∉ s.behind.pending) :
    Inv files (t.set (.given n) { t.behind.bufs (.given n) with lastBuf := false }) ∧
      Framed s (t.set (.given n) { t.behind.bufs (.given n) with lastBuf := false }) ∧
      ∃ more, Holds (t.set (.given n) { t.behind.bufs (.given n) with lastBuf := false })
          (held++more) ∧ [p] = more.map Prod.fst ∧ more.flatMap Prod.snd = data := by
  have hown : ∀ x ∈ held++[(p, data)], Function.update t.behind.bufs (.given n)
      { t.behind.bufs (.given n) with lastBuf := false } x.1 = t.behind.bufs x.1 := by
    intro x hx
    obtain ⟨m,-,he⟩ := (hheld.fresh x hx).own
    refine Function.update_of_ne (fun hc => ?_) _ _
    rw [he] at hc
    cases hc
  refine ⟨set_inv files t _ _ hinv ?_ nofun (fun m he => ?_),framed_trans s t _ hframed
    ⟨fun m => ?_,rfl,rfl⟩,[(p, data)],⟨fun x hx => fresh_set t _ x.1 _ (hheld.fresh x hx),fun x hx => ?_,fun x hx => ?_,
    fun x hx => ?_,hheld.nodup⟩,rfl,List.append_nil _⟩
  · rw [hframed.pending]
    exact hcl
  · exact hinv.tag n
  · by_cases hm : m = n
    · subst hm
      exact ⟨false,Function.update_self ..⟩
    · exact ⟨_,Function.update_of_ne (fun he => hm (Ptr.given.inj he)) _ _⟩
  · exact (congrArg Buf.tag (hown x hx)).trans (hheld.tag x hx)
  · exact (congrArg ngxBufInMemory (hown x hx)).trans (hheld.memory x hx)
  · obtain ⟨hdata,hne⟩ := hheld.data x hx
    exact ⟨(congrArg Buf.data (hown x hx)).trans hdata,hne⟩

theorem add_end_spec (size n : ℕ) (held : List (Ptr × List ℕ)) (h : Inv files s)
    (hheld : Holds s held) (hcl : .given n ∉ s.behind.pending) :
    Inv files (addEnd s size (.given n)).1 ∧ Framed s (addEnd s size (.given n)).1 ∧
      ∃ more, Holds (addEnd s size (.given n)).1 (held++more) ∧
        (addEnd s size (.given n)).2 = more.map Prod.fst ∧
        more.flatMap Prod.snd = tailBytes size (s.behind.bufs (.given n)).lastBuf := by
  rw [addEnd, tailBytes]
  split_ifs with hlast hzero hsize
  · obtain ⟨hinv,hmore,-,hframed⟩ := fill_holds files s
      (fun b => { constant b lastChunk with lastBuf := true }) lastChunk held h hheld
      (fun b => ⟨rfl,rfl,rfl⟩) (by simp [lastChunk])
    exact mark_holds files s _ n held _ _ hinv hmore hframed hcl
  · obtain ⟨hinv,hmore,-,hframed⟩ := fill_holds files s
      (fun b => { constant b ([13,10]++lastChunk) with lastBuf := true }) ([13,10]++lastChunk) held
      h hheld (fun b => ⟨rfl,rfl,rfl⟩) (by simp)
    exact mark_holds files s _ n held _ _ hinv hmore hframed hcl
  · obtain ⟨hinv,hmore,-,hframed⟩ := fill_holds files s (fun b => constant b [13,10]) [13,10]
      held h hheld (fun b => ⟨rfl,rfl,rfl⟩) (by simp)
    exact ⟨hinv,hframed,_,hmore,rfl,List.append_nil _⟩
  · exact ⟨h,framed_refl s,[],by rwa [List.append_nil],rfl,rfl⟩

theorem contents_length (bufs : Ptr → Buf) (ps : List Ptr) :
    (contents files bufs ps).length = (ps.map (fun p => ngxBufSize (bufs p))).sum := by
  induction ps with
  | nil => rfl
  | cons p ps ih =>
    rw [List.map_cons, List.sum_cons, ← ih, ← content_length files]
    exact List.length_append

theorem links_contents (bufs : Ptr → Buf) (ps : List Ptr) (h : ∀ p ∈ ps, Sound (bufs p)) :
    contents files bufs (ps.filter (fun p => (bufs p).flush || (bufs p).sync ||
      ngxBufInMemory (bufs p) || (bufs p).inFile)) = contents files bufs ps := by
  induction ps with
  | nil => rfl
  | cons p ps ih =>
    have hps := ih (fun q hq => h q (List.mem_cons_of_mem p hq))
    rw [List.filter_cons]
    split_ifs with hkeep
    · exact congrArg (content files (bufs p)++·) hps
    · have hempty : ngxBufSize (bufs p) = 0 := by
        simp only [Bool.or_eq_true, not_or, Bool.not_eq_true] at hkeep
        rw [ngxBufSize, if_neg (by rw [hkeep.1.2]; exact Bool.false_ne_true)]
        rcases h p List.mem_cons_self with hm | hf | hle
        · rw [hkeep.1.2] at hm
          cases hm
        · rw [hkeep.2] at hf
          cases hf
        · omega
      rw [hps]
      exact (congrArg (·++contents files bufs ps) (content_empty files _ hempty)).symm

def piece (data : List ℕ) (last : Bool) : List ℕ :=
  (if data.length ≠ 0 then hex data.length++[13,10] else [])++data++tailBytes data.length last

theorem filter_spec (ins : List Ptr) (cl : Ptr) (k : ℕ) (h : Inv files s)
    (hv : Valid s ins cl s.behind.bufs) :
    Inv files (ngxHttpChunkedBodyFilter files s ins cl k) ∧
      (ngxHttpChunkedBodyFilter files s ins cl k).behind.bytes = s.behind.bytes++
        piece (contents files s.behind.bufs ins) (s.behind.bufs cl).lastBuf := by
  have hin : cl ∈ ins := List.mem_of_getLast? hv.last
  obtain ⟨n,rfl⟩ := hv.given cl hin
  have hlinks := links_contents files s.behind.bufs ins hv.sound
  have hsize := contents_length files s.behind.bufs ins
  rw [ngxHttpChunkedBodyFilter]
  simp only
  rw [← hsize]
  generalize hdata : contents files s.behind.bufs ins = data at *
  obtain ⟨hinv1,hgiven1,hframed1,held,hheld,hline,hlineBytes⟩ :=
    add_line_spec files s data.length h
  generalize addLine s data.length = r1 at *
  obtain ⟨s1,line⟩ := r1
  obtain ⟨hinv2,hframed2,more,hmore,htail,htailBytes⟩ := add_end_spec files s1 data.length n
    held hinv1 hheld (by rw [hframed1.pending]; exact hv.taken _ hin)
  generalize addEnd s1 data.length (.given n) = r2 at *
  obtain ⟨s2,tail⟩ := r2
  have hframed := framed_trans s s1 s2 hframed1 hframed2
  generalize hkept : ins.filter (fun p => (s.behind.bufs p).flush || (s.behind.bufs p).sync ||
    ngxBufInMemory (s.behind.bufs p) || (s.behind.bufs p).inFile) = links at *
  simp only at hline htail ⊢
  subst hline
  subst htail
  have hlinksIn : ∀ p ∈ links, p ∈ ins := by
    intro p hp
    rw [← hkept] at hp
    exact (List.mem_filter.mp hp).1
  have hlinksNodup : links.Nodup := by
    rw [← hkept]
    exact hv.nodup.filter _
  have hout : (if links = [] then more.map Prod.fst
      else held.map Prod.fst++links++more.map Prod.fst) =
        held.map Prod.fst++links++more.map Prod.fst := by
    split_ifs with hnil
    · subst hnil
      have hzero : data.length = 0 := by
        rw [← hlinks]
        rfl
      rw [if_neg (not_not.mpr hzero)] at hlineBytes
      cases held with
      | nil => rfl
      | cons x held =>
        exact absurd (List.append_eq_nil_iff.mp hlineBytes).1 (hheld.data x List.mem_cons_self).2
    · rfl
  have hsame : ∀ p ∈ links, content files (s2.behind.bufs p) = content files (s.behind.bufs p) ∧
      (Sound (s.behind.bufs p) → Sound (s2.behind.bufs p)) := by
    intro p hp
    obtain ⟨m,rfl⟩ := hv.given p (hlinksIn p hp)
    obtain ⟨last,hlast⟩ := hframed.given m
    rw [hlast]
    exact ⟨rfl,id⟩
  have hheldOwn : ∀ p ∈ (held++more).map Prod.fst, Fresh s2 p ∧
      (s2.behind.bufs p).tag = chunkedTag ∧ ngxBufInMemory (s2.behind.bufs p) = true ∧
      ngxBufSize (s2.behind.bufs p) ≠ 0 := by
    intro p hp
    obtain ⟨x,hx,rfl⟩ := List.mem_map.mp hp
    obtain ⟨hbytes,hne⟩ := hmore.data x hx
    refine ⟨hmore.fresh x hx,hmore.tag x hx,hmore.memory x hx,?_⟩
    rw [ngxBufSize, if_pos (hmore.memory x hx), hbytes]
    exact fun hz => hne (List.eq_nil_of_length_eq_zero hz)
  have hperm : (held.map Prod.fst++links++more.map Prod.fst).Perm
      ((held++more).map Prod.fst++links) := by
    rw [List.map_append, List.append_assoc, List.append_assoc]
    exact List.perm_append_comm.append_left _
  have hmem : ∀ p, p ∈ held.map Prod.fst++links++more.map Prod.fst →
      p ∈ (held++more).map Prod.fst ∨ p ∈ links :=
    fun p hp => List.mem_append.mp (hperm.mem_iff.mp hp)
  have hpass : Passable s2 (held.map Prod.fst++links++more.map Prod.fst) := by
    refine ⟨hperm.nodup_iff.mpr (List.nodup_append.mpr ⟨hmore.nodup,hlinksNodup,
      fun p hp q hq he => ?_⟩),fun p hp => ?_,fun p hp => ?_,fun m hm => ?_⟩
    · obtain ⟨m,-,hown⟩ := (hheldOwn p hp).1.own
      obtain ⟨j,hgiven⟩ := hv.given q (hlinksIn q hq)
      rw [← he, hown] at hgiven
      cases hgiven
    · rcases hmem p hp with hp | hp
      · exact fresh_not_pending files s2 p hinv2 (hheldOwn p hp).1
      · rw [hframed.pending]
        exact hv.taken p (hlinksIn p hp)
    · rcases hmem p hp with hp | hp
      · exact Or.inl (hheldOwn p hp).2.2.1
      · exact (hsame p hp).2 (hv.sound p (hlinksIn p hp))
    · rcases hmem _ hm with hm | hm
      · exact hheldOwn _ hm
      · obtain ⟨j,hgiven⟩ := hv.given _ (hlinksIn _ hm)
        cases hgiven
  rw [hout]
  obtain ⟨hinv,hbytes⟩ := send_inv files s2 _ k hinv2 hpass
  refine ⟨hinv,?_⟩
  have hheldAll := held_contents files s2 (held++more) hmore
  rw [List.map_append, contents_append, List.flatMap_append] at hheldAll
  have hheldLine : contents files s2.behind.bufs (held.map Prod.fst) = held.flatMap Prod.snd := by
    rw [contents, List.flatMap_map]
    refine List.flatMap_congr (fun x hx => ?_)
    have hx := List.mem_append_left more hx
    rw [content, if_pos (hmore.memory x hx), (hmore.data x hx).1]
  rw [hheldLine] at hheldAll
  have htailAll := List.append_cancel_left hheldAll
  have hlinksAll : contents files s2.behind.bufs links = data := by
    rw [← hlinks]
    exact List.flatMap_congr (fun p hp => (hsame p hp).1)
  have hpassed : s2.behind.bytes = s.behind.bytes := by
    rw [Behind.bytes, Behind.bytes, hframed.passed]
  rw [hbytes, hpassed, contents_append, contents_append, hheldLine, htailAll, hlinksAll, hlineBytes,
    htailBytes, hgiven1, piece]

theorem message_piece (chunks : List (List ℕ)) (data : List ℕ) (last : Bool) :
    message chunks false++piece data last =
      message (if data = [] then chunks else chunks++[data]) last := by
  by_cases hdata : data = []
  · subst hdata
    cases last <;> simp [message, piece, tailBytes]
  have hlen : data.length ≠ 0 := fun hz => hdata (List.eq_nil_of_length_eq_zero hz)
  cases last <;>
    simp [message, piece, tailBytes, hdata, chunk, lastChunk]

theorem bring_inv (ins : List Ptr) (cl : Ptr) (bufs : Ptr → Buf) (h : Inv files s)
    (hv : Valid s ins cl bufs) : Inv files { s with behind := { s.behind with bufs := bufs } } := by
  have hown : ∀ n, bufs (.own n) = s.behind.bufs (.own n) := fun n => hv.frame _ (Or.inr ⟨n,rfl⟩)
  refine ⟨write_intact files s.behind bufs h.intact (fun p hp => hv.frame p (Or.inl hp)),h.free,
    h.freeNodup,h.idle,fun n hn => ?_,h.busyOnce,fun n hn => ?_,hv.tag⟩
  · show n < s.next ∧ (bufs (.own n)).tag = chunkedTag ∧ ngxBufInMemory (bufs (.own n)) = true
    rw [hown]
    exact h.busy n hn
  · show .own n ∈ s.busy ∧ ngxBufSize (bufs (.own n)) ≠ 0
    rw [hown]
    exact h.pending n hn

theorem reached_inv (body : List ℕ) (last : Bool) (h : Reached files s body last) :
    Inv files s ∧ ∃ chunks, (∀ data ∈ chunks, data ≠ []) ∧
      chunks.flatten = body ∧ s.behind.bytes = message chunks last := by
  induction h with
  | init bufs htag =>
    exact ⟨⟨⟨rfl,List.nodup_nil,nofun⟩,nofun,List.nodup_nil,nofun,nofun,fun _ => Nat.zero_le 1,
      nofun,htag⟩,[],nofun,rfl,rfl⟩
  | call s body ins cl bufs k h hvalid ih =>
    obtain ⟨hinv,chunks,hne,hbody,hbytes⟩ := ih
    obtain ⟨hinv',hbytes'⟩ := filter_spec files
      { s with behind := { s.behind with bufs := bufs } } ins cl k
      (bring_inv files s ins cl bufs hinv hvalid)
      ⟨hvalid.last,hvalid.given,hvalid.nodup,hvalid.taken,fun _ _ => rfl,hvalid.sound,hvalid.tag,
        hvalid.marks⟩
    refine ⟨hinv',if contents files bufs ins = [] then chunks else chunks++[contents files bufs ins],
      fun data hdata => ?_,?_,?_⟩
    · split_ifs at hdata with hempty
      · exact hne data hdata
      · rcases List.mem_append.mp hdata with hdata | hdata
        · exact hne data hdata
        · rw [List.mem_singleton.mp hdata]
          exact hempty
    · split_ifs with hempty
      · rw [hempty, List.append_nil, hbody]
      · rw [List.flatten_append, hbody, List.flatten_singleton]
    · rw [hbytes', ← message_piece, ← hbytes]
      rfl
  | drain s body last k h ih =>
    obtain ⟨hinv,chunks,hne,hbody,hbytes⟩ := ih
    exact ⟨accept_inv files s k hinv,chunks,hne,hbody,hbytes⟩

/-- What has been passed on decodes to the body, with the last chunk once the mark has
been seen; what the filter behind keeps is as it was passed; and the buffers that a
call may fill are not among it. -/
theorem chunked_filter_law (files : Option ℕ → ℕ → ℕ) (s : State) (body : List ℕ) (last : Bool)
    (h : Reached files s body last) :
    decode (s.behind.bytes.length+1) s.behind.bytes = some (body, last) ∧
      s.behind.sent++contents files s.behind.bufs s.behind.pending = s.behind.bytes ∧
      ∀ p ∈ s.free, p ∉ s.behind.pending := by
  obtain ⟨hinv,chunks,hne,hbody,hbytes⟩ := reached_inv files s body last h
  refine ⟨?_,hinv.intact.bytes,fun p hp hin => ?_⟩
  · rw [hbytes, decode_message chunks last _ hne (Nat.lt_succ_of_le (chunks_length chunks last)), hbody]
  · obtain ⟨n,-,rfl⟩ := hinv.free p hp
    exact hinv.idle _ hp (hinv.pending n hin).1

def twoBytes : Buf := { ngxCallocBuf with memory := true, lastBuf := true, data := [97,98] }

/-- One call, of whose bytes the filter behind takes four. -/
theorem chunked_filter_law_two : ∃ s : State, s.behind.sent = [50,13,10,97] ∧
    decode (s.behind.bytes.length+1) s.behind.bytes = some ([97,98], true) ∧
      s.behind.sent++contents (fun _ _ => 0) s.behind.bufs s.behind.pending = s.behind.bytes ∧
      ∀ p ∈ s.free, p ∉ s.behind.pending := by
  have hinit : Reached (fun _ _ => 0) ⟨⟨fun _ => ngxCallocBuf,[],[],[]⟩,0,[],[]⟩ [] false :=
    Reached.init _ (fun _ => by decide)
  have hcall := Reached.call _ _ [.given 0] (.given 0)
    (Function.update (fun _ => ngxCallocBuf) (.given 0) twoBytes) 4 hinit
    ⟨rfl,fun p hp => ⟨0,List.mem_singleton.mp hp⟩,List.nodup_singleton _,fun _ _ => List.not_mem_nil,
      fun p hp => ?_,fun p hp => ?_,fun n => ?_,fun p hp hne => absurd (List.mem_singleton.mp hp) hne⟩
  · exact ⟨_,by decide,chunked_filter_law _ _ _ _ hcall⟩
  · rcases hp with hp | ⟨n,rfl⟩
    · exact absurd hp List.not_mem_nil
    · rfl
  · rw [List.mem_singleton.mp hp]
    exact Or.inl rfl
  · by_cases hn : n = 0
    · subst hn
      decide
    show (Function.update (fun _ => ngxCallocBuf) (Ptr.given 0) twoBytes (.given n)).tag ≠ chunkedTag
    rw [Function.update_of_ne (fun he => hn (Ptr.given.inj he))]
    decide

end Nginx.ChunkedFilter
