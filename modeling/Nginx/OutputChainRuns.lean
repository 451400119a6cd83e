import Nginx.OutputChainLaw

/-!
# Runs of the output chain

A run is any sequence of calls of `ngx_output_chain` and of moments at which the filter
behind takes bytes. A call that returns an error ends it.
-/

set_option autoImplicit false

namespace Nginx.OutputChainRuns
open Nginx.BufChain Nginx.OutputChain Nginx.OutputChainLaw

/-- What a call may be given when the buffers hold `bufs`: buffers that are not on their way,
of which the last one may carry the mark if it has bytes or is special. -/
structure Valid (c : Config) (s : State) (ins : List Ptr) (bufs : Ptr → Buf) (last : Bool) :
    Prop where
  given : ∀ p ∈ ins, ∃ n, p = .given n
  nodup : ins.Nodup
  apart : ∀ p ∈ ins, p ∉ s.behind.pending ∧ p ∉ s.ins
  frame : ∀ p, p ∈ s.behind.pending ∨ p ∈ s.ins ∨ (∃ n, p = .own n) → bufs p = s.behind.bufs p
  sound : ∀ p ∈ ins, Sound (bufs p)
  tag : ∀ n, (bufs (.given n)).tag ≠ c.tag
  marks : Marked last (ins.map (fun p => (bufs p).lastBuf))
  full : ∀ p ∈ ins, (bufs p).lastBuf = true → ngxBufSpecial (bufs p) = true ∨
    ngxBufSize (bufs p) ≠ 0

/-- The state in which a call starts; the caller has set `ctx->aio`. -/
def State.filled (s : State) (bufs : Ptr → Buf) (aio : Bool) : State :=
  { s with behind := { s.behind with bufs := bufs }, aio := aio }

/-- A run with the bytes that the calls have been given, and whether the mark has been. -/
inductive Reached (c : Config) (files : Option ℕ → ℕ → ℕ) : State → List ℕ → Bool → Prop where
  | init (bufs : Ptr → Buf) (htag : ∀ n, (bufs (.given n)).tag ≠ c.tag) :
      Reached c files ⟨⟨bufs,[],[],[]⟩,0,[],none,[],[],0,false,false⟩ [] false
  | call (s : State) (input : List ℕ) (last : Bool) (ins : List Ptr) (bufs : Ptr → Buf) (last' : Bool)
      (aio : Bool) (rounds : List Round) (s' : State) (rc : Rc) (h : Reached c files s input last)
      (hvalid : Valid c s ins bufs last') (honly : last = true → ins = [])
      (hrun : ngxOutputChain c files (State.filled s bufs aio) ins rounds = some (s', rc))
      (herror : rc ≠ .error) (hdone : rc ≠ .done) :
      Reached c files s' (input++contents files bufs ins) (last || last')
  | drain (s : State) (input : List ℕ) (last : Bool) (k : ℕ) (h : Reached c files s input last) :
      Reached c files { s with behind := s.behind.accept files k } input last

section Calls
variable (c : Config) (files : Option ℕ → ℕ → ℕ) (s : State) (input : List ℕ) (last : Bool)
  (ins : List Ptr) (bufs : Ptr → Buf) (last' : Bool) (aio : Bool)

theorem filled_kept (hk : Kept files s []) (hvalid : Valid c s ins bufs last') :
    Kept files (State.filled s bufs aio) [] := by
  refine ⟨write_intact files s.behind bufs hk.intact (fun p hp => hvalid.frame p (Or.inl hp)),
    fun n hn => ?_,fun n hn => ?_,List.nodup_nil,nofun,nofun,nofun⟩
  · show .own n ∈ s.busy ∧ ngxBufSize (bufs (.own n)) ≠ 0
    rw [hvalid.frame _ (Or.inl hn)]
    exact hk.pending n hn
  · show 0 < (bufs (.own n)).room
    rw [hvalid.frame _ (Or.inr (Or.inr ⟨n,rfl⟩))]
    exact hk.room n hn

theorem added_inv (h : Inv c files s [] input last) (hvalid : Valid c s ins bufs last')
    (honly : last = true → ins = []) :
    Inv c files { State.filled s bufs aio with ins := s.ins++ins } []
      (input++contents files bufs ins) (last || last') := by
  have hsame : ∀ p ∈ s.ins, bufs p = s.behind.bufs p :=
    fun p hp => hvalid.frame p (Or.inr (Or.inl hp))
  have hown : ∀ n, bufs (.own n) = s.behind.bufs (.own n) :=
    fun n => hvalid.frame _ (Or.inr (Or.inr ⟨n,rfl⟩))
  have hcases : last = false ∨ (last = true ∧ ins = []) := by
    cases last with
    | false => exact Or.inl rfl
    | true => exact Or.inr ⟨rfl,honly rfl⟩
  refine ⟨?_,?_,fun hl n hn => ?_,fun p hp => ?_,h.once,h.below,fun p hp => ?_,
    fun n hn => ?_,fun p hp => ?_,?_,fun p hp => ⟨?_,List.not_mem_nil⟩,fun p hp => ?_,
    hvalid.tag⟩
  · show s.behind.bytes++[]++contents files bufs (s.ins++ins) = _
    rw [contents_append, contents_congr files s.behind.bufs bufs s.ins hsame, ← List.append_assoc]
    exact congrArg (fun xs => xs++contents files bufs ins) h.bytes
  · show Marked (last || last') (s.behind.passed.map Prod.snd++[]++
      (s.ins++ins).map (fun p => (bufs p).lastBuf))
    rw [List.map_append, List.map_congr_left (fun p hp => congrArg Buf.lastBuf (hsame p hp)),
      ← List.append_assoc]
    rcases hcases with rfl | ⟨rfl,rfl⟩
    · exact marked_join last' _ _ h.marks hvalid.marks
    · rw [List.map_nil, List.append_nil]
      exact h.marks
  · show (bufs (.own n)).lastBuf = false
    rw [hown]
    rcases hcases with rfl | ⟨rfl,rfl⟩
    · exact h.clean (Or.inl rfl) n hn
    refine h.clean (Or.inr ?_) n hn
    rcases hl with hl | hl
    · cases hl
    · have hne : s.ins++[] ≠ [] := hl
      rwa [List.append_nil] at hne
  · show (bufs p).lastBuf = true → ngxBufSpecial (bufs p) = true ∨ ngxBufSize (bufs p) ≠ 0
    rcases List.mem_append.mp hp with hp | hp
    · rw [hsame p hp]
      exact h.full p hp
    · exact hvalid.full p hp
  · obtain ⟨⟨n,rfl⟩,hdata⟩ := h.idle p hp
    refine ⟨⟨n,rfl⟩,?_⟩
    show (bufs (.own n)).data = []
    rw [hown]
    exact hdata
  · show (bufs (.own n)).temporary = true
    rw [hown]
    exact h.own n hn
  · rcases List.mem_append.mp hp with hp | hp
    · exact h.given p hp
    · exact hvalid.given p hp
  · refine List.nodup_append.mpr ⟨h.nodup,hvalid.nodup,fun p hp q hq he => ?_⟩
    exact (hvalid.apart q hq).2 (he ▸ hp)
  · rcases List.mem_append.mp hp with hp | hp
    · exact (h.apart p hp).1
    · exact (hvalid.apart p hp).1
  · show Sound (bufs p)
    rcases List.mem_append.mp hp with hp | hp
    · rw [hsame p hp]
      exact h.sound p hp
    · exact hvalid.sound p hp

theorem ended_from (s0 : State) (s' : State) (rc : Rc) (h : Ended c files s [] input last s' rc)
    (hpassed : s.behind.passed = s0.behind.passed)
    (hk : 0 < c.size → Kept files s0 [] → Kept files s []) :
    Ended c files s0 [] input last s' rc := by
  refine ⟨?_,h.bytes,h.marks,h.after,fun herror hdone => ?_,h.whole⟩
  · rw [← hpassed]
    exact h.more
  · obtain ⟨hinv,hkept⟩ := h.inv herror hdone
    exact ⟨hinv,fun hc hk0 => hkept hc (hk hc hk0)⟩

theorem unbusy_inv (busy out : List Ptr)
    (h : Inv c files { s with busy := busy++out } [] input last) (hown : ∀ n, .own n ∉ out) :
    Inv c files { s with busy := busy } [] input last ∧
      (Kept files { s with busy := busy++out } [] → Kept files { s with busy := busy } []) := by
  have hcount : ∀ n, (held { s with busy := busy } []).count (.own n) =
      (held { s with busy := busy++out } []).count (.own n) := by
    intro n
    rw [held_count, held_count, List.count_append, List.count_eq_zero_of_not_mem (hown n)]
    rfl
  refine ⟨⟨h.bytes,h.marks,h.clean,h.full,fun n => by rw [hcount]; exact h.once n,
    fun n hn => ?_,h.idle,h.own,h.given,h.nodup,h.apart,h.sound,h.tag⟩,fun hk => ?_⟩
  · refine h.below n (hn.imp (fun hn => ?_) id)
    rw [← List.count_pos_iff, ← hcount]
    exact List.count_pos_iff.mpr hn
  · refine ⟨hk.intact,fun n hn => ?_,hk.room,hk.nodup,hk.apart,hk.sound,hk.filled⟩
    obtain ⟨hin,hsize⟩ := hk.pending n hn
    rcases List.mem_append.mp hin with hin | hin
    · exact ⟨hin,hsize⟩
    · exact absurd hin (hown n)

theorem direct_ended (out : List Ptr) (h : Inv c files s out input last) (hins : s.ins = [])
    (hown : ∀ n, .own n ∉ out) (rounds : List Round) (s' : State) (rc : Rc)
    (hrun : direct files s out rounds = some (s', rc)) : Ended c files s out input last s' rc := by
  rcases rounds with _ | ⟨r,_ | ⟨r',rs⟩⟩
  · cases hrun
  · cases hrun
    have hbusy := accept_inv c files _ input last (pass_inv c files s out input last h) r.accepted
    obtain ⟨hinv,hkept⟩ := unbusy_inv c files (s.pass files out r.accepted) input last s.busy out
      hbusy hown
    obtain ⟨hbytes,hmarks,hafter⟩ := inv_front c files _ [] input last hinv
    exact ⟨pass_more files s out r.accepted,hbytes,hmarks,hafter,
      fun _ _ => ⟨hinv,fun _ hk => hkept (accept_kept files _ (pass_kept files s out hk) _)⟩,
      fun _ _ _ => hins⟩
  · cases hrun

theorem call_ended (h : Inv c files s [] input last) (hvalid : Valid c s ins bufs last')
    (honly : last = true → ins = []) (rounds : List Round) (s' : State) (rc : Rc)
    (hrun : ngxOutputChain c files (State.filled s bufs aio) ins rounds = some (s', rc)) :
    Ended c files s [] (input++contents files bufs ins) (last || last') s' rc := by
  have hadded := added_inv c files s input last ins bufs last' aio h hvalid honly
  have hkept : ∀ ps, 0 < c.size → Kept files s [] →
      Kept files { State.filled s bufs aio with ins := ps } [] := by
    intro ps _ hk
    obtain ⟨h1,h2,h3,h4,h5,h6,h7⟩ := filled_kept c files s ins bufs last' aio hk hvalid
    exact ⟨h1,h2,h3,h4,h5,h6,h7⟩
  have hloop : outputLoop c files rounds none { State.filled s bufs aio with ins := s.ins++ins } =
      some (s', rc) → Ended c files s [] (input++contents files bufs ins) (last || last') s' rc := by
    intro hrun
    exact ended_from c files _ _ _ s s' rc
      (output_loop_ended c files _ _ _ rounds none hadded s' rc hrun) rfl (hkept (s.ins++ins))
  rw [ngxOutputChain.eq_def] at hrun
  by_cases hshort : (State.filled s bufs aio).ins = [] ∧ (State.filled s bufs aio).busy = []
  · rw [if_pos hshort] at hrun
    have hins : s.ins = [] := hshort.1
    rw [hins, List.nil_append] at hadded
    have hsame : ∀ b p, { State.set { State.filled s bufs aio with ins := [p] } p b with ins := [] } =
        State.set (State.filled s bufs aio) p b := by
      intro b p
      rw [State.set, State.set, ← hshort.1]
    rcases ins with _ | ⟨p,_ | ⟨q,ps⟩⟩
    · have hnone : { State.filled s bufs aio with ins := [] } = State.filled s bufs aio := by
        rw [← hshort.1]
      rw [hnone] at hadded
      exact ended_from c files _ _ _ s s' rc
        (direct_ended c files _ _ _ [] hadded hins (fun n => List.not_mem_nil) rounds s' rc hrun) rfl
        (fun hc hk => by rw [← hnone]; exact hkept [] hc hk)
    · obtain ⟨hgiven,-,hpending,hout,-⟩ := front_given c files _ [] _ _ p [] hadded rfl
      have hlike := as_is_like c (bufs p)
      simp only at hrun
      change (if (ngxOutputChainAsIs c (bufs p)).1 then
          direct files ((State.filled s bufs aio).set p (ngxOutputChainAsIs c (bufs p)).2) [p] rounds
        else outputLoop c files rounds none
          { (State.filled s bufs aio).set p (ngxOutputChainAsIs c (bufs p)).2 with ins := [p] }) =
        some (s', rc) at hrun
      generalize ngxOutputChainAsIs c (bufs p) = r at hrun hlike
      obtain ⟨asIs,b⟩ := r
      simp only at hrun hlike
      have hset := rewrite_inv c files _ [] _ _ p hadded hpending hout hgiven b hlike
      have hsetk := fun hc hk => rewrite_kept files _ [] p (hkept [p] hc hk) hpending hout hgiven b
      cases asIs with
      | true =>
        rw [if_pos rfl] at hrun
        have hpass := pass_as_is_inv c files _ [] _ _ p [] hset rfl
        have hpassk := fun hc hk => pass_as_is_kept c files _ [] _ _ p [] hset (hsetk hc hk) rfl
        rw [hsame, List.nil_append] at hpass hpassk
        have hended := direct_ended c files _ _ _ [p] hpass hins (fun n hn => by
          obtain ⟨m,hm⟩ := hgiven
          rw [hm] at hn
          cases List.mem_singleton.mp hn) rounds s' rc hrun
        refine ⟨hended.more,hended.bytes,hended.marks,hended.after,fun herror hdone => ?_,
          hended.whole⟩
        obtain ⟨hinv,hk⟩ := hended.inv herror hdone
        exact ⟨hinv,fun hc hk0 => hk hc (hpassk hc hk0)⟩
      | false =>
        rw [if_neg Bool.false_ne_true] at hrun
        exact ended_from c files _ _ _ s s' rc
          (output_loop_ended c files _ _ _ rounds none hset s' rc hrun) rfl hsetk
    · exact hloop hrun
  · rw [if_neg hshort] at hrun
    exact hloop hrun

end Calls

theorem init_inv (c : Config) (files : Option ℕ → ℕ → ℕ) (bufs : Ptr → Buf)
    (htag : ∀ n, (bufs (.given n)).tag ≠ c.tag) :
    Inv c files ⟨⟨bufs,[],[],[]⟩,0,[],none,[],[],0,false,false⟩ [] [] false ∧
      Kept files ⟨⟨bufs,[],[],[]⟩,0,[],none,[],[],0,false,false⟩ [] := by
  refine ⟨⟨rfl,⟨0,rfl⟩,fun _ n hn => absurd hn (Nat.not_lt_zero n),nofun,fun n => Nat.zero_le 1,
    fun n hn => ?_,nofun,fun n hn => absurd hn (Nat.not_lt_zero n),nofun,List.nodup_nil,nofun,
    nofun,htag⟩,⟨⟨rfl,List.nodup_nil,nofun⟩,nofun,fun n hn => absurd hn (Nat.not_lt_zero n),
    List.nodup_nil,nofun,nofun,nofun⟩⟩
  rcases hn with hn | hn <;> cases hn

theorem reached_inv (c : Config) (files : Option ℕ → ℕ → ℕ) (s : State) (input : List ℕ) (last : Bool)
    (h : Reached c files s input last) :
    Inv c files s [] input last ∧ (0 < c.size → Kept files s []) := by
  induction h with
  | init bufs htag => exact ⟨(init_inv c files bufs htag).1,fun _ => (init_inv c files bufs htag).2⟩
  | call s input last ins bufs last' aio rounds s' rc h hvalid honly hrun herror hdone ih =>
    obtain ⟨hinv,hkept⟩ := ih
    obtain ⟨hinv',hkept'⟩ := (call_ended c files s input last ins bufs last' aio hinv hvalid honly
      rounds s' rc hrun).inv herror hdone
    exact ⟨hinv',fun hc => hkept' hc (hkept hc)⟩
  | drain s input last k h ih =>
    exact ⟨accept_inv c files s input last ih.1 k,fun hc => accept_kept files s (ih.2 hc) k⟩

/-- What a call has passed on of the input, which is now `input` with the mark `last`. -/
structure Passed (s s' : State) (rc : Rc) (input : List ℕ) (last : Bool) : Prop where
  more : s.behind.passed <+: s'.behind.passed
  bytes : s'.behind.bytes <+: input
  marks : ∃ tail, Marked last (s'.behind.passed.map Prod.snd++tail)
  after : true ∈ s'.behind.passed.map Prod.snd → s'.behind.bytes = input
  whole : rc = .ok → s'.ins = [] ∧ s'.behind.bytes = input ∧
    Marked last (s'.behind.passed.map Prod.snd)

/-- In every state of a run what has been passed on and what is in `ctx->in` are the input
in order, and what the filter behind keeps is as it was passed. Every call goes on with a prefix
of the input; one that returns `NGX_OK` has passed all of it, and the mark, if it was given,
once, with the last buffer. -/
theorem output_chain_law (c : Config) (files : Option ℕ → ℕ → ℕ) (s : State) (input : List ℕ)
    (last : Bool) (h : Reached c files s input last) :
    s.behind.bytes++contents files s.behind.bufs s.ins = input ∧
    Marked last (s.behind.passed.map Prod.snd++s.ins.map (fun p => (s.behind.bufs p).lastBuf)) ∧
    (0 < c.size → Intact files s.behind) ∧
    ∀ ins bufs last' aio rounds s' rc, Valid c s ins bufs last' → (last = true → ins = []) →
      ngxOutputChain c files (State.filled s bufs aio) ins rounds = some (s', rc) →
      Passed s s' rc (input++contents files bufs ins) (last || last') := by
  obtain ⟨hinv,hkept⟩ := reached_inv c files s input last h
  refine ⟨?_,?_,fun hc => (hkept hc).intact,?_⟩
  · rw [← hinv.bytes]
    exact congrArg (fun xs => xs++_) (List.append_nil _).symm
  · have hmarks := hinv.marks
    rwa [List.map_nil, List.append_nil] at hmarks
  · intro ins bufs last' aio rounds s' rc hvalid honly hrun
    have hended := call_ended c files s input last ins bufs last' aio hinv hvalid honly rounds s' rc
      hrun
    refine ⟨hended.more,hended.bytes,hended.marks,hended.after,fun hok => ?_⟩
    subst hok
    obtain ⟨hinv',-⟩ := hended.inv nofun nofun
    have hins := hended.whole nofun nofun nofun
    have hbytes := hinv'.bytes
    have hmarks := hinv'.marks
    rw [hins] at hbytes hmarks
    refine ⟨hins,?_,?_⟩
    · rw [← hbytes]
      exact (List.append_nil _).symm.trans (List.append_nil _).symm
    · rw [List.append_assoc] at hmarks
      rwa [← List.append_nil (s'.behind.passed.map Prod.snd)]

def smallConfig : Config := ⟨false,false,true,false,512,1,4,7,fun _ => false⟩

def memoryBuf (data : List ℕ) (last : Bool) : Buf :=
  { ngxCallocBuf with memory := true, data := data, lastBuf := last }

theorem output_chain_law_first : ∃ s', ngxOutputChain smallConfig (fun _ => id)
      (State.filled ⟨⟨fun _ => memoryBuf [] false,[],[],[]⟩,0,[],none,[],[],0,false,false⟩
        (Function.update (fun _ => memoryBuf [] false) (.given 0) (memoryBuf [1,2,3,4,5] true))
        false) [.given 0]
      [⟨[.fine, .fine],.ok,4⟩, ⟨[.fine],.ok,1⟩, ⟨[],.ok,0⟩] = some (s', .ok) ∧
    Passed ⟨⟨fun _ => memoryBuf [] false,[],[],[]⟩,0,[],none,[],[],0,false,false⟩ s' .ok
      [1,2,3,4,5] true := by
  have hcode : (ngxOutputChain smallConfig (fun _ => id)
      (State.filled ⟨⟨fun _ => memoryBuf [] false,[],[],[]⟩,0,[],none,[],[],0,false,false⟩
        (Function.update (fun _ => memoryBuf [] false) (.given 0) (memoryBuf [1,2,3,4,5] true))
        false) [.given 0]
      [⟨[.fine, .fine],.ok,4⟩, ⟨[.fine],.ok,1⟩, ⟨[],.ok,0⟩]).map Prod.snd = some .ok := by
    decide
  obtain ⟨⟨s',rc⟩,hrun,rfl⟩ := Option.map_eq_some_iff.mp hcode
  refine ⟨s',hrun,?_⟩
  have hinit : Reached smallConfig (fun _ => id)
      ⟨⟨fun _ => memoryBuf [] false,[],[],[]⟩,0,[],none,[],[],0,false,false⟩ [] false :=
    Reached.init _ (fun _ => by decide)
  have hin : Function.update (fun _ => memoryBuf [] false) (.given 0) (memoryBuf [1,2,3,4,5] true)
      (Ptr.given 0) = memoryBuf [1,2,3,4,5] true := Function.update_self ..
  refine (output_chain_law smallConfig (fun _ => id) _ [] false hinit).2.2.2 [.given 0] _ true false
    _ s' .ok ⟨?_,List.nodup_singleton _,fun p _ => ⟨List.not_mem_nil,List.not_mem_nil⟩,?_,?_,?_,
      ?_,?_⟩ nofun hrun
  · intro p hp
    exact ⟨0,List.mem_singleton.mp hp⟩
  · rintro p (hp | hp | ⟨n,rfl⟩)
    · cases hp
    · cases hp
    · exact Function.update_of_ne (by simp) _ _
  · intro p hp
    rw [List.mem_singleton.mp hp, hin]
    decide
  · intro n
    by_cases hn : Ptr.given n = Ptr.given 0
    · rw [hn, hin]
      decide
    · rw [Function.update_of_ne hn]
      decide
  · rw [List.map_singleton, hin]
    exact ⟨0,rfl⟩
  · intro p hp _
    rw [List.mem_singleton.mp hp, hin]
    exact Or.inr (by decide)

/-- An empty buffer in memory that carries the mark is dropped behind another one: the call
returns `NGX_OK` with nothing left, and no mark has been passed on. -/
theorem mark_dropped : ∃ s', ngxOutputChain smallConfig (fun _ => id)
      (State.filled ⟨⟨fun _ => memoryBuf [] false,[],[],[]⟩,0,[],none,[],[],0,false,false⟩
        (fun p => if p = .given 0 then memoryBuf [97] false else memoryBuf [] true) false)
      [.given 0, .given 1] [⟨[.fine, .fine],.ok,1⟩, ⟨[],.ok,0⟩] = some (s', .ok) ∧
    s'.ins = [] ∧ s'.behind.passed = [([97], false)] := by
  have hrun : (ngxOutputChain smallConfig (fun _ => id)
      (State.filled ⟨⟨fun _ => memoryBuf [] false,[],[],[]⟩,0,[],none,[],[],0,false,false⟩
        (fun p => if p = .given 0 then memoryBuf [97] false else memoryBuf [] true) false)
      [.given 0, .given 1] [⟨[.fine, .fine],.ok,1⟩, ⟨[],.ok,0⟩]).map
      (fun r => (r.1.ins, r.1.behind.passed, r.2)) = some ([], [([97], false)], .ok) := by
    decide
  obtain ⟨⟨s',rc⟩,hs',heq⟩ := Option.map_eq_some_iff.mp hrun
  simp only [Prod.mk.injEq] at heq
  obtain ⟨hins,hpassed,rfl⟩ := heq
  exact ⟨s',hs',hins,hpassed⟩

end Nginx.OutputChainRuns
