import Nginx.SubFilter

/-!
# The substitution filter, byte by byte

A byte that begins a buffer is marked. The bytes that wait for a decision are
those of the partial match, `looked`, and those of an earlier one that the first
byte of the buffer ended, `held`. The latter come out when the partial match
fails inside the buffer, and not at all otherwise. A token is a byte of the body
or stands for the replacement.
-/

set_option autoImplicit false

namespace Nginx.SubFilterBytes
open Nginx.SubFilter

structure Waiting where
  looked : List UInt8
  held : List UInt8
  deriving DecidableEq, Repr

def Waiting.idle : Waiting := ⟨[],[]⟩

def step (m : NgxStr) (w : Waiting) (b : Bool × UInt8) : Waiting × List (Option UInt8) :=
  if w.looked = [] then
    if ngxTolower b.2 = m.data 0 then (⟨[b.2],w.held⟩, [])
    else (.idle, (w.held++[b.2]).map some)
  else
    let held := if b.1 then [] else w.held
    if ngxTolower b.2 = m.data w.looked.length then
      if w.looked.length+1 = m.len then (.idle, [none]) else (⟨w.looked++[b.2],held⟩, [])
    else if ngxTolower b.2 = m.data 0 then
      if b.1 then (⟨[b.2],w.looked⟩, []) else (⟨[b.2],[]⟩, (held++w.looked).map some)
    else (.idle, (held++w.looked++[b.2]).map some)

def after (m : NgxStr) (w : Waiting) (bs : List (Bool × UInt8)) : Waiting :=
  bs.foldl (fun w b => (step m w b).1) w

@[grind =] def emitted (m : NgxStr) : Waiting → List (Bool × UInt8) → List (Option UInt8)
  | _, [] => []
  | w, b::bs => (step m w b).2++emitted m (step m w b).1 bs

@[grind =] def marked (first : Bool) : List UInt8 → List (Bool × UInt8)
  | [] => []
  | c::cs => (first, c)::marked false cs

variable (m : NgxStr) (w : Waiting)

theorem after_cons (b : Bool × UInt8) (bs : List (Bool × UInt8)) :
    after m w (b::bs) = after m (step m w b).1 bs := rfl

theorem after_append (bs cs : List (Bool × UInt8)) :
    after m w (bs++cs) = after m (after m w bs) cs :=
  List.foldl_append

theorem emitted_append (bs cs : List (Bool × UInt8)) :
    emitted m w (bs++cs) = emitted m w bs++emitted m (after m w bs) cs := by
  induction bs generalizing w with
  | nil => rfl
  | cons b bs ih =>
    rw [List.cons_append, emitted, emitted, after_cons, ih, List.append_assoc]

variable (first : Bool)

theorem marked_append (cs ds : List UInt8) (h : cs ≠ []) :
    marked first (cs++ds) = marked first cs++marked false ds := by
  induction cs generalizing first with
  | nil => exact absurd rfl h
  | cons c cs ih =>
    rcases cs with _ | ⟨d,cs⟩
    · rfl
    have := ih false (List.cons_ne_nil d cs)
    simp only [List.cons_append, marked] at this ⊢
    rw [this]

section Steps
variable (m : NgxStr) (c : UInt8) (first : Bool)

variable (held : List UInt8)

theorem step_begin (h : ngxTolower c = m.data 0) :
    step m ⟨[],held⟩ (first, c) = (⟨[c],held⟩, []) := by
  simp [step, h]

theorem step_plain (h : ngxTolower c ≠ m.data 0) :
    step m ⟨[],held⟩ (first, c) = (.idle, (held++[c]).map some) := by
  simp [step, h]

variable (looked : List UInt8)

theorem step_found (held : List UInt8) (hl : looked ≠ []) (h : ngxTolower c = m.data looked.length)
    (hlen : looked.length+1 = m.len) : step m ⟨looked,held⟩ (first, c) = (.idle, [none]) := by
  simp [step, hl, h, hlen]

theorem step_longer (held : List UInt8) (hl : looked ≠ []) (h : ngxTolower c = m.data looked.length)
    (hlen : looked.length+1 ≠ m.len) :
    step m ⟨looked,held⟩ (first, c) = (⟨looked++[c],if first then [] else held⟩, []) := by
  simp [step, hl, h, hlen]

theorem step_again (held : List UInt8) (hl : looked ≠ []) (h : ngxTolower c ≠ m.data looked.length)
    (hz : ngxTolower c = m.data 0) :
    step m ⟨looked,held⟩ (first, c) =
      if first then (⟨[c],looked⟩, []) else (⟨[c],[]⟩, (held++looked).map some) := by
  rw [hz] at h
  cases first <;> simp [step, hl, h, hz]

theorem step_fail (held : List UInt8) (hl : looked ≠ []) (h : ngxTolower c ≠ m.data looked.length)
    (hz : ngxTolower c ≠ m.data 0) :
    step m ⟨looked,held⟩ (first, c) =
      (.idle, ((if first then [] else held)++looked++[c]).map some) := by
  simp [step, hl, h, hz]

end Steps

/-- What the parse loop knows after the bytes `done` since the position where
the call began, and the tokens that it has decided on and not yet put out. -/
inductive Tracks (pos : ℕ) (saved : List UInt8) : List UInt8 → SubState → List UInt8 → Option ℕ →
    Waiting → List UInt8 → Prop where
  | start (done : List UInt8) (copyEnd : Option ℕ) (h : done = [] → saved = []) :
    Tracks pos saved done .subStartState [] copyEnd .idle (saved++done)
  | fresh (done : List UInt8) (hpos : pos = 0) (hs : saved ≠ []) :
    Tracks pos saved done .subMatchState (saved++done) none ⟨saved++done,[]⟩ []
  | first (looked : List UInt8) (hl : looked ≠ []) :
    Tracks pos saved looked .subMatchState looked (some pos) ⟨looked,saved⟩ []
  | later (copied looked : List UInt8) (hc : copied ≠ []) (hl : looked ≠ []) :
    Tracks pos saved (copied++looked) .subMatchState looked (some (pos+copied.length))
      ⟨looked,[]⟩ (saved++copied)

section Tracking
variable (m : NgxStr) (pos : ℕ) (saved done looked : List UInt8) (copyEnd : Option ℕ)
  (w : Waiting) (pending : List UInt8) (c : UInt8) (first : Bool)

theorem tracks_begin
    (ht : Tracks pos saved done .subStartState looked copyEnd w pending)
    (h : ngxTolower c = m.data 0) :
    Tracks pos saved (done++[c]) .subMatchState [c] (some (pos+done.length))
        (step m w (first, c)).1 pending ∧
      (step m w (first, c)).2 = [] := by
  cases ht with
  | start _ _ hs =>
    rw [Waiting.idle, step_begin m c first [] h]
    refine ⟨?_,rfl⟩
    rcases done with _ | ⟨d,done⟩
    · rw [hs rfl]
      exact .first [c] (List.cons_ne_nil _ _)
    · exact .later (d::done) [c] (List.cons_ne_nil _ _) (List.cons_ne_nil _ _)

theorem tracks_plain
    (ht : Tracks pos saved done .subStartState looked copyEnd w pending)
    (h : ngxTolower c ≠ m.data 0) :
    Tracks pos saved (done++[c]) .subStartState looked copyEnd
        (step m w (first, c)).1 (pending++[c]) ∧
      (step m w (first, c)).2 = [some c] := by
  cases ht with
  | start _ _ hs =>
    rw [Waiting.idle, step_plain m c first [] h, List.append_assoc]
    exact ⟨.start (done++[c]) copyEnd (by simp),rfl⟩

theorem not_first (hfirst : first = true ↔ pos+done.length = 0) (hd : done ≠ []) :
    first = false := by
  have := List.length_pos_iff.mpr hd
  rw [← Bool.not_eq_true, hfirst]
  omega

theorem tracks_longer (hfirst : first = true ↔ pos+done.length = 0)
    (ht : Tracks pos saved done .subMatchState looked copyEnd w pending)
    (h : ngxTolower c = m.data looked.length) (hlen : looked.length+1 ≠ m.len) :
    Tracks pos saved (done++[c]) .subMatchState (looked++[c]) copyEnd
        (step m w (first, c)).1 pending ∧
      (step m w (first, c)).2 = [] := by
  cases ht with
  | fresh _ hpos hs =>
    have hl : saved++done ≠ [] := by simp [hs]
    rw [step_longer m c first _ _ hl h hlen, ite_self, List.append_assoc]
    exact ⟨.fresh (done++[c]) hpos hs,rfl⟩
  | first _ hl =>
    have hf := not_first pos done first hfirst hl
    rw [step_longer m c first _ _ hl h hlen, hf]
    exact ⟨.first (done++[c]) (by simp),rfl⟩
  | later copied _ hc hl =>
    rw [step_longer m c first _ _ hl h hlen, ite_self, List.append_assoc]
    exact ⟨.later copied (looked++[c]) hc (by simp),rfl⟩

theorem tracks_again (hfirst : first = true ↔ pos+done.length = 0)
    (ht : Tracks pos saved done .subMatchState looked copyEnd w pending)
    (h : ngxTolower c ≠ m.data looked.length) (hz : ngxTolower c = m.data 0) :
    ∃ pending', Tracks pos saved (done++[c]) .subMatchState [c] (some (pos+done.length))
        (step m w (first, c)).1 pending' ∧
      pending'.map some = pending.map some++(step m w (first, c)).2 := by
  cases ht with
  | fresh _ hpos hs =>
    have hl : saved++done ≠ [] := by simp [hs]
    rw [step_again m c first _ _ hl h hz]
    rcases done with _ | ⟨d,done⟩
    · rw [if_pos (hfirst.mpr (by simpa using hpos)), List.append_nil]
      exact ⟨[],.first [c] (List.cons_ne_nil _ _),rfl⟩
    · rw [if_neg (by rw [hfirst]; simp)]
      exact ⟨_,.later (d::done) [c] (List.cons_ne_nil _ _) (List.cons_ne_nil _ _),by simp⟩
  | first _ hl =>
    have hf := not_first pos done first hfirst hl
    rw [step_again m c first _ _ hl h hz, hf, if_neg Bool.false_ne_true]
    exact ⟨_,.later done [c] hl (List.cons_ne_nil _ _),by simp⟩
  | later copied _ hc hl =>
    have hf := not_first pos (copied++looked) first hfirst (by simp [hl])
    rw [step_again m c first _ _ hl h hz, hf, if_neg Bool.false_ne_true]
    exact ⟨_,.later (copied++looked) [c] (by simp [hl]) (List.cons_ne_nil _ _),by simp⟩

theorem tracks_fail (hfirst : first = true ↔ pos+done.length = 0)
    (ht : Tracks pos saved done .subMatchState looked copyEnd w pending)
    (h : ngxTolower c ≠ m.data looked.length) (hz : ngxTolower c ≠ m.data 0) :
    ∃ pending', Tracks pos saved (done++[c]) .subStartState [] (some (pos+done.length))
        (step m w (first, c)).1 pending' ∧
      pending'.map some = pending.map some++(step m w (first, c)).2 := by
  cases ht with
  | fresh _ hpos hs =>
    have hl : saved++done ≠ [] := by simp [hs]
    rw [step_fail m c first _ _ hl h hz, ite_self]
    exact ⟨_,.start (done++[c]) _ (by simp),by simp⟩
  | first _ hl =>
    have hf := not_first pos done first hfirst hl
    rw [step_fail m c first _ _ hl h hz, hf]
    exact ⟨_,.start (done++[c]) _ (by simp),by simp⟩
  | later copied _ hc hl =>
    rw [step_fail m c first _ _ hl h hz, ite_self]
    exact ⟨_,.start (copied++looked++[c]) _ (by simp),by simp⟩

theorem tracks_waiting (state : SubState)
    (ht : Tracks pos saved done state looked copyEnd w pending) :
    w.looked = looked ∧ (state = .subStartState → w = .idle) ∧
      (state = .subMatchState → looked ≠ []) := by
  cases ht with
  | start _ _ _ => exact ⟨rfl,fun _ => rfl,nofun⟩
  | fresh _ _ hs => exact ⟨rfl,nofun,fun _ => by simp [hs]⟩
  | first _ hl => exact ⟨rfl,nofun,fun _ => hl⟩
  | later _ _ _ hl => exact ⟨rfl,nofun,fun _ => hl⟩

end Tracking

/-- How the parse loop leaves, at the end of the buffer or behind an occurrence. -/
inductive LoopEnd (ctx : SubCtx) (p : ℕ) (done rest : List UInt8) (first : Bool) (w : Waiting)
    (pending : List UInt8) : SubCtx × Rc → Prop where
  | again (q : ℕ) (state : SubState) (looked : List UInt8) (copyEnd : Option ℕ)
      (pending' : List UInt8) (hq : q = p+rest.length)
      (ht : Tracks ctx.pos ctx.saved (done++rest) state looked copyEnd
        (after ctx.match' w (marked first rest)) pending')
      (hout : pending'.map some = pending.map some++emitted ctx.match' w (marked first rest))
      (hend : state = .subStartState → copyEnd = some q) :
      LoopEnd ctx p done rest first w pending
        (({ ctx with state := state, pos := q, looked := looked }).leave copyEnd, .again)
  | ok (q : ℕ) (taken left : List UInt8) (c : UInt8) (looked : List UInt8) (copyEnd : Option ℕ)
      (w' : Waiting) (pending' : List UInt8) (hq : q = p+taken.length)
      (hrest : rest = taken++c::left)
      (ht : Tracks ctx.pos ctx.saved (done++taken) .subMatchState looked copyEnd w' pending')
      (hout : pending'.map some++[none] =
        pending.map some++emitted ctx.match' w (marked first (taken++[c])))
      (hafter : after ctx.match' w (marked first (taken++[c])) = .idle) :
      LoopEnd ctx p done rest first w pending
        (({ ctx with
            saved := if q-ctx.pos < looked.length+1 then [] else ctx.saved
            state := .subStartState, pos := q+1, looked := [] }).leave copyEnd, .ok)

variable (ctx : SubCtx)

theorem LoopEnd.cons (p : ℕ) (done rest : List UInt8) (first : Bool) (w : Waiting)
    (pending pending' : List UInt8) (c : UInt8) (r : SubCtx × Rc)
    (hstep : pending'.map some = pending.map some++(step ctx.match' w (first, c)).2)
    (h : LoopEnd ctx (p+1) (done++[c]) rest false (step ctx.match' w (first, c)).1 pending' r) :
    LoopEnd ctx p done (c::rest) first w pending r := by
  cases h with
  | again q state looked copyEnd pending'' hq ht hout hend =>
    refine .again q state looked copyEnd pending'' ?_ ?_ ?_ hend
    · rw [hq, List.length_cons]
      omega
    · rwa [List.append_assoc] at ht
    · rw [hout, hstep, List.append_assoc]
      rfl
  | ok q taken left d looked copyEnd w' pending'' hq hrest ht hout hafter =>
    refine .ok q (c::taken) left d looked copyEnd w' pending'' ?_ ?_ ?_ ?_ hafter
    · rw [hq, List.length_cons]
      omega
    · rw [hrest, List.cons_append]
    · rwa [List.append_assoc] at ht
    · rw [hout, hstep, List.append_assoc]
      rfl

theorem parse_loop_end (rest : List UInt8) (p : ℕ) (done : List UInt8) (state : SubState)
    (looked : List UInt8) (copyEnd : Option ℕ) (first : Bool) (w : Waiting) (pending : List UInt8)
    (hp : p = ctx.pos+done.length) (hfirst : first = true ↔ p = 0)
    (ht : Tracks ctx.pos ctx.saved done state looked copyEnd w pending) :
    LoopEnd ctx p done rest first w pending (subParseLoop ctx rest p state looked copyEnd) := by
  induction rest generalizing p done state looked copyEnd first w pending with
  | nil =>
    rw [subParseLoop]
    refine .again p state looked _ pending rfl ?_ (by simp [marked, emitted]) ?_
    · rw [List.append_nil]
      cases ht with
      | start _ _ hs => exact .start done _ hs
      | fresh _ hpos hl => exact .fresh done hpos hl
      | first _ hl => exact .first done hl
      | later copied _ hc hl => exact .later copied looked hc hl
    · intro hs
      rw [if_pos hs]
  | cons c rest ih =>
    have hp' : p+1 = ctx.pos+(done++[c]).length := by
      rw [List.length_append, List.length_singleton]
      omega
    have hfirst' : false = true ↔ p+1 = 0 := by simp
    rw [hp] at hfirst
    cases state with
    | subStartState =>
      rw [subParseLoop]
      split_ifs with h
      · obtain ⟨ht',hstep⟩ := tracks_begin ctx.match' _ _ done looked copyEnd w pending c first ht h
        refine .cons ctx p done rest first w pending pending c _ (by rw [hstep, List.append_nil]) ?_
        rw [← hp] at ht'
        exact ih _ _ _ _ _ _ _ _ hp' hfirst' ht'
      · obtain ⟨ht',hstep⟩ := tracks_plain ctx.match' _ _ done looked copyEnd w pending c first ht h
        refine .cons ctx p done rest first w pending (pending++[c]) c _ (by simp [hstep]) ?_
        exact ih _ _ _ _ _ _ _ _ hp' hfirst' ht'
    | subMatchState =>
      rw [subParseLoop]
      by_cases h : ngxTolower c = ctx.match'.data looked.length
      · rw [if_pos h]
        by_cases hlen : looked.length+1 = ctx.match'.len
        · have hl : (looked++[c]).length = ctx.match'.len := by simpa using hlen
          obtain ⟨hw,-,hne⟩ := tracks_waiting _ _ _ _ _ _ _ _ ht
          have hfound := step_found ctx.match' c first looked w.held (hne rfl) h hlen
          rw [← hw] at hfound
          simp only [hl, if_true]
          rw [← hl, List.length_append, List.length_singleton]
          refine .ok p [] rest c looked copyEnd w pending rfl rfl ?_ ?_ ?_
          · rwa [List.append_nil]
          · simp only [List.nil_append, marked, emitted, List.append_nil, hfound]
          · simp only [List.nil_append, marked, after_cons, hfound]
            rfl
        have hl : (looked++[c]).length ≠ ctx.match'.len := by simpa using hlen
        obtain ⟨ht',hstep⟩ :=
          tracks_longer ctx.match' _ _ done looked copyEnd w pending c first hfirst ht h hlen
        simp only [hl, if_false]
        refine .cons ctx p done rest first w pending pending c _ (by rw [hstep, List.append_nil]) ?_
        exact ih _ _ _ _ _ _ _ _ hp' hfirst' ht'
      rw [if_neg h]
      split_ifs with hz
      · obtain ⟨pending',ht',hstep⟩ :=
          tracks_again ctx.match' _ _ done looked copyEnd w pending c first hfirst ht h hz
        refine .cons ctx p done rest first w pending pending' c _ hstep ?_
        rw [← hp] at ht'
        exact ih _ _ _ _ _ _ _ _ hp' hfirst' ht'
      · obtain ⟨pending',ht',hstep⟩ :=
          tracks_fail ctx.match' _ _ done looked copyEnd w pending c first hfirst ht h hz
        refine .cons ctx p done rest first w pending pending' c _ hstep ?_
        rw [← hp] at ht'
        exact ih _ _ _ _ _ _ _ _ hp' hfirst' ht'

def Piece.tokens : Piece → List (Option UInt8)
  | .saved bytes => bytes.map some
  | .copy bytes => bytes.map some
  | .sub => [none]
  | .sync => []

def tokens (links : List Link) : List (Option UInt8) :=
  links.flatMap (fun link => Piece.tokens link.piece)

theorem tokens_append (links links' : List Link) :
    tokens (links++links') = tokens links++tokens links' :=
  List.flatMap_append

inductive Entry (ctx : SubCtx) : Prop where
  | start (hstate : ctx.state = .subStartState) (hlooked : ctx.looked = []) (hsaved : ctx.saved = [])
      (hcs : ctx.copyStart = some ctx.pos) (hce : ctx.copyEnd = some ctx.pos)
  | looking (hstate : ctx.state = .subMatchState) (hlooked : ctx.looked = ctx.saved)
      (hsaved : ctx.saved ≠ []) (hpos : ctx.pos = 0) (hcs : ctx.copyStart = none)
      (hce : ctx.copyEnd = none)

theorem entry_tracks (h : Entry ctx) :
    Tracks ctx.pos ctx.saved [] ctx.state ctx.looked ctx.copyEnd ⟨ctx.looked,[]⟩ [] := by
  cases h with
  | start hstate hlooked hsaved _ _ =>
    rw [hstate, hlooked, hsaved]
    exact .start [] _ (fun _ => rfl)
  | looking hstate hlooked hsaved hpos _ hce =>
    have h := Tracks.fresh [] hpos hsaved
    rw [hstate, hlooked, hce]
    rwa [List.append_nil] at h

theorem copy_out_tokens (X : SubCtx) (buf done : List UInt8) (state : SubState)
    (looked : List UInt8) (copyEnd : Option ℕ) (w : Waiting) (pending : List UInt8)
    (hentry : Entry ctx) (hdone : done <+: buf.drop ctx.pos)
    (ht : Tracks ctx.pos ctx.saved done state looked copyEnd w pending)
    (hend : state = .subStartState → done ≠ [] ∧ copyEnd = some (ctx.pos+done.length))
    (hcs : X.copyStart = if ctx.copyStart = none ∧ copyEnd ≠ none then some 0 else ctx.copyStart)
    (hce : X.copyEnd = copyEnd) (hsaved : pending ≠ [] → X.saved = ctx.saved) :
    tokens (X.copyOut buf).out = tokens X.out++pending.map some ∧
      (X.copyOut buf).saved = if pending = [] then X.saved else [] := by
  have hstart : copyEnd ≠ none → X.copyStart = some ctx.pos := by
    intro hc
    rw [hcs]
    cases hentry with
    | start _ _ _ h _ => simp [h]
    | looking _ _ _ hpos h _ => simp [h, hpos, hc]
  have hcopy : ∀ copied : List UInt8, copied <+: buf.drop ctx.pos → copied ≠ [] →
      copyEnd = some (ctx.pos+copied.length) → pending = ctx.saved++copied →
      tokens (X.copyOut buf).out = tokens X.out++pending.map some ∧
        (X.copyOut buf).saved = if pending = [] then X.saved else [] := by
    intro copied hprefix hc he hp
    have hpn : pending ≠ [] := by simp [hp, hc]
    have hlen := List.length_pos_iff.mpr hc
    have hslice : (buf.take (ctx.pos+copied.length)).drop ctx.pos = copied := by
      rw [List.drop_take, Nat.add_sub_cancel_left]
      exact (List.prefix_iff_eq_take.mp hprefix).symm
    have hdiff : X.copyStart ≠ X.copyEnd := by
      rw [hstart (by simp [he]), hce, he]
      simp only [ne_eq, Option.some.injEq]
      omega
    have hout : (X.copyOut buf).out = X.out++
        (if ctx.saved = [] then [] else [⟨.saved ctx.saved,false⟩])++[⟨.copy copied,false⟩] := by
      rw [SubCtx.copyOut, if_neg hdiff, hsaved hpn, hstart (by simp [he]), hce, he]
      simp only [Option.getD_some, hslice]
    refine ⟨?_,?_⟩
    · rw [hout, tokens_append, tokens_append, hp, List.append_assoc]
      split_ifs with hs <;> simp [hs, tokens, Piece.tokens]
    · rw [SubCtx.copyOut, if_neg hdiff, if_neg hpn]
  have hsame : X.copyStart = X.copyEnd → pending = [] →
      tokens (X.copyOut buf).out = tokens X.out++pending.map some ∧
        (X.copyOut buf).saved = if pending = [] then X.saved else [] := by
    intro heq hp
    rw [SubCtx.copyOut, if_pos heq, hp]
    simp
  cases ht with
  | start _ _ _ => exact hcopy done hdone (hend rfl).1 (hend rfl).2 rfl
  | fresh _ hpos hs =>
    refine hsame ?_ rfl
    cases hentry with
    | start _ _ h _ _ => exact absurd h hs
    | looking _ _ _ _ h _ => simp [hcs, hce, h]
  | first _ hl =>
    refine hsame ?_ rfl
    rw [hce]
    exact hstart (by simp)
  | later copied _ hc hl =>
    exact hcopy copied ((List.prefix_append copied looked).trans hdone) hc rfl rfl

structure Between (ctx : SubCtx) (w : Waiting) : Prop where
  looked : ctx.looked = w.looked
  idle : ctx.state = .subStartState → w = .idle
  looking : ctx.state = .subMatchState → w.looked ≠ [] ∧ ctx.copyStart = none ∧ ctx.copyEnd = none

theorem reset_copy_kept :
    ctx.resetCopy.match' = ctx.match' ∧ ctx.resetCopy.once = ctx.once ∧
      ctx.resetCopy.pos = ctx.pos ∧ ctx.resetCopy.out = ctx.out ∧
      ctx.resetCopy.looked = ctx.looked ∧ ctx.resetCopy.saved = ctx.saved ∧
      ctx.resetCopy.state = ctx.state := by
  rw [SubCtx.resetCopy]
  split_ifs <;> exact ⟨rfl,rfl,rfl,rfl,rfl,rfl,rfl⟩

variable (buf : List UInt8)

theorem copy_out_kept :
    (ctx.copyOut buf).match' = ctx.match' ∧ (ctx.copyOut buf).once = ctx.once ∧
      (ctx.copyOut buf).pos = ctx.pos ∧ (ctx.copyOut buf).looked = ctx.looked ∧
      (ctx.copyOut buf).state = ctx.state := by
  rw [SubCtx.copyOut]
  split_ifs <;> exact ⟨rfl,rfl,rfl,rfl,rfl⟩

/-- One round of the inner loop: the context after the parse call and the copy. -/
def roundCtx (ctx : SubCtx) (buf : List UInt8) : SubCtx :=
  ((ngxHttpSubParse ctx buf).1.copyOut buf).resetCopy

theorem round_kept :
    (roundCtx ctx buf).pos = (ngxHttpSubParse ctx buf).1.pos ∧
      (roundCtx ctx buf).looked = (ngxHttpSubParse ctx buf).1.looked ∧
      (roundCtx ctx buf).state = (ngxHttpSubParse ctx buf).1.state ∧
      (roundCtx ctx buf).match' = (ngxHttpSubParse ctx buf).1.match' ∧
      (roundCtx ctx buf).once = (ngxHttpSubParse ctx buf).1.once ∧
      (roundCtx ctx buf).saved = ((ngxHttpSubParse ctx buf).1.copyOut buf).saved ∧
      (roundCtx ctx buf).out = ((ngxHttpSubParse ctx buf).1.copyOut buf).out := by
  obtain ⟨hm,ho,hp,hout,hl,hsv,hst⟩ :=
    reset_copy_kept ((ngxHttpSubParse ctx buf).1.copyOut buf)
  obtain ⟨hm',ho',hp',hl',hst'⟩ := copy_out_kept (ngxHttpSubParse ctx buf).1 buf
  exact ⟨hp.trans hp',hl.trans hl',hst.trans hst',hm.trans hm',ho.trans ho',hsv,hout⟩

theorem round_reset :
    ((roundCtx ctx buf).state = .subStartState →
      (roundCtx ctx buf).copyStart = some (roundCtx ctx buf).pos ∧
        (roundCtx ctx buf).copyEnd = some (roundCtx ctx buf).pos) ∧
    ((roundCtx ctx buf).state = .subMatchState →
      (roundCtx ctx buf).copyStart = none ∧ (roundCtx ctx buf).copyEnd = none) := by
  rw [roundCtx, SubCtx.resetCopy]
  split_ifs with h
  · exact ⟨fun _ => ⟨rfl,rfl⟩,fun h' => by simp [h] at h'⟩
  · exact ⟨fun h' => absurd h' h,fun _ => ⟨rfl,rfl⟩⟩

inductive Round (ctx : SubCtx) (buf : List UInt8) (w : Waiting) (first : Bool) :
    SubCtx → Rc → Prop where
  | again (c : SubCtx) (hkept : c.match' = ctx.match' ∧ c.once = false) (hpos : c.pos = buf.length)
      (hout : tokens c.out =
        tokens ctx.out++emitted ctx.match' w (marked first (buf.drop ctx.pos)))
      (hbetween : Between c (after ctx.match' w (marked first (buf.drop ctx.pos)))) :
      Round ctx buf w first c .again
  | ok (c : SubCtx) (taken left : List UInt8) (hkept : c.match' = ctx.match' ∧ c.once = false)
      (htaken : taken ≠ []) (hleft : buf.drop ctx.pos = taken++left) (hpos : c.pos = ctx.pos+taken.length)
      (hout : tokens c.out++[none] = tokens ctx.out++emitted ctx.match' w (marked first taken))
      (hafter : after ctx.match' w (marked first taken) = .idle)
      (hentry : Entry c) (hlooked : c.looked = []) :
      Round ctx buf w first c .ok

theorem parse_round (first : Bool) (honce : ctx.once = false) (hentry : Entry ctx)
    (hpos : ctx.pos < buf.length) (hfirst : first = true ↔ ctx.pos = 0) :
    Round ctx buf ⟨ctx.looked,[]⟩ first (roundCtx ctx buf) (ngxHttpSubParse ctx buf).2 := by
  have hloop := parse_loop_end ctx (buf.drop ctx.pos) ctx.pos [] ctx.state ctx.looked ctx.copyEnd
    first ⟨ctx.looked,[]⟩ [] rfl hfirst (entry_tracks ctx hentry)
  have hparse : ngxHttpSubParse ctx buf =
      subParseLoop ctx (buf.drop ctx.pos) ctx.pos ctx.state ctx.looked ctx.copyEnd := by
    rw [ngxHttpSubParse, if_neg (by simp [honce])]
  obtain ⟨hrp,hrl,hrst,hrm,hronce,hrsv,hro⟩ := round_kept ctx buf
  obtain ⟨hreset,hreset'⟩ := round_reset ctx buf
  rw [← hparse] at hloop
  generalize ngxHttpSubParse ctx buf = r at hloop hrp hrl hrst hrm hronce hrsv hro ⊢
  generalize roundCtx ctx buf = c at *
  have hdrop : buf.drop ctx.pos ≠ [] := by
    simpa using hpos
  cases hloop with
  | again q state looked copyEnd pending' hq ht hout hend =>
    rw [List.nil_append] at ht
    obtain ⟨htokens,-⟩ := copy_out_tokens ctx
      (({ ctx with state := state, pos := q, looked := looked } : SubCtx).leave copyEnd) buf
      (buf.drop ctx.pos) state looked copyEnd _ pending' hentry List.prefix_rfl ht
      (fun h => ⟨hdrop,by rw [hend h, hq]⟩) rfl rfl (fun _ => rfl)
    obtain ⟨hw,hidle,hne⟩ := tracks_waiting _ _ _ _ _ _ _ _ ht
    refine .again c ⟨hrm,hronce.trans honce⟩ ?_ ?_ ⟨?_,?_,?_⟩
    · rw [hrp]
      show q = _
      rw [hq, List.length_drop]
      omega
    · rw [hro, htokens, hout]
      rfl
    · rw [hrl, hw]
      rfl
    · intro hstate
      rw [hrst] at hstate
      exact hidle hstate
    · intro hstate
      refine ⟨?_,hreset' hstate⟩
      rw [hrst] at hstate
      rw [hw]
      exact hne hstate
  | ok q taken left b looked copyEnd w' pending' hq hrest ht hout hafter =>
    rw [List.nil_append] at ht
    have hkept : pending' ≠ [] → (if q-ctx.pos < looked.length+1 then [] else ctx.saved) =
        ctx.saved := by
      intro hp
      cases ht with
      | fresh _ _ _ => exact absurd rfl hp
      | first _ _ => exact absurd rfl hp
      | later copied _ hc _ =>
        have := List.length_pos_iff.mpr hc
        rw [List.length_append] at hq
        exact if_neg (by omega)
    have hdropped : pending' = [] → (if q-ctx.pos < looked.length+1 then [] else ctx.saved) =
        [] := by
      intro hp
      cases ht with
      | fresh _ _ _ =>
        refine if_pos ?_
        rw [List.length_append]
        omega
      | first _ _ => exact if_pos (by omega)
      | later copied _ hc _ => simp [hc] at hp
    obtain ⟨htokens,hsaved⟩ := copy_out_tokens ctx
      (({ ctx with
            saved := if q-ctx.pos < looked.length+1 then [] else ctx.saved
            state := .subStartState, pos := q+1, looked := [] } : SubCtx).leave copyEnd) buf
      taken .subMatchState looked copyEnd _ pending' hentry ⟨b::left,hrest.symm⟩ ht
      nofun rfl rfl hkept
    have hc := hreset (by rw [hrst]; rfl)
    refine .ok c (taken++[b]) left ⟨hrm,hronce.trans honce⟩ (by simp) (by simp [hrest]) ?_ ?_ hafter ?_ (by rw [hrl]; rfl)
    · rw [hrp, List.length_append]
      show q+1 = _
      rw [hq, List.length_singleton, Nat.add_assoc]
    · rw [hro, htokens, List.append_assoc, hout]
      rfl
    · refine .start (by rw [hrst]; rfl) (by rw [hrl]; rfl) ?_ hc.1 hc.2
      rw [hrsv, hsaved]
      by_cases hp : pending' = []
      · rw [if_pos hp]
        exact hdropped hp
      · rw [if_neg hp]

theorem buf_loop_end (once : Bool) (buf : List UInt8) (fuel : ℕ) (ctx : SubCtx)
    (h : buf.length ≤ ctx.pos) : subBufLoop once buf fuel ctx = ctx := by
  cases fuel with
  | zero => rfl
  | succ fuel => rw [subBufLoop, if_neg (Nat.not_lt.mpr h)]

theorem entry_between (h : Entry ctx) : Between ctx ⟨ctx.looked,[]⟩ := by
  cases h with
  | start hstate hlooked _ _ _ =>
    exact ⟨rfl,fun _ => by rw [hlooked]; rfl,fun h => by simp [hstate] at h⟩
  | looking hstate hlooked hsaved _ hcs hce =>
    exact ⟨rfl,fun h => by simp [hstate] at h,fun _ => ⟨hlooked ▸ hsaved,hcs,hce⟩⟩

/-- From a parse call on, the inner loop does to the rest of the buffer what the
byte machine does. -/
theorem buf_loop (fuel : ℕ) (ctx : SubCtx) (first : Bool) (honce : ctx.once = false)
    (hentry : Entry ctx) (hfuel : buf.length ≤ ctx.pos+fuel) (hfirst : first = true ↔ ctx.pos = 0) :
    ∃ c, subBufLoop false buf fuel ctx = c ∧ c.match' = ctx.match' ∧ c.once = false ∧
      tokens c.out = tokens ctx.out++
        emitted ctx.match' ⟨ctx.looked,[]⟩ (marked first (buf.drop ctx.pos)) ∧
      Between c (after ctx.match' ⟨ctx.looked,[]⟩ (marked first (buf.drop ctx.pos))) := by
  induction fuel generalizing ctx first with
  | zero =>
    have hdone : buf.length ≤ ctx.pos := hfuel
    refine ⟨ctx,rfl,rfl,honce,?_,?_⟩
    · rw [List.drop_of_length_le hdone, marked, emitted, List.append_nil]
    · rw [List.drop_of_length_le hdone]
      exact entry_between ctx hentry
  | succ fuel ih =>
    by_cases hpos : ctx.pos < buf.length
    · have hround := parse_round ctx buf first honce hentry hpos hfirst
      rw [subBufLoop, if_pos hpos]
      show ∃ c, subBufLoop false buf fuel (if (ngxHttpSubParse ctx buf).2 = .ok then
        { roundCtx ctx buf with out := (roundCtx ctx buf).out++[⟨.sub,false⟩], once := false }
        else roundCtx ctx buf) = c ∧ _
      generalize ngxHttpSubParse ctx buf = r at hround ⊢
      generalize roundCtx ctx buf = c at hround ⊢
      obtain ⟨x,rc⟩ := r
      cases hround with
      | again hkept hend hout hbetween =>
        exact ⟨c,buf_loop_end false buf fuel c (Nat.le_of_eq hend.symm),hkept.1,hkept.2,hout,
          hbetween⟩
      | ok taken left hkept htaken hleft hcpos hout hafter hcentry hlooked =>
        have hlen := List.length_pos_iff.mpr htaken
        have hdrop : buf.drop (ctx.pos+taken.length) = left := by
          rw [← List.drop_drop, hleft, List.drop_left]
        have hentry' : Entry { c with out := c.out++[⟨.sub,false⟩], once := false } := by
          cases hcentry with
          | start hstate hl hs hcs hce => exact .start hstate hl hs hcs hce
          | looking hstate hl hs hp hcs hce => exact .looking hstate hl hs hp hcs hce
        obtain ⟨d,hd,hm,ho,htokens,hbetween⟩ := ih
          { c with out := c.out++[⟨.sub,false⟩], once := false } false rfl hentry'
          (by show _ ≤ c.pos+_; omega) (by show _ ↔ c.pos = 0; simp; omega)
        rw [hleft, marked_append first taken left htaken, after_append, emitted_append, hafter]
        simp only [hcpos, hdrop, hlooked, hkept.1] at htokens hbetween
        refine ⟨d,hd,hm.trans hkept.1,ho,?_,hbetween⟩
        rw [htokens, tokens_append, ← List.append_assoc, ← hout]
        rfl
    have hdone : buf.length ≤ ctx.pos := Nat.not_lt.mp hpos
    refine ⟨ctx,buf_loop_end false buf _ ctx hdone,rfl,honce,?_,?_⟩
    · rw [List.drop_of_length_le hdone, marked, emitted, List.append_nil]
    · rw [List.drop_of_length_le hdone]
      exact entry_between ctx hentry

theorem set_last_buf_tokens (lastBuf : Bool) (links : List Link) :
    tokens (setLastBuf lastBuf links) = tokens links := by
  induction links using setLastBuf.induct with
  | case1 => rfl
  | case2 link => rfl
  | case3 link link' links ih =>
    rw [setLastBuf, tokens, List.flatMap_cons, ← tokens, ih]
    rfl

/-- The context and the bytes that wait when a buffer has been consumed. -/
structure Ready (m : NgxStr) (ctx : SubCtx) (w : Waiting) : Prop where
  between : Between ctx w
  saved : ctx.saved = ctx.looked
  match_eq : ctx.match' = m
  once : ctx.once = false

variable (looked held : List UInt8)

theorem marked_held (hl : looked ≠ []) (c : UInt8) (cs : List UInt8) :
    emitted m ⟨looked,held⟩ (marked true (c::cs)) = emitted m ⟨looked,[]⟩ (marked true (c::cs)) ∧
      after m ⟨looked,held⟩ (marked true (c::cs)) =
        after m ⟨looked,[]⟩ (marked true (c::cs)) := by
  have hstep : step m ⟨looked,held⟩ (true, c) = step m ⟨looked,[]⟩ (true, c) := by
    simp only [step, if_neg hl, if_true]
  rw [marked, emitted, emitted, after_cons, after_cons, hstep]
  exact ⟨rfl,rfl⟩

theorem between_held (c : SubCtx) (w : Waiting) (buf : List UInt8) (h : Between ctx w)
    (hc : Between c (after m ⟨w.looked,[]⟩ (marked true buf))) :
    emitted m ⟨w.looked,[]⟩ (marked true buf) = emitted m w (marked true buf) ∧
      Between c (after m w (marked true buf)) := by
  by_cases hl : w.looked = []
  · have hs : ctx.state = .subStartState := by
      cases hst : ctx.state with
      | subStartState => rfl
      | subMatchState => exact absurd hl (h.looking hst).1
    rw [h.idle hs] at hc ⊢
    exact ⟨rfl,hc⟩
  rcases buf with _ | ⟨b,buf⟩
  · exact ⟨rfl,hc.looked,fun hs => absurd (congrArg Waiting.looked (hc.idle hs)) hl,hc.looking⟩
  obtain ⟨hem,haf⟩ := marked_held m w.looked w.held hl b buf
  rw [hem, haf]
  exact ⟨rfl,hc⟩

theorem filter_buf (w : Waiting) (buf : Buf) (h : Ready m ctx w) :
    Ready m (filterBuf false ctx buf) (after m w (marked true buf.data)) ∧
      tokens (filterBuf false ctx buf).out =
        tokens ctx.out++emitted m w (marked true buf.data) := by
  have hentry : ∃ x : SubCtx, (if ctx.state = .subStartState then
      { ctx with pos := 0, copyStart := some 0, copyEnd := some 0 } else { ctx with pos := 0 }) = x ∧
      Entry x ∧ x.match' = m ∧ x.once = false ∧ x.looked = w.looked ∧ x.out = ctx.out ∧
      x.pos = 0 := by
    refine ⟨_,rfl,?_,?_⟩
    · split_ifs with hs
      · have hw := h.between.idle hs
        have hl : ctx.looked = [] := by rw [h.between.looked, hw]; rfl
        exact .start hs hl (h.saved.trans hl) rfl rfl
      · have hs' : ctx.state = .subMatchState := by
          cases hst : ctx.state with
          | subStartState => exact absurd hst hs
          | subMatchState => rfl
        obtain ⟨hl,hcs,hce⟩ := h.between.looking hs'
        refine .looking hs' h.saved.symm ?_ rfl hcs hce
        rwa [h.saved, h.between.looked]
    · split_ifs <;> exact ⟨h.match_eq,h.once,h.between.looked,rfl,rfl⟩
  obtain ⟨x,hx,hxe,hxm,hxo,hxl,hxout,hxpos⟩ := hentry
  obtain ⟨c,hc,hcm,hco,hct,hcb⟩ := buf_loop buf.data buf.data.length x true hxo hxe
    (by omega) (by simp [hxpos])
  rw [hxpos, List.drop_zero, hxm, hxl, hxout] at hct
  rw [hxpos, List.drop_zero, hxm, hxl] at hcb
  obtain ⟨hem,hcb'⟩ := between_held m ctx c w buf.data h.between hcb
  have hfilter : filterBuf false ctx buf = { c with
      out := if c.out.length = x.out.length then c.out++[⟨.sync,buf.lastBuf⟩]
        else setLastBuf buf.lastBuf c.out
      saved := c.looked } := by
    rw [← hc, ← hx]
    rfl
  rw [hfilter]
  refine ⟨⟨⟨hcb'.looked,hcb'.idle,hcb'.looking⟩,rfl,hcm.trans hxm,hco⟩,?_⟩
  rw [← hem, ← hct]
  show tokens (if _ then _ else _) = _
  split_ifs
  · simp [tokens, Piece.tokens]
  · exact set_last_buf_tokens _ _

def bodyOf (bufs : List Buf) : List (Bool × UInt8) := bufs.flatMap (fun buf => marked true buf.data)

theorem filter_bufs (bufs : List Buf) (ctx : SubCtx) (w : Waiting) (h : Ready m ctx w) :
    Ready m (bufs.foldl (filterBuf false) ctx) (after m w (bodyOf bufs)) ∧
      tokens (bufs.foldl (filterBuf false) ctx).out =
        tokens ctx.out++emitted m w (bodyOf bufs) := by
  induction bufs generalizing ctx w with
  | nil => exact ⟨h,(List.append_nil _).symm⟩
  | cons buf bufs ih =>
    obtain ⟨hready,hout⟩ := filter_buf m ctx w buf h
    obtain ⟨hready',hout'⟩ := ih _ _ hready
    rw [bodyOf, List.flatMap_cons, ← bodyOf, after_append, emitted_append]
    exact ⟨hready',by rw [List.foldl_cons, hout', hout, List.append_assoc]⟩

/-- Over any calls the filter puts out what the byte machine emits for the
body. -/
theorem run_calls (calls : List (List Buf)) (ctx : SubCtx) (w : Waiting) (h : Ready m ctx w)
    (hout : ctx.out = []) :
    tokens (runCalls false ctx calls) = emitted m w (bodyOf calls.flatten) := by
  induction calls generalizing ctx w with
  | nil => rfl
  | cons bufs calls ih =>
    obtain ⟨hready,hbufs⟩ := filter_bufs m bufs ctx w h
    have hrest := ih { bufs.foldl (filterBuf false) ctx with out := [] } _
      ⟨⟨hready.between.looked,hready.between.idle,hready.between.looking⟩,hready.saved,
        hready.match_eq,hready.once⟩ rfl
    rw [runCalls, ngxHttpSubBodyFilter, if_neg (by simp [h.once]), tokens_append, hbufs, hrest, hout]
    have hbody : bodyOf (bufs++calls.flatten) = bodyOf bufs++bodyOf calls.flatten :=
      List.flatMap_append
    rw [List.flatten_cons, hbody, emitted_append]
    rfl

def render (sub : List UInt8) (ts : List (Option UInt8)) : List UInt8 :=
  ts.flatMap (fun t => t.elim sub (fun c => [c]))

variable (sub : List UInt8)

theorem render_bytes (bytes : List UInt8) : render sub (bytes.map some) = bytes := by
  induction bytes with
  | nil => rfl
  | cons c cs ih =>
    rw [List.map_cons, render, List.flatMap_cons, ← render, ih]
    rfl

theorem render_append (ts us : List (Option UInt8)) :
    render sub (ts++us) = render sub ts++render sub us :=
  List.flatMap_append

theorem output_render (links : List Link) : output sub links = render sub (tokens links) := by
  induction links with
  | nil => rfl
  | cons link links ih =>
    have hlink : link.piece.bytes sub = render sub (Piece.tokens link.piece) := by
      cases link.piece with
      | saved bytes => exact (render_bytes sub bytes).symm
      | copy bytes => exact (render_bytes sub bytes).symm
      | sub => exact (List.append_nil sub).symm
      | sync => rfl
    have htokens : tokens (link::links) = Piece.tokens link.piece++tokens links :=
      List.flatMap_cons
    rw [output, List.flatMap_cons, ← output, ih, htokens, render_append, hlink]

theorem new_ready (value : List UInt8) (behind : ℕ → UInt8) :
    Ready (newCtx value behind).match' (newCtx value behind) .idle :=
  ⟨⟨rfl,fun _ => rfl,nofun⟩,rfl,rfl,rfl⟩

theorem run_output (value : List UInt8) (behind : ℕ → UInt8) (sub : List UInt8)
    (calls : List (List Buf)) :
    output sub (runCalls false (newCtx value behind) calls) =
      render sub (emitted (newCtx value behind).match' .idle (bodyOf calls.flatten)) := by
  rw [output_render, run_calls _ calls _ _ (new_ready value behind) rfl]

end Nginx.SubFilterBytes
