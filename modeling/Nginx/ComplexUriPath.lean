import Nginx.ComplexUri

/-!
# The complex URI scanner as segment resolution

Decoding is separated from writing. The path bytes of a raw URI are what its
escapes stand for up to the first bare `?` or `#`; an escape cut off by the end
of the URI stands for nothing. The scanner walks over the path bytes, so its
output is the resolution of their segments.
-/

set_option autoImplicit false

namespace Nginx.ComplexUriPath
open Nginx.UriBytes Nginx.ComplexUri Nginx.DotSegments

@[grind =] def escapeByte (first second : UInt8) : Option UInt8 :=
  match hexDigit first, hexDigit second with
  | some high, some low =>
    if (high <<< 4) + low = nul then none else some ((high <<< 4) + low)
  | _, _ => none

@[grind =] def pathBytes : List UInt8 → Option (List UInt8)
  | [] => some []
  | ch :: rest =>
    if ch = question ∨ ch = hash then some []
    else if ch = percent then
      match rest with
      | [] => some []
      | [first] => if (hexDigit first).isSome then some [] else none
      | first :: second :: rest =>
        (escapeByte first second).bind (fun byte => (pathBytes rest).map (byte :: ·))
    else (pathBytes rest).map (ch :: ·)

variable (first second : UInt8)

theorem escape_byte (high low : UInt8) (h1 : hexDigit first = some high)
    (h2 : hexDigit second = some low) :
    escapeByte first second =
      if (high <<< 4) + low = nul then none else some ((high <<< 4) + low) := by
  rw [escapeByte, h1, h2]

variable (ch : UInt8) (rest : List UInt8)

theorem path_bytes_end (h : ch = question ∨ ch = hash) : pathBytes (ch :: rest) = some [] := by
  rcases rest with _ | ⟨first,_ | ⟨second,rest⟩⟩
  · exact if_pos h
  · exact if_pos h
  · exact if_pos h

theorem path_bytes_plain (h : ¬(ch = question ∨ ch = hash)) (hp : ch ≠ percent) :
    pathBytes (ch :: rest) = (pathBytes rest).map (ch :: ·) := by
  rcases rest with _ | ⟨first,_ | ⟨second,rest⟩⟩
  · exact (if_neg h).trans (if_neg hp)
  · exact (if_neg h).trans (if_neg hp)
  · exact (if_neg h).trans (if_neg hp)

theorem path_bytes_escape :
    pathBytes (percent :: first :: second :: rest) =
      (escapeByte first second).bind (fun byte => (pathBytes rest).map (byte :: ·)) := by
  rfl

def markOfState : PlainState → Mark
  | .swUsual => .plain
  | .swSlash => .slash
  | .swDot => .dot
  | .swDotDot => .dotDot

def view (state : PlainState) (c : UriScan) : Walk UInt8 := ⟨markOfState state,c.u⟩

theorem usual_ordinary (h : usual ch = true) : ch ≠ slash ∧ ch ≠ dot := by
  have hm := (usual_iff ch).mp h
  constructor <;> rintro rfl <;> simp at hm

variable (merge : Bool) (state : PlainState) (c : UriScan)

theorem plain_turn_step (ch : UInt8) (hp : ch ≠ percent) (hq : ch ≠ question) (hh : ch ≠ hash)
    (hs : c.state = .plain state) :
    match step slash dot merge (view state c) ch with
    | none => plainTurn merge state c ch = .invalid
    | some w => ∃ d next, plainTurn merge state c ch = .next d ∧
        d.state = .plain next ∧ view next d = w := by
  by_cases hu : usual ch = true
  · obtain ⟨h1,h2⟩ := usual_ordinary ch hu
    have hstep : step slash dot merge (view state c) ch = some ⟨.plain,ch :: c.u⟩ := by
      cases state <;> simp [step, nextMark, view, markOfState, h1, h2]
    rw [hstep]
    refine ⟨put c .swUsual ch,.swUsual,?_,rfl,rfl⟩
    cases state <;> simp [plainTurn, usualTurn, slashTurn, dotTurn, dotDotTurn, hu]
  by_cases h1 : ch = slash
  · subst h1
    cases state with
    | swUsual => exact ⟨_,.swSlash,rfl,rfl,rfl⟩
    | swSlash => cases merge <;> exact ⟨_,.swSlash,rfl,rfl,rfl⟩
    | swDot => exact ⟨_,.swSlash,rfl,rfl,rfl⟩
    | swDotDot =>
      have hturn : plainTurn merge .swDotDot c slash =
          (backUp slash c.u).elim .invalid
            (fun u => .next { c with state := .plain .swSlash, u := u }) := by
        simp only [plainTurn, dotDotTurn, backUp, if_neg hu, if_true]
        generalize (c.u.drop 4).dropWhile (fun x => decide (x ≠ slash)) = kept
        cases kept <;> rfl
      rw [hturn]
      simp only [step, view, markOfState, if_true]
      cases backUp slash c.u with
      | none => rfl
      | some u => exact ⟨_,.swSlash,rfl,rfl,rfl⟩
  by_cases h2 : ch = dot
  · subst h2
    cases state with
    | swUsual => exact ⟨_,.swUsual,rfl,rfl,rfl⟩
    | swSlash => exact ⟨_,.swDot,rfl,rfl,rfl⟩
    | swDot => exact ⟨_,.swDotDot,rfl,rfl,rfl⟩
    | swDotDot => exact ⟨_,.swUsual,rfl,rfl,rfl⟩
  have hstep : step slash dot merge (view state c) ch = some ⟨.plain,ch :: c.u⟩ := by
    cases state <;> simp [step, nextMark, view, markOfState, h1, h2]
  have hturn : plainTurn merge state c ch = leaveTurn state c ch := by
    cases state <;> simp [plainTurn, usualTurn, slashTurn, dotTurn, dotDotTurn, hu, h1, h2]
  rw [hstep, hturn]
  by_cases hplus : ch = plus
  · exact ⟨{ put c .swUsual ch with plusInUri := true },.swUsual,
      by simp [leaveTurn, hplus],rfl,rfl⟩
  · exact ⟨put c .swUsual ch,.swUsual,by simp [leaveTurn, hp, hq, hh, hplus],rfl,rfl⟩

theorem finish_args_uri (rest : List UInt8) : (finishArgs c rest).uri = c.u.reverse := by
  unfold finishArgs
  split_ifs <;> rfl

theorem plain_turn_leave (ch : UInt8) (h : ch = percent ∨ ch = question ∨ ch = hash) :
    plainTurn merge state c ch = leaveTurn state c ch := by
  have hu : usual ch = false := by
    rcases h with rfl | rfl | rfl <;> decide
  rcases h with rfl | rfl | rfl <;> cases state <;>
    simp [plainTurn, usualTurn, slashTurn, dotTurn, dotDotTurn, hu]

theorem quoted_second_step (second low : UInt8) (hs : c.state = .swQuotedSecond)
    (hl : hexDigit second = some low) (hz : (c.decoded <<< 4) + low ≠ nul) :
    match step slash dot merge (view c.quotedState c) ((c.decoded <<< 4) + low) with
    | none => turn merge c second = .invalid
    | some w => ∃ d next, turn merge c second = .next d ∧
        d.state = .plain next ∧ view next d = w := by
  have hsecond : turn merge c second = quotedSecondTurn merge c second := by rw [turn, hs]
  rw [hsecond]
  have special : ∀ ch : UInt8, ch ≠ slash → ch ≠ dot →
      step slash dot merge (view c.quotedState c) ch =
        some (view .swUsual (put c .swUsual ch)) := by
    intro ch h1 h2
    cases hq : c.quotedState <;> simp [step, nextMark, view, markOfState, put, h1, h2]
  by_cases hd : isDigit second = true
  · have hlow : low = second - 48 := by
      simp only [hexDigit, hd, if_true, Option.some.injEq] at hl
      exact hl.symm
    subst hlow
    have hq : (c.decoded <<< 4) + (second - 48) ≠ question := by
      intro h
      have h10 := digit_value second hd
      have hm := quoted_byte c.decoded (second - 48) (by omega)
      rw [h] at hm
      have : (question : UInt8).toNat % 16 = 15 := rfl
      omega
    by_cases hspec : (c.decoded <<< 4) + (second - 48) = percent ∨
        (c.decoded <<< 4) + (second - 48) = hash
    · have hne : (c.decoded <<< 4) + (second - 48) ≠ slash ∧
          (c.decoded <<< 4) + (second - 48) ≠ dot := by
        rcases hspec with h | h <;> rw [h] <;> decide
      rw [special _ hne.1 hne.2]
      exact ⟨put c .swUsual _,.swUsual,by simp only [quotedSecondTurn, hd, if_true, hspec],
        rfl,rfl⟩
    have hp : (c.decoded <<< 4) + (second - 48) ≠ percent := fun h => hspec (Or.inl h)
    have hh : (c.decoded <<< 4) + (second - 48) ≠ hash := fun h => hspec (Or.inr h)
    have hturn : quotedSecondTurn merge c second = plainTurn merge c.quotedState
        { c with state := .plain c.quotedState } ((c.decoded <<< 4) + (second - 48)) := by
      simp only [quotedSecondTurn, hd, if_true, hspec, hz, if_false]
    rw [hturn]
    exact plain_turn_step merge c.quotedState { c with state := .plain c.quotedState } _
      hp hq hh rfl
  have hd' : isDigit second = false := by simpa using hd
  by_cases hc : 97 ≤ (second ||| 0x20) ∧ (second ||| 0x20) ≤ 102
  · have hlow : low = (second ||| 0x20) - 97 + 10 := by
      simp only [hexDigit, hd', hc, and_self, if_true, Bool.false_eq_true, if_false,
        Option.some.injEq] at hl
      exact hl.symm
    obtain ⟨h10,h16⟩ := letter_value second hc.1 hc.2
    rw [← hlow] at h10 h16
    have hm := quoted_byte c.decoded low h16
    have hp : (c.decoded <<< 4) + low ≠ percent := by
      intro h
      rw [h] at hm
      have : (percent : UInt8).toNat % 16 = 5 := rfl
      omega
    have hh : (c.decoded <<< 4) + low ≠ hash := by
      intro h
      rw [h] at hm
      have : (hash : UInt8).toNat % 16 = 3 := rfl
      omega
    by_cases hq : (c.decoded <<< 4) + low = question
    · have hne : (c.decoded <<< 4) + low ≠ slash ∧ (c.decoded <<< 4) + low ≠ dot := by
        rw [hq]; decide
      rw [special _ hne.1 hne.2]
      refine ⟨put c .swUsual _,.swUsual,?_,rfl,rfl⟩
      simp only [quotedSecondTurn, hd', hc, and_self, if_true, Bool.false_eq_true, if_false,
        ← hlow, hq]
    have hturn : ∃ c' : UriScan, c'.state = .plain c.quotedState ∧ c'.u = c.u ∧
        quotedSecondTurn merge c second =
          plainTurn merge c.quotedState c' ((c.decoded <<< 4) + low) := by
      by_cases hplus : (c.decoded <<< 4) + low = plus
      · refine ⟨{ c with plusInUri := true, state := .plain c.quotedState },rfl,rfl,?_⟩
        simp only [quotedSecondTurn, hd', hc, and_self, if_true, Bool.false_eq_true, if_false,
          ← hlow, hplus]
        simp
      refine ⟨{ c with state := .plain c.quotedState },rfl,rfl,?_⟩
      simp only [quotedSecondTurn, hd', hc, and_self, if_true, Bool.false_eq_true, if_false,
        ← hlow, hplus, hq]
    obtain ⟨c',hs,hu,hturn⟩ := hturn
    rw [hturn]
    have h := plain_turn_step merge c.quotedState c' _ hp hq hh hs
    simpa only [view, hu] using h
  · simp [hexDigit, hd', hc] at hl

theorem hex_digit_none :
    hexDigit ch = none ↔ isDigit ch = false ∧ ¬(97 ≤ (ch ||| 0x20) ∧ (ch ||| 0x20) ≤ 102) := by
  unfold hexDigit
  split_ifs with h1 h2 <;> simp_all

theorem quoted_turn_digit (first high : UInt8) (hs : c.state = .swQuoted)
    (h : hexDigit first = some high) :
    ∃ d, turn merge c first = .next d ∧ d.state = .swQuotedSecond ∧ d.decoded = high ∧
      d.quotedState = c.quotedState ∧ d.u = c.u := by
  refine ⟨{ c with quotedUri := true, decoded := high, state := .swQuotedSecond },
    ?_,rfl,rfl,rfl,rfl⟩
  have hturn : turn merge c first = quotedTurn c first := by rw [turn, hs]
  rw [hturn]
  unfold hexDigit at h
  unfold quotedTurn
  split_ifs at h ⊢ <;> simp_all

theorem quoted_turn_invalid (first : UInt8) (hs : c.state = .swQuoted) (h : hexDigit first = none) :
    turn merge c first = .invalid := by
  obtain ⟨h1,h2⟩ := (hex_digit_none first).mp h
  simp [turn, hs, quotedTurn, h1, h2]

theorem quoted_second_invalid (second : UInt8) (hs : c.state = .swQuotedSecond)
    (h : hexDigit second = none) : turn merge c second = .invalid := by
  obtain ⟨h1,h2⟩ := (hex_digit_none second).mp h
  simp [turn, hs, quotedSecondTurn, h1, h2]

theorem quoted_second_nul (second low : UInt8) (hs : c.state = .swQuotedSecond)
    (hl : hexDigit second = some low) (hz : (c.decoded <<< 4) + low = nul) :
    turn merge c second = .invalid := by
  have hturn : turn merge c second = quotedSecondTurn merge c second := by rw [turn, hs]
  rw [hturn]
  unfold hexDigit at hl
  split_ifs at hl with hd hc
  · cases hl
    have hp : nul ≠ percent ∧ nul ≠ hash := by decide
    simp only [quotedSecondTurn, hd, if_true, hz, hp.1, hp.2, or_self, if_false]
  · exfalso
    obtain ⟨h10,h16⟩ := letter_value second hc.1 hc.2
    cases hl
    have hm := quoted_byte c.decoded _ h16
    rw [hz] at hm
    have : (nul : UInt8).toNat % 16 = 0 := rfl
    omega

theorem scan_leave (ch : UInt8) (rest : List UInt8) (merge : Bool) (state : PlainState)
    (hs : c.state = .plain state) (h : ch = question ∨ ch = hash) :
    (scan merge c (ch :: rest)).map ParsedUri.uri = some c.u.reverse := by
  have hturn := plain_turn_leave merge state c ch (Or.inr h)
  rcases h with rfl | rfl
  · simp [scan, turn, hs, hturn, leaveTurn, finish_args_uri]
  · simp [scan, turn, hs, hturn, leaveTurn, finish]

theorem scan_percent (rest : List UInt8) (state : PlainState) (hs : c.state = .plain state) :
    scan merge c (percent :: rest) =
      scan merge { c with quotedState := state, state := .swQuoted } rest := by
  have hturn := plain_turn_leave merge state c percent (Or.inl rfl)
  simp [scan, turn, hs, hturn, leaveTurn]

theorem scan_next (d : UriScan) (ch : UInt8) (rest : List UInt8) (h : turn merge c ch = .next d) :
    scan merge c (ch :: rest) = scan merge d rest := by
  rw [scan, h]

theorem scan_invalid (ch : UInt8) (rest : List UInt8) (h : turn merge c ch = .invalid) :
    scan merge c (ch :: rest) = none := by
  rw [scan, h]

/-- One turn of the scanner matched by one step of the walk on the byte `x`,
which is the character itself or the one its escape stands for. -/
theorem scan_step (w : Walk UInt8) (ch x : UInt8) (rest : List UInt8)
    (hstep : match step slash dot merge w x with
      | none => turn merge c ch = .invalid
      | some v => ∃ d next, turn merge c ch = .next d ∧ d.state = .plain next ∧ view next d = v)
    (ih : ∀ (d : UriScan) (next : PlainState), d.state = .plain next →
      (scan merge d rest).map ParsedUri.uri =
        ((pathBytes rest).bind (walk slash dot merge (view next d))).map
          (fun w => w.rev.reverse)) :
    (scan merge c (ch :: rest)).map ParsedUri.uri =
      (((pathBytes rest).map (x :: ·)).bind (walk slash dot merge w)).map
        (fun w => w.rev.reverse) := by
  cases hs : step slash dot merge w x with
  | none =>
    rw [hs] at hstep
    rw [scan_invalid merge c ch rest hstep]
    cases pathBytes rest <;> simp [walk, hs]
  | some v =>
    rw [hs] at hstep
    obtain ⟨d,next,hturn,hd,hv⟩ := hstep
    rw [scan_next merge c d ch rest hturn, ih d next hd, hv]
    cases pathBytes rest <;> simp [walk, hs]

/-- The scanner's output is the walk over the path bytes. The induction follows
the decoder, an escape being read in three turns of the scanner. -/
theorem scan_walk (raw : List UInt8) (c : UriScan) (state : PlainState)
    (hs : c.state = .plain state) :
    (scan merge c raw).map ParsedUri.uri =
      ((pathBytes raw).bind (walk slash dot merge (view state c))).map
        (fun w => w.rev.reverse) := by
  induction raw using pathBytes.induct generalizing c state with
  | case1 => simp [scan, finish, pathBytes, walk, view]
  | case2 ch rest h =>
    rw [scan_leave c ch rest merge state hs h, path_bytes_end ch rest h]
    simp [walk, view]
  | case3 =>
    rw [scan_percent merge c [] state hs]
    simp [scan, finish, pathBytes, walk, view]
  | case4 first hx =>
    obtain ⟨high,hh⟩ := Option.isSome_iff_exists.mp hx
    obtain ⟨d,hturn,-,-,-,hu⟩ := quoted_turn_digit merge
      { c with quotedState := state, state := .swQuoted } first high rfl hh
    rw [scan_percent merge c [first] state hs, scan_next merge _ d first [] hturn]
    simp [scan, finish, pathBytes, hh, walk, view, hu]
  | case5 first hx =>
    have hh : hexDigit first = none := by simpa using hx
    rw [scan_percent merge c [first] state hs,
      scan_invalid merge _ first [] (quoted_turn_invalid merge _ first rfl hh)]
    simp [pathBytes, hh]
  | case6 first second rest _ ih =>
    rw [scan_percent merge c _ state hs, path_bytes_escape]
    cases h1 : hexDigit first with
    | none =>
      rw [scan_invalid merge _ first _ (quoted_turn_invalid merge _ first rfl h1)]
      simp [escapeByte, h1]
    | some high =>
      obtain ⟨d,hturn,hd,hhigh,hq,hu⟩ := quoted_turn_digit merge
        { c with quotedState := state, state := .swQuoted } first high rfl h1
      rw [scan_next merge _ d first _ hturn]
      cases h2 : hexDigit second with
      | none =>
        rw [scan_invalid merge d second _ (quoted_second_invalid merge d second hd h2)]
        simp [escapeByte, h1, h2]
      | some low =>
        rw [escape_byte first second high low h1 h2]
        by_cases hz : (d.decoded <<< 4) + low = nul
        · rw [scan_invalid merge d second _ (quoted_second_nul merge d second low hd h2 hz),
            ← hhigh, if_pos hz]
          simp
        have hv : view state c = view d.quotedState d := by simp only [view, hq, hu]
        rw [← hhigh, if_neg hz, Option.bind_some, hv]
        exact scan_step merge d _ second _ rest
          (quoted_second_step merge d second low hd h2 hz) ih
  | case7 ch rest h hp ih =>
    rw [path_bytes_plain ch rest h hp]
    have hstep := plain_turn_step merge state c ch hp (fun e => h (Or.inl e))
      (fun e => h (Or.inr e)) hs
    have hturn : turn merge c ch = plainTurn merge state c ch := by rw [turn, hs]
    rw [← hturn] at hstep
    exact scan_step merge c (view state c) ch ch rest hstep ih

/-- What the normalised URI of a rooted raw URI is: the segments that the
resolution of its path bytes keeps, the open one last. -/
theorem parsed_uri_segments (tail : List UInt8) (p : ParsedUri)
    (h : ngxHttpParseComplexUri (slash :: tail) merge = some p) :
    ∃ (path : List UInt8) (r : Resolved UInt8),
      pathBytes (slash :: tail) = some (slash :: path) ∧
      resolve dot merge [] (path.splitOn slash) = some r ∧
      p.uri.splitOn slash = segments r ∧ p.uri.head? = some slash := by
  have hw := scan_walk merge (slash :: tail) scanStart .swUsual rfl
  have hp : scan merge scanStart (slash :: tail) = some p := h
  rw [hp, path_bytes_plain slash tail (by decide) (by decide)] at hw
  cases hd : pathBytes tail with
  | none => simp [hd] at hw
  | some path =>
    have hroot := rooted_walk slash dot merge path
    have hv : view .swUsual scanStart = ⟨.plain,[]⟩ := rfl
    simp only [hd, hv, Option.map_some, Option.bind_some] at hw
    cases hres : resolve dot merge [] (path.splitOn slash) with
    | none =>
      rw [hres] at hroot
      simp only [hroot, Option.map_none, reduceCtorEq] at hw
    | some r =>
      rw [hres] at hroot
      obtain ⟨w,hwalk,hrep⟩ := hroot
      have huri : p.uri = w.rev.reverse := by
        rw [hwalk] at hw
        simpa using hw
      refine ⟨path,r,?_,hres,?_,?_⟩
      · rw [path_bytes_plain slash tail (by decide) (by decide), hd, Option.map_some]
      · rw [huri]
        exact written_segments slash dot w r hrep
      · obtain ⟨rest,hr⟩ := rev_path_last slash r.closed
        rw [huri, hrep.written, hr]
        simp

structure Grounded (uri : List UInt8) : Prop where
  rooted : uri.head? = some slash
  no_nul : nul ∉ uri
  no_dots : ∀ seg ∈ uri.splitOn slash, seg ≠ [dot] ∧ seg ≠ [dot, dot]

/-- The raw URI leaves no dot segment pending where its path ends, and every
NUL byte of the path stands in a segment that a later double dot takes away. -/
structure Settled (merge : Bool) (raw : List UInt8) : Prop where
  no_pending : ∀ path, pathBytes raw = some path →
    ¬[slash, dot] <:+ path ∧ ¬[slash, dot, dot] <:+ path
  nul_removed : ∀ path r, pathBytes raw = some path →
    resolve dot merge [] (path.tail.splitOn slash) = some r → ∀ seg ∈ segments r, nul ∉ seg

theorem mem_split_on (x : UInt8) (xs : List UInt8) (hx : x ≠ slash) :
    x ∈ xs ↔ ∃ seg ∈ xs.splitOn slash, x ∈ seg := by
  induction xs with
  | nil => simp
  | cons y ys ih =>
    obtain ⟨seg,rest,hsplit⟩ := List.exists_cons_of_ne_nil (List.splitOn_ne_nil slash ys)
    rw [List.splitOn_cons_eq_if_modifyHead, List.mem_cons, ih, hsplit]
    by_cases hy : y = slash
    · have hne : x ≠ y := fun e => hx (e.trans hy)
      simp [hy, hx]
    · rw [if_neg (by simpa using hy)]
      simp [or_assoc]

/-- A normalised URI stays below the root exactly when the raw URI is settled:
`/` is the only character behind which a pending dot segment is removed. -/
theorem parse_complex_uri_grounded (merge : Bool) (raw : List UInt8) (p : ParsedUri)
    (hraw : raw.head? = some slash) (h : ngxHttpParseComplexUri raw merge = some p) :
    Grounded p.uri ↔ Settled merge raw := by
  obtain ⟨tail,rfl⟩ : ∃ tail, raw = slash :: tail := by
    cases raw with
    | nil => simp at hraw
    | cons ch tail => exact ⟨tail,by simpa using hraw⟩
  obtain ⟨path,r,hpath,hres,hseg,hhead⟩ := parsed_uri_segments merge tail p h
  obtain ⟨hclosed,hlast⟩ := resolve_closed dot merge [] _ r hres (by simp)
  have hdots : (∀ seg ∈ segments r, seg ≠ [dot] ∧ seg ≠ [dot, dot]) ↔
      r.last ≠ [dot] ∧ r.last ≠ [dot, dot] := by
    constructor
    · exact fun hs => hs r.last (by simp [segments])
    · intro hl seg hs
      simp only [segments, List.mem_cons, List.mem_append, List.mem_reverse, List.not_mem_nil,
        or_false] at hs
      rcases hs with rfl | hs | rfl
      · simp
      · exact hclosed seg hs
      · exact hl
  have hpend : ¬[slash, dot] <:+ slash :: path ∧ ¬[slash, dot, dot] <:+ slash :: path ↔
      r.last ≠ [dot] ∧ r.last ≠ [dot, dot] := by
    rw [open_segment slash path [dot] (by decide), open_segment slash path [dot, dot] (by decide),
      hlast]
  have hnul : nul ∉ p.uri ↔ ∀ seg ∈ segments r, nul ∉ seg := by
    rw [mem_split_on nul p.uri (by decide), hseg]
    simp
  constructor
  · intro hg
    refine ⟨fun path' hp' => ?_,fun path' r' hp' hr' => ?_⟩
    · cases hpath.symm.trans hp'
      exact hpend.mpr (hdots.mp (by simpa [hseg] using hg.no_dots))
    · cases hpath.symm.trans hp'
      cases hres.symm.trans hr'
      exact hnul.mp hg.no_nul
  · intro hs
    refine ⟨hhead,hnul.mpr (hs.nul_removed _ r hpath hres),?_⟩
    rw [hseg]
    exact hdots.mpr (hpend.mp (hs.no_pending _ hpath))

theorem parse_complex_uri_grounded_climbing :
    Grounded [slash, 98] ↔ Settled true [slash, 97, slash, dot, dot, slash, 98] :=
  parse_complex_uri_grounded true [slash, 97, slash, dot, dot, slash, 98]
    ⟨[slash, 98],[],[],none,false,false⟩ (by decide) (by decide)

/-- A raw URI that ends in a double dot keeps it: the scanner stops in the
`sw_dot_dot` state and returns the two dots as the last segment. -/
theorem trailing_dot_dot_kept : ¬∀ (merge : Bool) (raw : List UInt8) (p : ParsedUri),
    raw.head? = some slash → ngxHttpParseComplexUri raw merge = some p → Grounded p.uri := by
  intro h
  have hg := h true [slash, dot, dot] ⟨[slash, dot, dot],[],[],none,false,false⟩
    (by decide) (by decide)
  exact (hg.no_dots [dot, dot] (by decide)).2 rfl

end Nginx.ComplexUriPath
