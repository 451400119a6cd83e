import Nginx.ConfRead

/-!
# The tokens of a configuration file

What a configuration file says, without the buffer it is read through: the whole content
is split into lexemes, and the lexemes between two of `;`, `{` and `}` are the arguments of
a directive. The words are decoded on their own.
-/

set_option autoImplicit false

namespace Nginx.ConfTokens
open ConfRead

/-- The pieces of a file. A word that the file ends within has its bytes past an opening
quote. -/
inductive Lexeme where
  | blank (ch : UInt8)
  | comment (text : List UInt8)
  | plain (text : List UInt8)
  | quoted (quote : UInt8) (text : List UInt8)
  | punct (ch : UInt8)
  | unfinished (isQuoted : Bool) (text : List UInt8)
  deriving DecidableEq, Repr

def endsPlain (ch : UInt8) : Bool := isBlank ch || ch = semicolon || ch = openBrace

/-- A plain word and what follows it. A backslash takes the next byte with it, and a "${"
opens no block. -/
@[grind =] def plainText : List UInt8 → Option (List UInt8 × List UInt8)
  | [] => none
  | [c] => if endsPlain c then some ([], [c]) else none
  | c::d::s =>
    if c = backslash ∨ (c = dollar ∧ d = openBrace) then
      (plainText s).map fun r => (c::d::r.1, r.2)
    else if endsPlain c then some ([], c::d::s)
    else (plainText (d::s)).map fun r => (c::r.1, r.2)

@[grind =] def quotedText (quote : UInt8) : List UInt8 → Option (List UInt8 × List UInt8)
  | [] => none
  | [c] => if c = quote then some ([], []) else none
  | c::d::s =>
    if c = backslash then (quotedText quote s).map fun r => (c::d::r.1, r.2)
    else if c = quote then some ([], d::s)
    else (quotedText quote (d::s)).map fun r => (c::r.1, r.2)

/-- The escapes of a word: a quote, a backslash, a tab and the ends of a line. Another
backslash stands for itself. -/
@[grind =] def decode : List UInt8 → List UInt8
  | [] => []
  | [c] => [c]
  | c::d::s =>
    if c = backslash then
      if d = doubleQuote ∨ d = singleQuote ∨ d = backslash then d::decode s
      else if d = letterT then tab::decode s
      else if d = letterR then cr::decode s
      else if d = letterN then lf::decode s
      else c::decode (d::s)
    else c::decode (d::s)

theorem plainText_length (s : List UInt8) {r : List UInt8 × List UInt8}
    (h : plainText s = some r) : s = r.1++r.2 := by
  fun_induction plainText s generalizing r with
  | case1 => cases h
  | case2 c hc =>
    obtain rfl := Option.some.inj h
    rfl
  | case3 => cases h
  | case4 c d s hc ih =>
    obtain ⟨r',hr,rfl⟩ := Option.map_eq_some_iff.mp h
    rw [ih hr]
    rfl
  | case5 c d s hc he =>
    obtain rfl := Option.some.inj h
    rfl
  | case6 c d s hc he ih =>
    obtain ⟨r',hr,rfl⟩ := Option.map_eq_some_iff.mp h
    rw [ih hr]
    rfl

theorem quotedText_length (quote : UInt8) (s : List UInt8) {r : List UInt8 × List UInt8}
    (h : quotedText quote s = some r) : s = r.1++quote::r.2 := by
  fun_induction quotedText quote s generalizing r with
  | case1 => cases h
  | case2 =>
    obtain rfl := Option.some.inj h
    rfl
  | case3 => cases h
  | case4 d s ih =>
    obtain ⟨r',hr,rfl⟩ := Option.map_eq_some_iff.mp h
    rw [ih hr]
    rfl
  | case5 d s hc =>
    obtain rfl := Option.some.inj h
    rfl
  | case6 c d s hc hq ih =>
    obtain ⟨r',hr,rfl⟩ := Option.map_eq_some_iff.mp h
    rw [ih hr]
    rfl

theorem plainText_nonempty {c : UInt8} {s : List UInt8} {r : List UInt8 × List UInt8}
    (hc : endsPlain c = false) (h : plainText (c::s) = some r) : 0 < r.1.length := by
  cases s with
  | nil => simp [plainText, hc] at h
  | cons d s =>
    rw [plainText] at h
    split at h
    · obtain ⟨r',_,rfl⟩ := Option.map_eq_some_iff.mp h
      simp
    · rw [if_neg (by simp [hc])] at h
      obtain ⟨r',_,rfl⟩ := Option.map_eq_some_iff.mp h
      simp

@[grind =] def lex : List UInt8 → List Lexeme
  | [] => []
  | c::s =>
    if isBlank c then .blank c::lex s
    else if c = sharp then
      .comment (c::s.takeWhile (· ≠ lf))::lex (s.dropWhile (· ≠ lf))
    else if c = semicolon ∨ c = openBrace ∨ c = closeBrace then .punct c::lex s
    else if c = doubleQuote ∨ c = singleQuote then
      match h : quotedText c s with
      | none => [.unfinished true s]
      | some r => .quoted c r.1::lex r.2
    else
      match h : plainText (c::s) with
      | none => [.unfinished false (c::s)]
      | some r => .plain r.1::lex r.2
termination_by s => s.length
decreasing_by
  · simp
  · have hl := (s.dropWhile_sublist (· ≠ lf)).length_le
    simp only [List.length_cons]
    omega
  · simp
  · have hl := congrArg List.length (quotedText_length c s h)
    simp only [List.length_append, List.length_cons] at hl ⊢
    omega
  · rename_i hb _ hp _
    have hl := congrArg List.length (plainText_length (c::s) h)
    have hc : endsPlain c = false := by
      simp only [not_or] at hp
      simp [endsPlain, hb, hp.1, hp.2.1]
    have hp := plainText_nonempty hc h
    simp only [List.length_append, List.length_cons] at hl ⊢
    omega

/-- A directive of the file, or its end, or what is no configuration. -/
inductive Token where
  | error
  | ok (args : List (List UInt8))
  | blockStart (args : List (List UInt8))
  | blockDone
  | fileDone
  deriving DecidableEq, Repr

/-- The directives that lexemes make up, with the arguments so far; behind a quoted word
only a blank, `;`, `{` or `)` may come. -/
@[grind =] def tokensFrom (args : List (List UInt8)) (closed : Bool) : List Lexeme → List Token
  | [] => if args = [] then [.fileDone] else [.error]
  | .blank _::r => tokensFrom args false r
  | .comment _::r => if closed then [.error] else tokensFrom args false r
  | .plain text::r =>
    if closed ∧ text.head? ≠ some closeParen then [.error]
    else tokensFrom (args++[decode text]) false r
  | .quoted _ text::r =>
    if closed then [.error] else tokensFrom (args++[decode text]) true r
  | .punct ch::r =>
    if ch = closeBrace then
      if args = [] then .blockDone::tokensFrom [] false r else [.error]
    else if args = [] then [.error]
    else if ch = openBrace then .blockStart args::tokensFrom [] false r
    else .ok args::tokensFrom [] false r
  | .unfinished _ _::_ => [.error]

def tokens (content : List UInt8) : List Token := tokensFrom [] false (lex content)

/-- The files that the reader is for: from the start of a word, a comment or a directive to
the start of the next there are fewer bytes than the buffer has, no plain word starts with
"${" and none has "${{", and the file ends within no first word of a directive. `n` counts
the bytes since such a start, and `any` says that the directive has arguments. -/
@[grind =] def regular (n : ℕ) (any : Bool) : List Lexeme → Bool
  | [] => true
  | .blank _::r => decide (n < ngxConfBuffer) && regular (n+1) any r
  | .comment text::r => decide (n < ngxConfBuffer ∧ text.length ≤ ngxConfBuffer) &&
      regular text.length any r
  | .plain text::r => decide (n < ngxConfBuffer ∧ text.length ≤ ngxConfBuffer ∧
        ¬ [dollar, openBrace] <+: text ∧
        ¬ ([dollar, openBrace] <:+ text ∧ r.head? = some (.punct openBrace))) &&
      regular text.length true r
  | .quoted _ text::r => decide (n < ngxConfBuffer ∧ text.length+1 ≤ ngxConfBuffer) &&
      regular (text.length+1) true r
  | .punct _::r => decide (n < ngxConfBuffer) && regular 0 false r
  | .unfinished q text::_ => any && decide (n < ngxConfBuffer ∧ text.length ≤ ngxConfBuffer ∧
      (q = false → ¬ [dollar, openBrace] <+: text))

def tokenOf (c : Call) : Token :=
  match c.rc with
  | .error _ _ => .error
  | .ok => .ok (c.args.map fun w => w.data.take w.len)
  | .blockStart => .blockStart (c.args.map fun w => w.data.take w.len)
  | .blockDone => .blockDone
  | .fileDone => .fileDone

end Nginx.ConfTokens
