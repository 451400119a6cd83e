import Nginx.ProxyHeader

/-!
# Header lines

The parser of header lines, with or without underscores in names and with or
without an upstream. The bytes are those of the stream and pointers are offsets
in it, so that a line that is moved to a larger buffer keeps them. The variables
of the request stay from one line to the next.
-/

set_option autoImplicit false

namespace Nginx.HeaderLines
open Nginx.HeaderHash Nginx.Resumable Nginx.ProxyHeader

def startByte (p : ℕ) (ch : UInt8) (l : HeaderLine) : HeaderLine ⊕ HeaderEnd :=
  let l := { l with headerNameStart := p, invalidHeader := false }
  if ch = 13 then .inl { l with headerEnd := p, state := .headerAlmostDone }
  else if ch = 10 then .inr (.headerDone { l with headerEnd := p })
  else
    let l := { l with state := .name }
    if lowcase ch ≠ 0 then
      .inl { l with
        headerHash := ngxHash 0 (lowcase ch)
        lowcaseHeader := Function.update l.lowcaseHeader 0 (lowcase ch)
        lowcaseIndex := 1 }
    else if ch = 0 then .inr (.invalid l)
    else .inl { l with invalidHeader := true }

def nameByte (allowUnderscores upstream : Bool) (stream : List UInt8) (p : ℕ) (ch : UInt8)
    (l : HeaderLine) : HeaderLine ⊕ HeaderEnd :=
  if lowcase ch ≠ 0 then .inl (addName l (lowcase ch))
  else if ch = 95 then
    .inl (if allowUnderscores then addName l ch else { l with invalidHeader := true })
  else if ch = 58 then .inl { l with headerNameEnd := p, state := .spaceBeforeValue }
  else if ch = 13 then
    .inl { l with headerNameEnd := p, headerStart := p, headerEnd := p, state := .almostDone }
  else if ch = 10 then
    .inr (.done { l with headerNameEnd := p, headerStart := p, headerEnd := p })
  else if ch = 47 ∧ upstream ∧ p-l.headerNameStart = 4 ∧
      slice stream l.headerNameStart (l.headerNameStart+4) = httpName then
    .inl { l with state := .ignoreLine }
  else if ch = 0 then .inr (.invalid l)
  else .inl { l with invalidHeader := true }

def spaceBeforeValueByte (p : ℕ) (ch : UInt8) (l : HeaderLine) : HeaderLine ⊕ HeaderEnd :=
  if ch = 32 then .inl l
  else if ch = 13 then .inl { l with headerStart := p, headerEnd := p, state := .almostDone }
  else if ch = 10 then .inr (.done { l with headerStart := p, headerEnd := p })
  else if ch = 0 then .inr (.invalid l)
  else .inl { l with headerStart := p, state := .value }

def valueByte (p : ℕ) (ch : UInt8) (l : HeaderLine) : HeaderLine ⊕ HeaderEnd :=
  if ch = 32 then .inl { l with headerEnd := p, state := .spaceAfterValue }
  else if ch = 13 then .inl { l with headerEnd := p, state := .almostDone }
  else if ch = 10 then .inr (.done { l with headerEnd := p })
  else if ch = 0 then .inr (.invalid l)
  else .inl l

def spaceAfterValueByte (ch : UInt8) (l : HeaderLine) : HeaderLine ⊕ HeaderEnd :=
  if ch = 32 then .inl l
  else if ch = 13 then .inl { l with state := .almostDone }
  else if ch = 10 then .inr (.done l)
  else if ch = 0 then .inr (.invalid l)
  else .inl { l with state := .value }

def lineByte (allowUnderscores upstream : Bool) (stream : List UInt8) (p : ℕ) (ch : UInt8)
    (l : HeaderLine) : HeaderLine ⊕ HeaderEnd :=
  match l.state with
  | .start => startByte p ch l
  | .name => nameByte allowUnderscores upstream stream p ch l
  | .spaceBeforeValue => spaceBeforeValueByte p ch l
  | .value => valueByte p ch l
  | .spaceAfterValue => spaceAfterValueByte ch l
  | .ignoreLine => if ch = 10 then .inl { l with state := .start } else .inl l
  | .almostDone =>
    if ch = 10 then .inr (.done l)
    else if ch = 13 then .inl l
    else .inr (.invalid l)
  | .headerAlmostDone => if ch = 10 then .inr (.headerDone l) else .inr (.invalid l)

structure Buf where
  pos : ℕ
  last : ℕ
  deriving DecidableEq, Repr

/-- `header_hash` and `lowcase_index` are only written back with `NGX_OK` and `NGX_AGAIN`. -/
def ngxHttpParseHeaderLine (allowUnderscores upstream : Bool) (stream : List UInt8) (b : Buf)
    (l : HeaderLine) : HeaderRc × Buf × HeaderLine :=
  match run (lineByte allowUnderscores upstream stream) b.pos (slice stream b.pos b.last) l with
  | .more l => (.again, { b with pos := b.last }, l)
  | .stop p (.done l) => (.ok, { b with pos := p+1 }, { l with state := .start })
  | .stop p (.headerDone l') =>
    (.headerDone, { b with pos := p+1 }, { l' with
      state := .start, headerHash := l.headerHash, lowcaseIndex := l.lowcaseIndex })
  | .stop _ (.invalid l') =>
    (.invalid, b, { l' with
      state := l.state, headerHash := l.headerHash, lowcaseIndex := l.lowcaseIndex })

/-- The calls after some bytes each have been read, up to the one that does not want more -/
@[grind =] def parseReads (allowUnderscores upstream : Bool) (stream : List UInt8) :
    List ℕ → Buf → HeaderLine → HeaderRc × Buf × HeaderLine
  | [], b, l => (.again, b, l)
  | n::reads, b, l =>
    match ngxHttpParseHeaderLine allowUnderscores upstream stream { b with last := b.last+n } l with
    | (.again, b, l) => parseReads allowUnderscores upstream stream reads b l
    | r => r

end Nginx.HeaderLines
