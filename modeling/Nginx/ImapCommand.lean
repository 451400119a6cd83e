import Nginx.Resumable

/-!
# Commands of an IMAP client

Pointers into `s->buffer` are offsets from its start, and `stream` is what the buffer takes from
there on. The bytes that a call leaves behind the announcement of a literal are parsed by the next
call, when more has been read. Allocations succeed.
-/

set_option autoImplicit false

namespace Nginx.ImapCommand
open Resumable

inductive ImapState where
  | start
  | spacesBeforeCommand
  | command
  | spacesBeforeArgument
  | argument
  | backslash
  | literal
  | noSyncLiteralArgument
  | startLiteralArgument
  | literalArgument
  | endLiteralArgument
  | almostDone
  deriving DecidableEq, Repr

inductive Command where
  | noop
  | login
  | logout
  | starttls
  | capability
  | authenticate
  deriving DecidableEq, Repr

structure NgxStr where
  data : ℕ
  len : ℕ
  deriving DecidableEq, Repr

/-- What `ngx_mail_session_t` has for the parser. The tag begins where the buffer does; `kept` is
what the buffer has of earlier lines when a line begins. -/
structure Session where
  state : ImapState
  tagLen : ℕ
  cmdStart : Option ℕ
  command : Option Command
  argStart : Option ℕ
  argEnd : Option ℕ
  args : List NgxStr
  quoted : Bool
  backslash : Bool
  noSyncLiteral : Bool
  literalLen : ℕ
  kept : List UInt8
  deriving DecidableEq, Repr

def freshSession : Session :=
  ⟨.start,0,none,none,none,none,[],false,false,false,0,[]⟩

inductive ImapEnd where
  | next (s : Session)
  | done (s : Session)
  | invalid (s : Session)
  deriving DecidableEq, Repr

/-- The commands that are known, in capital letters; `ssl` is `NGX_MAIL_SSL`. -/
def commands (ssl : Bool) : List (List UInt8 × Command) :=
  [([78,79,79,80], .noop), ([76,79,71,73,78], .login),
    ([76,79,71,79,85,84], .logout)] ++
  (if ssl then [([83,84,65,82,84,84,76,83], .starttls)] else []) ++
  [([67,65,80,65,66,73,76,73,84,89], .capability),
    ([65,85,84,72,69,78,84,73,67,65,84,69], .authenticate)]

@[grind =] def sameLetters : List UInt8 → List UInt8 → Bool
  | [], [] => true
  | u::us, c::cs => (c = u || c = u+32) && sameLetters us cs
  | _, _ => false

def findCommand (ssl : Bool) (name : List UInt8) : Option Command :=
  ((commands ssl).find? fun e => sameLetters e.1 name).map Prod.snd

def slice (stream : List UInt8) (a z : ℕ) : List UInt8 := (stream.drop a).take (z-a)

/-- The value of a pointer into a buffer that starts at `start` -/
def address (start : ℕ) : Option ℕ → ℕ
  | none => 0
  | some p => start+p

def finishLine (start : ℕ) (s : Session) : Session :=
  let s : Session :=
    match s.argStart with
    | none => s
    | some a =>
      { s with
        args := s.args++[⟨a,(address start s.argEnd + 2^64 - address start (some a)) % 2^64⟩]
        argStart := none, cmdStart := none
        quoted := false, noSyncLiteral := false, literalLen := 0 }
  { s with state := if s.command ≠ some .authenticate then .start else .argument }

def invalidLine (s : Session) : Session :=
  { s with state := .start, quoted := false, noSyncLiteral := false, literalLen := 0 }

def pushArg (z : ℕ) (s : Session) : Session :=
  { s with args := s.args++[⟨s.argStart.getD 0,z-s.argStart.getD 0⟩], argStart := none }

section Bytes

variable (ssl : Bool) (start : ℕ) (stream : List UInt8) (p : ℕ) (ch : UInt8) (s : Session)

def startByte : Session ⊕ ImapEnd :=
  if ch = 32 then .inl { s with tagLen := p+1, state := .spacesBeforeCommand }
  else if ch = 13 ∨ ch = 10 then .inr (.invalid { s with state := .start })
  else .inl s

def spacesBeforeCommandByte : Session ⊕ ImapEnd :=
  if ch = 32 then .inl s
  else if ch = 13 ∨ ch = 10 then .inr (.invalid { s with state := .start })
  else .inl { s with cmdStart := some p, state := .command }

def commandByte : Session ⊕ ImapEnd :=
  if ch = 32 ∨ ch = 13 ∨ ch = 10 then
    match findCommand ssl (slice stream (s.cmdStart.getD 0) p) with
    | none => .inr (.invalid (invalidLine s))
    | some c =>
      let s := { s with command := some c }
      if ch = 32 then .inl { s with state := .spacesBeforeArgument }
      else if ch = 13 then .inl { s with state := .almostDone }
      else .inr (.done (finishLine start s))
  else if (ch < 65 ∨ ch > 90) ∧ (ch < 97 ∨ ch > 122) then .inr (.invalid (invalidLine s))
  else .inl s

def spacesBeforeArgumentByte : Session ⊕ ImapEnd :=
  if ch = 32 then .inl s
  else if ch = 13 then .inl { s with state := .almostDone, argEnd := some p }
  else if ch = 10 then .inr (.done (finishLine start { s with argEnd := some p }))
  else if ch = 34 then
    if s.args.length ≤ 2 then
      .inl { s with quoted := true, argStart := some (p+1), state := .argument }
    else .inr (.invalid (invalidLine s))
  else if ch = 123 then
    if s.args.length ≤ 2 then .inl { s with state := .literal }
    else .inr (.invalid (invalidLine s))
  else if s.args.length ≤ 2 then .inl { s with argStart := some p, state := .argument }
  else .inr (.invalid (invalidLine s))

def argumentByte : Session ⊕ ImapEnd :=
  if ch = 32 ∧ s.quoted then .inl s
  else if ch = 34 then
    if !s.quoted then .inl s
    else .inl { pushArg p { s with quoted := false } with state := .spacesBeforeArgument }
  else if ch = 32 then .inl { pushArg p s with state := .spacesBeforeArgument }
  else if ch = 13 then .inl { pushArg p s with state := .almostDone }
  else if ch = 10 then .inr (.done (finishLine start (pushArg p s)))
  else if ch = 92 ∧ s.quoted then .inl { s with backslash := true, state := .backslash }
  else .inl s

def backslashByte : Session ⊕ ImapEnd :=
  if ch = 13 ∨ ch = 10 then .inr (.invalid (invalidLine s))
  else .inl { s with state := .argument }

def literalByte : Session ⊕ ImapEnd :=
  if 48 ≤ ch ∧ ch ≤ 57 then
    .inl { s with literalLen := (s.literalLen*10+(ch.toNat-48)) % 2^64 }
  else if ch = 125 then .inl { s with state := .startLiteralArgument }
  else if ch = 43 then .inl { s with state := .noSyncLiteralArgument }
  else .inr (.invalid (invalidLine s))

def noSyncLiteralArgumentByte : Session ⊕ ImapEnd :=
  if ch = 125 then .inl { s with noSyncLiteral := true, state := .startLiteralArgument }
  else .inr (.invalid (invalidLine s))

def startLiteralArgumentByte : Session ⊕ ImapEnd :=
  if ch = 13 then .inl s
  else if ch = 10 then
    let s := { s with argStart := some (p+1), state := .literalArgument }
    if !s.noSyncLiteral then .inr (.next s) else .inl { s with noSyncLiteral := false }
  else .inr (.invalid (invalidLine s))

def literalArgumentByte : Session ⊕ ImapEnd :=
  if s.literalLen ≠ 0 ∧ s.literalLen-1 ≠ 0 then
    .inl { s with literalLen := s.literalLen-1 }
  else
    .inl { pushArg (p+1) { s with literalLen := s.literalLen-1 } with
      state := .endLiteralArgument }

def endLiteralArgumentByte : Session ⊕ ImapEnd :=
  if ch = 123 then
    if s.args.length ≤ 2 then .inl { s with state := .literal }
    else .inr (.invalid (invalidLine s))
  else if ch = 13 then .inl { s with state := .almostDone }
  else if ch = 10 then .inr (.done (finishLine start s))
  else .inl { s with state := .spacesBeforeArgument }

def almostDoneByte : Session ⊕ ImapEnd :=
  if ch = 10 then .inr (.done (finishLine start s)) else .inr (.invalid (invalidLine s))

/-- `ngx_mail_imap_parse_command` for one byte -/
def imapByte : Session ⊕ ImapEnd :=
  match s.state with
  | .start => startByte p ch s
  | .spacesBeforeCommand => spacesBeforeCommandByte p ch s
  | .command => commandByte ssl start stream p ch s
  | .spacesBeforeArgument => spacesBeforeArgumentByte start p ch s
  | .argument => argumentByte start p ch s
  | .backslash => backslashByte ch s
  | .literal => literalByte ch s
  | .noSyncLiteralArgument => noSyncLiteralArgumentByte ch s
  | .startLiteralArgument => startLiteralArgumentByte p ch s
  | .literalArgument => literalArgumentByte p s
  | .endLiteralArgument => endLiteralArgumentByte start ch s
  | .almostDone => almostDoneByte start ch s

end Bytes

/-- What the calls for one line end with; `q` is where the next line begins. -/
inductive Calls where
  | waiting (s : Session) (unparsed : List UInt8)
  | accepted (q : ℕ) (s : Session)
  | rejected (s : Session)
  deriving DecidableEq, Repr

/-- A call of `ngx_mail_imap_parse_command` behind each read, until it accepts or rejects -/
@[grind =] def parseReads (ssl : Bool) (start : ℕ) (stream : List UInt8) :
    List (List UInt8) → ℕ → List UInt8 → Session → Calls
  | [], _, unparsed, s => .waiting s unparsed
  | r::rs, p, unparsed, s =>
    match run (imapByte ssl start stream) p (unparsed++r) s with
    | .more s => parseReads ssl start stream rs (p+(unparsed++r).length) [] s
    | .stop q (.next s) =>
      parseReads ssl start stream rs (q+1) ((unparsed++r).drop (q+1-p)) s
    | .stop q (.done s) => .accepted (q+1) s
    | .stop _ (.invalid s) => .rejected s

def parseLine (ssl : Bool) (start : ℕ) (s : Session) (reads : List (List UInt8)) : Calls :=
  parseReads ssl start (s.kept++reads.flatten) reads s.kept.length [] s

/-- What the handler of a line that is accepted returns; `done` is that of `ngx_mail_auth`. -/
inductive HandlerRc where
  | ok
  | done
  | invalid
  deriving DecidableEq, Repr

end Nginx.ImapCommand
