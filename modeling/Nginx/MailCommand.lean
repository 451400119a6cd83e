import Nginx.ImapCommand

/-!
# Commands of POP3 and SMTP clients

One machine with what the two protocols have of their own: the verbs, how many arguments there are
before another one is refused, and the commands whose argument has spaces. Pointers into
`s->buffer` are offsets from its start; the buffer is what has been read of the line. Allocations
succeed.
-/

set_option autoImplicit false

namespace Nginx.MailCommand
open Resumable
open ImapCommand (NgxStr slice sameLetters HandlerRc)

def Letter (b : UInt8) : Prop := (65 ≤ b ∧ b ≤ 90) ∨ (97 ≤ b ∧ b ≤ 122)

instance : DecidablePred Letter := fun b =>
  inferInstanceAs (Decidable ((65 ≤ b ∧ b ≤ 90) ∨ (97 ≤ b ∧ b ≤ 122)))

def ngxToupper (c : UInt8) : UInt8 := if 97 ≤ c ∧ c ≤ 122 then c &&& 223 else c

/-- What a parser has of its own; an argument is begun with `lastArg` arguments at most before
it. -/
structure Protocol (κ : Type) where
  find : List UInt8 → Option κ
  lastArg : ℕ
  keepsSpaces : κ → Bool
  auth : κ
  verb : ∀ name c, find name = some c → ∀ b ∈ name, Letter b
  authPlain : keepsSpaces auth = false

inductive MailState where
  | start
  | spacesBeforeArgument
  | argument
  | almostDone
  deriving DecidableEq, Repr

structure Session (κ : Type) where
  state : MailState
  command : Option κ
  argStart : Option ℕ
  argEnd : Option ℕ
  args : List NgxStr
  deriving DecidableEq, Repr

def freshSession (κ : Type) : Session κ := ⟨.start,none,none,none,[]⟩

inductive MailEnd (κ : Type) where
  | done (s : Session κ)
  | invalid (s : Session κ)
  deriving DecidableEq, Repr

section Bytes

variable {κ : Type} [DecidableEq κ] (P : Protocol κ) (buffer : List UInt8) (p : ℕ) (ch : UInt8)
  (s : Session κ)

def finishLine : Session κ :=
  let s : Session κ :=
    match s.argStart with
    | none => s
    | some a => { s with args := s.args++[⟨a,(s.argEnd.getD 0+2^64-a)%2^64⟩], argStart := none }
  { s with state := if s.command ≠ some P.auth then .start else .argument }

def invalidLine : Session κ := { s with state := .start, argStart := none }

def pushArg : Session κ :=
  { s with args := s.args++[⟨s.argStart.getD 0,p-s.argStart.getD 0⟩], argStart := none }

def endByte : Session κ ⊕ MailEnd κ :=
  if ch = 32 then .inl { s with state := .spacesBeforeArgument }
  else if ch = 13 then .inl { s with state := .almostDone }
  else .inr (.done (finishLine P s))

def startByte : Session κ ⊕ MailEnd κ :=
  if ch = 32 ∨ ch = 13 ∨ ch = 10 then
    match P.find (slice buffer 0 p) with
    | none => .inr (.invalid (invalidLine s))
    | some c => endByte P ch { s with command := some c }
  else if (ch < 65 ∨ ch > 90) ∧ (ch < 97 ∨ ch > 122) then .inr (.invalid (invalidLine s))
  else .inl s

def spacesBeforeArgumentByte : Session κ ⊕ MailEnd κ :=
  if ch = 32 then .inl s
  else if ch = 13 then .inl { s with state := .almostDone, argEnd := some p }
  else if ch = 10 then .inr (.done (finishLine P { s with argEnd := some p }))
  else if s.args.length ≤ P.lastArg then .inl { s with state := .argument, argStart := some p }
  else .inr (.invalid (invalidLine s))

def argumentByte : Session κ ⊕ MailEnd κ :=
  if ch = 32 ∧ s.command.any P.keepsSpaces then .inl s
  else if ch = 32 ∨ ch = 13 ∨ ch = 10 then endByte P ch (pushArg p s)
  else .inl s

def almostDoneByte : Session κ ⊕ MailEnd κ :=
  if ch = 10 then .inr (.done (finishLine P s)) else .inr (.invalid (invalidLine s))

def mailByte : Session κ ⊕ MailEnd κ :=
  match s.state with
  | .start => startByte P buffer p ch s
  | .spacesBeforeArgument => spacesBeforeArgumentByte P p ch s
  | .argument => argumentByte P p ch s
  | .almostDone => almostDoneByte P ch s

end Bytes

/-! The protocols -/

def findFour {κ : Type} (verbs : List (List UInt8 × κ)) (name : List UInt8) : Option κ :=
  if name.length = 4 then (verbs.find? fun e => name.map ngxToupper = e.1).map Prod.snd else none

theorem find_four_letters {κ : Type} {verbs : List (List UInt8 × κ)}
    (h : verbs.all (fun e => e.1.all fun b => 65 ≤ b && b ≤ 90) = true) {name : List UInt8} {c : κ}
    (hc : findFour verbs name = some c) : ∀ b ∈ name, Letter b := by
  intro b hb
  unfold findFour at hc
  split at hc
  · obtain ⟨e,he,-⟩ := Option.map_eq_some_iff.mp hc
    have hname : name.map ngxToupper = e.1 := by simpa using List.find?_some he
    have hmem : ngxToupper b ∈ e.1 := hname ▸ List.mem_map_of_mem hb
    have hup := List.all_eq_true.mp (List.all_eq_true.mp h e (List.mem_of_find?_eq_some he)) _ hmem
    rw [Bool.and_eq_true, decide_eq_true_iff, decide_eq_true_iff] at hup
    unfold ngxToupper at hup
    split at hup
    · rename_i hsmall
      exact Or.inr hsmall
    · exact Or.inl hup
  · cases hc

inductive Pop3Command where
  | user
  | pass
  | apop
  | quit
  | capa
  | auth
  | noop
  | stls
  deriving DecidableEq, Repr

def pop3Verbs (ssl : Bool) : List (List UInt8 × Pop3Command) :=
  [([85,83,69,82], .user), ([80,65,83,83], .pass), ([65,80,79,80], .apop),
    ([81,85,73,84], .quit), ([67,65,80,65], .capa), ([65,85,84,72], .auth),
    ([78,79,79,80], .noop)]++(if ssl then [([83,84,76,83], .stls)] else [])

/-- `ngx_mail_pop3_parse_command`; `ssl` is `NGX_MAIL_SSL`. -/
def pop3 (ssl : Bool) : Protocol Pop3Command where
  find := findFour (pop3Verbs ssl)
  lastArg := 2
  keepsSpaces c := c = .user || c = .pass
  auth := .auth
  verb name c := find_four_letters (by cases ssl <;> decide)
  authPlain := rfl

inductive SmtpCommand where
  | helo
  | ehlo
  | quit
  | auth
  | noop
  | mail
  | rset
  | rcpt
  | vrfy
  | expn
  | help
  | starttls
  deriving DecidableEq, Repr

def smtpVerbs : List (List UInt8 × SmtpCommand) :=
  [([72,69,76,79], .helo), ([69,72,76,79], .ehlo), ([81,85,73,84], .quit),
    ([65,85,84,72], .auth), ([78,79,79,80], .noop), ([77,65,73,76], .mail),
    ([82,83,69,84], .rset), ([82,67,80,84], .rcpt), ([86,82,70,89], .vrfy),
    ([69,88,80,78], .expn), ([72,69,76,80], .help)]

def findSmtp (ssl : Bool) (name : List UInt8) : Option SmtpCommand :=
  if name.length = 4 then findFour smtpVerbs name
  else if ssl ∧ name.length = 8 ∧ sameLetters [83,84,65,82,84,84,76,83] name then
    some .starttls
  else none

theorem same_letters {us name : List UInt8} (hus : us.all (fun b => 65 ≤ b && b ≤ 90) = true)
    (h : sameLetters us name = true) : ∀ b ∈ name, Letter b := by
  induction us generalizing name with
  | nil =>
    cases name with
    | nil => exact fun b hb => absurd hb List.not_mem_nil
    | cons c cs => cases h
  | cons u us ih =>
    cases name with
    | nil => cases h
    | cons c cs =>
      rw [sameLetters, Bool.and_eq_true, Bool.or_eq_true, decide_eq_true_iff,
        decide_eq_true_iff] at h
      rw [List.all_cons, Bool.and_eq_true, Bool.and_eq_true, decide_eq_true_iff,
        decide_eq_true_iff] at hus
      intro b hb
      rcases List.mem_cons.mp hb with rfl|hb
      · obtain ⟨hl,hr⟩ := hus.1
        rcases h.1 with rfl|rfl
        · exact Or.inl ⟨hl,hr⟩
        have hl' : 65 ≤ u.toNat := hl
        have hr' : u.toNat ≤ 90 := hr
        refine Or.inr ⟨?_,?_⟩ <;> rw [UInt8.le_iff_toNat_le, UInt8.toNat_add] <;>
          simp only [UInt8.reduceToNat] <;> omega
      · exact ih hus.2 h.2 b hb

def smtp (ssl : Bool) : Protocol SmtpCommand where
  find := findSmtp ssl
  lastArg := 10
  keepsSpaces _ := false
  auth := .auth
  verb name c h := by
    unfold findSmtp at h
    split at h
    · exact find_four_letters (by decide) h
    · split at h
      · rename_i hname
        exact same_letters (by decide) hname.2.2
      · cases h
  authPlain := rfl

/-! Calls -/

section Calls

variable {κ : Type} [DecidableEq κ] (P : Protocol κ)

/-- What the calls for one line end with; `q` is where the line ends. -/
inductive Calls (κ : Type) where
  | waiting (s : Session κ)
  | accepted (q : ℕ) (s : Session κ)
  | rejected (s : Session κ)
  deriving DecidableEq, Repr

/-- A call of the parser behind each read, until it accepts or rejects; the buffer begins with what
has been read before. -/
@[grind =] def parseReads : List (List UInt8) → List UInt8 → Session κ → Calls κ
  | [], _, s => .waiting s
  | r::rs, buffer, s =>
    match run (mailByte P (buffer++r)) buffer.length r s with
    | .more s => parseReads rs (buffer++r) s
    | .stop q (.done s) => .accepted (q+1) s
    | .stop _ (.invalid s) => .rejected s

/-- The session that the handler of a command leaves for the next line, whose buffer is empty. A
handler of AUTH that has no answer to wait for clears the state. -/
def nextLine (rc : HandlerRc) (cleared : Bool) (s : Session κ) : Session κ :=
  let s := { s with args := [] }
  if rc ≠ .ok ∨ cleared then { s with state := .start }
  else if s.state = .start then s
  else { s with argStart := some 0 }

inductive Reached : Session κ → Prop where
  | fresh : Reached (freshSession κ)
  | accepted (s s' : Session κ) (reads : List (List UInt8)) (q : ℕ) (rc : HandlerRc)
      (cleared : Bool) (h : Reached s) (hs : parseReads P reads [] s = .accepted q s') :
      Reached (nextLine rc cleared s')
  | rejected (s s' : Session κ) (reads : List (List UInt8)) (h : Reached s)
      (hs : parseReads P reads [] s = .rejected s') : Reached (nextLine .invalid false s')

inductive Answer (κ : Type) where
  | waiting
  | accepted (q : ℕ) (command : Option κ) (args : List NgxStr)
  | rejected
  deriving DecidableEq, Repr

def answer : Calls κ → Answer κ
  | .waiting _ => .waiting
  | .accepted q s => .accepted q s.command s.args
  | .rejected _ => .rejected

/-! Lines -/

def Plain (b : UInt8) : Prop := b ≠ 32 ∧ b ≠ 13 ∧ b ≠ 10

instance : DecidablePred Plain := fun b =>
  inferInstanceAs (Decidable (b ≠ 32 ∧ b ≠ 13 ∧ b ≠ 10))

def LineEnd (bs : List UInt8) : Prop := bs = [10] ∨ bs = [13,10]

/-- An argument does not begin with a space, and has one only where the command says so. -/
def Word (spaces : Bool) (a : List UInt8) : Prop :=
  a ≠ [] ∧ a.head? ≠ some 32 ∧ ∀ b ∈ a, b ≠ 13 ∧ b ≠ 10 ∧ (b = 32 → spaces = true)

def fill (ws : List (ℕ × List UInt8)) : List UInt8 :=
  ws.flatMap fun w => List.replicate (w.1+1) 32++w.2

def maxArgs (c : κ) : ℕ := if P.keepsSpaces c then 1 else P.lastArg+1

/-- A line with its head, the arguments behind it besides `n` others, spaces and the end -/
def LineWith (c : κ) (n : ℕ) (head line : List UInt8) (as : List (List UInt8)) : Prop :=
  ∃ ws k ending, line = head++fill ws++List.replicate k 32++ending ∧ as = ws.map Prod.snd ∧
    n+ws.length ≤ maxArgs P c ∧ (∀ w ∈ ws, Word (P.keepsSpaces c) w.2) ∧
    (P.keepsSpaces c = true → ws ≠ [] → k = 0) ∧ LineEnd ending

def CommandLine (c : κ) (as : List (List UInt8)) (line : List UInt8) : Prop :=
  ∃ verb, P.find verb = some c ∧ LineWith P c 0 verb line as

def ContinuationLine (as : List (List UInt8)) (line : List UInt8) : Prop :=
  ∃ a rest, as = a::rest ∧ (∀ b ∈ a, Plain b) ∧ LineWith P P.auth 1 a line rest

def LineOf (s : Session κ) (c : κ) (as : List (List UInt8)) (line : List UInt8) : Prop :=
  (s.state = .start ∧ CommandLine P c as line) ∨
    (s.state = .argument ∧ c = P.auth ∧ ContinuationLine P as line)

def texts (buffer : List UInt8) (s : Session κ) : List (List UInt8) :=
  s.args.map fun a => slice buffer a.data (a.data+a.len)

end Calls

end Nginx.MailCommand
