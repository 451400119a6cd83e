import Nginx.HeaderHash
import Nginx.UriBytes
import Nginx.Resumable

/-!
# Status line and headers of an upstream

The bytes of `u->buffer` are those of the stream, and pointers into it are offsets in the stream.
Both parsers stop at the end of what has been read, and go on from there in the next call.
Allocations succeed. What is known of a header by its name is a parameter.
-/

set_option autoImplicit false

namespace Nginx.ProxyHeader
open HeaderHash UriBytes Resumable

def slice (stream : List UInt8) (a z : ℕ) : List UInt8 := (stream.drop a).take (z-a)

inductive StatusState where
  | start
  | h
  | ht
  | htt
  | http
  | firstMajorDigit
  | majorDigit
  | firstMinorDigit
  | minorDigit
  | status
  | spaceAfterStatus
  | statusText
  | almostDone
  deriving DecidableEq, Repr

structure HttpStatus where
  code : ℕ
  count : ℕ
  start : Option ℕ
  final : Option ℕ
  deriving DecidableEq, Repr

inductive StatusEnd where
  | done (status : HttpStatus)
  | error (status : HttpStatus)
  deriving DecidableEq, Repr

def statusByte (p : ℕ) (ch : UInt8) :
    StatusState × HttpStatus → (StatusState × HttpStatus) ⊕ StatusEnd
  | (.start, s) => if ch = 72 then .inl (.h, s) else .inr (.error s)
  | (.h, s) => if ch = 84 then .inl (.ht, s) else .inr (.error s)
  | (.ht, s) => if ch = 84 then .inl (.htt, s) else .inr (.error s)
  | (.htt, s) => if ch = 80 then .inl (.http, s) else .inr (.error s)
  | (.http, s) => if ch = 47 then .inl (.firstMajorDigit, s) else .inr (.error s)
  | (.firstMajorDigit, s) =>
    if ch < 49 ∨ ch > 57 then .inr (.error s) else .inl (.majorDigit, s)
  | (.majorDigit, s) =>
    if ch = 46 then .inl (.firstMinorDigit, s)
    else if ch < 48 ∨ ch > 57 then .inr (.error s) else .inl (.majorDigit, s)
  | (.firstMinorDigit, s) =>
    if ch < 48 ∨ ch > 57 then .inr (.error s) else .inl (.minorDigit, s)
  | (.minorDigit, s) =>
    if ch = 32 then .inl (.status, s)
    else if ch < 48 ∨ ch > 57 then .inr (.error s) else .inl (.minorDigit, s)
  | (.status, s) =>
    if ch = 32 then .inl (.status, s)
    else if ch < 48 ∨ ch > 57 then .inr (.error s)
    else
      let s := { s with code := s.code*10+ch.toNat-48, count := s.count+1 }
      if s.count = 3 then .inl (.spaceAfterStatus, { s with start := some (p-2) })
      else .inl (.status, s)
  | (.spaceAfterStatus, s) =>
    if ch = 32 then .inl (.statusText, s)
    else if ch = 46 then .inl (.statusText, s)
    else if ch = 13 then .inl (.almostDone, s)
    else if ch = 10 then .inr (.done s)
    else .inr (.error s)
  | (.statusText, s) =>
    if ch = 13 then .inl (.almostDone, s)
    else if ch = 10 then .inr (.done s)
    else .inl (.statusText, s)
  | (.almostDone, s) =>
    let s := { s with final := some (p-1) }
    if ch = 10 then .inr (.done s) else .inr (.error s)

inductive HeaderState where
  | start
  | name
  | spaceBeforeValue
  | value
  | spaceAfterValue
  | ignoreLine
  | almostDone
  | headerAlmostDone
  deriving DecidableEq, Repr

structure HeaderLine where
  state : HeaderState
  headerHash : ℕ
  lowcaseIndex : ℕ
  lowcaseHeader : ℕ → UInt8
  headerNameStart : ℕ
  headerNameEnd : ℕ
  headerStart : ℕ
  headerEnd : ℕ
  invalidHeader : Bool

inductive HeaderEnd where
  | done (line : HeaderLine)
  | headerDone (line : HeaderLine)
  | invalid (line : HeaderLine)

def lowcase (ch : UInt8) : UInt8 :=
  if ch = 45 ∨ (48 ≤ ch ∧ ch ≤ 57) ∨ (97 ≤ ch ∧ ch ≤ 122) then ch
  else if 65 ≤ ch ∧ ch ≤ 90 then ch ||| 0x20
  else 0

def httpName : List UInt8 := [72,84,84,80]

def addName (l : HeaderLine) (c : UInt8) : HeaderLine :=
  { l with
    headerHash := ngxHash l.headerHash c
    lowcaseHeader := Function.update l.lowcaseHeader l.lowcaseIndex c
    lowcaseIndex := (l.lowcaseIndex+1) % 32 }

/-- `ngx_http_parse_header_line` for one byte, with `allow_underscores` and `r->upstream` set -/
def headerByte (stream : List UInt8) (p : ℕ) (ch : UInt8) (l : HeaderLine) :
    HeaderLine ⊕ HeaderEnd :=
  match l.state with
  | .start =>
    let l := { l with headerNameStart := p, invalidHeader := false }
    if ch = 13 then .inl { l with headerEnd := p, state := .headerAlmostDone }
    else if ch = 10 then .inr (.headerDone { l with headerEnd := p })
    else
      let l := { l with state := .name }
      if lowcase ch ≠ 0 then
        .inl { l with
          headerHash := ngxHash 0 (lowcase ch)
          lowcaseHeader := Function.update l.lowcaseHeader 0 (lowcase ch)
          lowcaseIndex := 1 }
      else if ch = 0 then .inr (.invalid l)
      else .inl { l with invalidHeader := true }
  | .name =>
    if lowcase ch ≠ 0 then .inl (addName l (lowcase ch))
    else if ch = 95 then .inl (addName l ch)
    else if ch = 58 then .inl { l with headerNameEnd := p, state := .spaceBeforeValue }
    else if ch = 13 then
      .inl { l with headerNameEnd := p, headerStart := p, headerEnd := p, state := .almostDone }
    else if ch = 10 then
      .inr (.done { l with headerNameEnd := p, headerStart := p, headerEnd := p })
    else if ch = 47 ∧ p-l.headerNameStart = 4 ∧
        slice stream l.headerNameStart (l.headerNameStart+4) = httpName then
      .inl { l with state := .ignoreLine }
    else if ch = 0 then .inr (.invalid l)
    else .inl { l with invalidHeader := true }
  | .spaceBeforeValue =>
    if ch = 32 then .inl l
    else if ch = 13 then .inl { l with headerStart := p, headerEnd := p, state := .almostDone }
    else if ch = 10 then .inr (.done { l with headerStart := p, headerEnd := p })
    else if ch = 0 then .inr (.invalid l)
    else .inl { l with headerStart := p, state := .value }
  | .value =>
    if ch = 32 then .inl { l with headerEnd := p, state := .spaceAfterValue }
    else if ch = 13 then .inl { l with headerEnd := p, state := .almostDone }
    else if ch = 10 then .inr (.done { l with headerEnd := p })
    else if ch = 0 then .inr (.invalid l)
    else .inl l
  | .spaceAfterValue =>
    if ch = 32 then .inl l
    else if ch = 13 then .inl { l with state := .almostDone }
    else if ch = 10 then .inr (.done l)
    else if ch = 0 then .inr (.invalid l)
    else .inl { l with state := .value }
  | .ignoreLine => if ch = 10 then .inl { l with state := .start } else .inl l
  | .almostDone =>
    if ch = 10 then .inr (.done l)
    else if ch = 13 then .inl l
    else .inr (.invalid l)
  | .headerAlmostDone => if ch = 10 then .inr (.headerDone l) else .inr (.invalid l)

structure TableElt where
  hash : ℕ
  key : List UInt8
  value : Option (List UInt8)
  lowcaseKey : List UInt8
  deriving DecidableEq, Repr

/-- The handlers in `umcf->headers_in_hash`, found by hash and name, with what they leave in
`u->headers_in` or none where one fails, and whether `server` and `date` are there -/
structure HeadersInHash (σ : Type) where
  handler : σ → TableElt → Option σ
  server : σ → Bool
  date : σ → Bool

inductive ProcessHeader where
  | statusLine
  | header
  deriving DecidableEq, Repr

inductive Rc where
  | ok
  | again
  | error
  | invalidHeader
  deriving DecidableEq, Repr

/-- `r->state` is `statusState` or `line.state`; both begin with 0. -/
structure Vars (σ : Type) where
  pos : ℕ
  last : ℕ
  processHeader : ProcessHeader
  statusState : StatusState
  status : HttpStatus
  line : HeaderLine
  httpVersion : ℕ
  stateStatus : ℕ
  statusN : ℕ
  statusLine : List UInt8
  headers : List TableElt
  headersIn : σ

section Calls

variable {σ : Type}

def ngxHttpProxyReinitRequest (v : Vars σ) : Vars σ :=
  { v with
    status := ⟨0,0,none,none⟩
    processHeader := .statusLine
    statusState := .start
    line := { v.line with state := .start } }

inductive StatusRc where
  | ok
  | again
  | error
  deriving DecidableEq, Repr

def ngxHttpParseStatusLine (stream : List UInt8) (v : Vars σ) : StatusRc × Vars σ :=
  match run statusByte v.pos (slice stream v.pos v.last) (v.statusState, v.status) with
  | .more s => (.again, { v with pos := v.last, statusState := s.1, status := s.2 })
  | .stop p (.done s) =>
    (.ok, { v with
      pos := p+1, statusState := .start
      status := { s with final := some (s.final.getD p) } })
  | .stop _ (.error s) => (.error, { v with status := s })

inductive HeaderRc where
  | ok
  | headerDone
  | again
  | invalid
  deriving DecidableEq, Repr

def ngxHttpParseHeaderLine (stream : List UInt8) (v : Vars σ) : HeaderRc × Vars σ :=
  match run (headerByte stream) v.pos (slice stream v.pos v.last) v.line with
  | .more l => (.again, { v with pos := v.last, line := l })
  | .stop p (.done l) => (.ok, { v with pos := p+1, line := { l with state := .start } })
  | .stop p (.headerDone l) =>
    (.headerDone, { v with
      pos := p+1
      line := { l with
        state := .start, headerHash := v.line.headerHash, lowcaseIndex := v.line.lowcaseIndex } })
  | .stop _ (.invalid l) =>
    (.invalid, { v with
      line := { l with
        state := v.line.state, headerHash := v.line.headerHash
        lowcaseIndex := v.line.lowcaseIndex } })

def parsedHeader (stream : List UInt8) (l : HeaderLine) : TableElt :=
  let key := slice stream l.headerNameStart l.headerNameEnd
  { hash := l.headerHash
    key := key
    value := some (slice stream l.headerStart l.headerEnd)
    lowcaseKey :=
      if key.length = l.lowcaseIndex then (List.range key.length).map l.lowcaseHeader
      else ngxStrlow key }

def emptyServer : TableElt :=
  { hash := ngxHashKey [115,101,114,118,101,114]
    key := [83,101,114,118,101,114]
    value := none
    lowcaseKey := [115,101,114,118,101,114] }

def emptyDate : TableElt :=
  { hash := ngxHashKey [100,97,116,101]
    key := [68,97,116,101]
    value := none
    lowcaseKey := [100,97,116,101] }

def addEmpty (t : HeadersInHash σ) (v : Vars σ) : Vars σ :=
  let v := if t.server v.headersIn then v else { v with headers := v.headers++[emptyServer] }
  if t.date v.headersIn then v else { v with headers := v.headers++[emptyDate] }

/-- The loop of `ngx_http_proxy_process_header`, for at most so many lines -/
@[grind =] def processHeaderLoop (t : HeadersInHash σ) (stream : List UInt8) : ℕ → Vars σ → Rc × Vars σ
  | 0, v => (.error, v)
  | n+1, v =>
    match ngxHttpParseHeaderLine stream v with
    | (.ok, v) =>
      let h := parsedHeader stream v.line
      let v := { v with headers := v.headers++[h] }
      match t.handler v.headersIn h with
      | none => (.error, v)
      | some x => processHeaderLoop t stream n { v with headersIn := x }
    | (.headerDone, v) => (.ok, addEmpty t v)
    | (.again, v) => (.again, v)
    | (.invalid, v) => (.invalidHeader, v)

def ngxHttpProxyProcessHeader (t : HeadersInHash σ) (stream : List UInt8) (v : Vars σ) :
    Rc × Vars σ :=
  processHeaderLoop t stream (v.last-v.pos+1) v

/-- Without a cache; `NGX_HTTP_VERSION_9` is 9. -/
def ngxHttpProxyProcessStatusLine (t : HeadersInHash σ) (stream : List UInt8) (v : Vars σ) :
    Rc × Vars σ :=
  match ngxHttpParseStatusLine stream v with
  | (.again, v) => (.again, v)
  | (.error, v) => (.ok, { v with httpVersion := 9, stateStatus := 200 })
  | (.ok, v) =>
    ngxHttpProxyProcessHeader t stream { v with
      stateStatus := v.status.code
      statusN := v.status.code
      statusLine := slice stream (v.status.start.getD 0) (v.status.final.getD 0)
      processHeader := .header }

/-- The call of `u->process_header` after some bytes have been read -/
def processRead (t : HeadersInHash σ) (stream : List UInt8) (v : Vars σ) (n : ℕ) : Rc × Vars σ :=
  let v := { v with last := v.last+n }
  match v.processHeader with
  | .statusLine => ngxHttpProxyProcessStatusLine t stream v
  | .header => ngxHttpProxyProcessHeader t stream v

/-- The reads of `ngx_http_upstream_process_header`, up to the one after which the header is there
or given up -/
@[grind =] def processReads (t : HeadersInHash σ) (stream : List UInt8) : List ℕ → Vars σ → Rc × Vars σ
  | [], v => (.again, v)
  | n::reads, v =>
    match processRead t stream v n with
    | (.again, v) => processReads t stream reads v
    | r => r

end Calls

end Nginx.ProxyHeader
