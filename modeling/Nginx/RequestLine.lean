import Nginx.UriBytes

/-!
# The request line parser

A pointer is an address and the null pointer is zero. The parser reads one
character a turn and keeps what it has found as pointers into the buffer; the
strings of the request are cut out between them afterwards. The loop carries
the state in a local variable that is stored in the request only when the
buffer ends, so that a later call resumes the same line.
-/

set_option autoImplicit false

namespace Nginx.RequestLine
open Nginx.UriBytes

inductive LineState where
  | swStart
  | swMethod
  | swSpacesBeforeUri
  | swSchema
  | swSchemaSlash
  | swSchemaSlashSlash
  | swHost
  | swPort
  | swHostHttp09
  | swAfterSlashInUri
  | swCheckUri
  | swCheckUriHttp09
  | swUri
  | swHttp09
  | swHttpH
  | swHttpHT
  | swHttpHTT
  | swHttpHTTP
  | swFirstMajorDigit
  | swMajorDigit
  | swFirstMinorDigit
  | swMinorDigit
  | swSpacesAfterDigit
  | swAlmostDone
  deriving DecidableEq, Repr

inductive Method where
  | unknown
  | get
  | head
  | post
  | put
  | delete
  | mkcol
  | copy
  | move
  | options
  | propfind
  | proppatch
  | lock
  | unlock
  | patch
  | trace
  deriving DecidableEq, Repr

abbrev Memory := ℤ → UInt8

def bytes (mem : Memory) (first last : ℤ) : List UInt8 :=
  (List.range (last-first).toNat).map (fun i : ℕ => mem (first+i))

variable (mem : Memory) (first last : ℤ)

theorem bytes_length : (bytes mem first last).length = (last-first).toNat := by
  simp [bytes]

theorem bytes_empty (h : last ≤ first) : bytes mem first last = [] := by
  have h0 : (last-first).toNat = 0 := by omega
  simp [bytes, h0]

theorem bytes_succ (h : first ≤ last) :
    bytes mem first (last+1) = bytes mem first last ++ [mem last] := by
  have hn : (last+1-first).toNat = (last-first).toNat+1 := by omega
  have hl : first+((last-first).toNat : ℤ) = last := by omega
  simp only [bytes, hn, List.range_succ, List.map_append, List.map_cons, List.map_nil, hl]

theorem bytes_append (middle last : ℤ) (h1 : first ≤ middle) (h2 : middle ≤ last) :
    bytes mem first last = bytes mem first middle ++ bytes mem middle last := by
  obtain ⟨n,rfl⟩ := Int.le.dest h2
  clear h2
  induction n with
  | zero => simp [bytes_empty mem middle middle]
  | succ n ih =>
    have hs : middle+((n+1 : ℕ) : ℤ) = middle+n+1 := by omega
    rw [hs, bytes_succ mem first (middle+n) (by omega), bytes_succ mem middle (middle+n) (by omega),
      ih, List.append_assoc]

@[simp] theorem bytes_self (p : ℤ) : bytes mem p p = [] :=
  bytes_empty mem p p le_rfl

theorem bytes_cons (h : first < last) :
    bytes mem first last = mem first :: bytes mem (first+1) last := by
  have h1 := bytes_succ mem first first le_rfl
  rw [bytes_append mem first (first+1) last (by omega) (by omega), h1,
    bytes_empty mem first first le_rfl]
  rfl

structure Request where
  state : LineState
  method : Method
  httpMajor : UInt16
  httpMinor : UInt16
  httpVersion : ℕ
  complexUri : Bool
  quotedUri : Bool
  plusInUri : Bool
  spaceInUri : Bool
  requestStart : ℤ
  requestEnd : ℤ
  methodEnd : ℤ
  schemaStart : ℤ
  schemaEnd : ℤ
  hostStart : ℤ
  hostEnd : ℤ
  portStart : ℤ
  portEnd : ℤ
  uriStart : ℤ
  uriEnd : ℤ
  uriExt : ℤ
  argsStart : ℤ
  httpProtocol : ℤ
  deriving DecidableEq, Repr

def newRequest : Request where
  state := .swStart
  method := .unknown
  httpMajor := 0
  httpMinor := 0
  httpVersion := 0
  complexUri := false
  quotedUri := false
  plusInUri := false
  spaceInUri := false
  requestStart := 0
  requestEnd := 0
  methodEnd := 0
  schemaStart := 0
  schemaEnd := 0
  hostStart := 0
  hostEnd := 0
  portStart := 0
  portEnd := 0
  uriStart := 0
  uriEnd := 0
  uriExt := 0
  argsStart := 0
  httpProtocol := 0

inductive LineError where
  | invalidMethod
  | invalidRequest
  | invalid09Method
  deriving DecidableEq, Repr

inductive Move where
  | next (state : LineState) (r : Request)
  | done (r : Request)
  | fail (error : LineError)
  deriving DecidableEq, Repr

/-- The method that the comparisons on a token of the given bytes select; a
token that none of them knows leaves the method as it was. -/
def tokenMethod (token : List UInt8) : Option Method :=
  if token = [71,69,84] then some .get
  else if token = [80,85,84] then some .put
  else if token = [80,79,83,84] then some .post
  else if token = [67,79,80,89] then some .copy
  else if token = [77,79,86,69] then some .move
  else if token = [76,79,67,75] then some .lock
  else if token = [72,69,65,68] then some .head
  else if token = [77,75,67,79,76] then some .mkcol
  else if token = [80,65,84,67,72] then some .patch
  else if token = [84,82,65,67,69] then some .trace
  else if token = [68,69,76,69,84,69] then some .delete
  else if token = [85,78,76,79,67,75] then some .unlock
  else if token = [79,80,84,73,79,78,83] then some .options
  else if token = [80,82,79,80,70,73,78,68] then some .propfind
  else if token = [80,82,79,80,80,65,84,67,72] then some .proppatch
  else none

def methodByte (ch : UInt8) : Bool := (65 ≤ ch && ch ≤ 90) || ch = underscore

/-- The test `c >= 'a' && c <= 'z'` on the character with its case bit set. -/
def isLetter (ch : UInt8) : Bool := 97 ≤ (ch ||| 0x20) && (ch ||| 0x20) ≤ 122

def startMove (r : Request) (p : ℤ) (ch : UInt8) : Move :=
  let r := { r with requestStart := p }
  if ch = cr ∨ ch = lf then .next .swStart r
  else if methodByte ch then .next .swMethod r
  else .fail .invalidMethod

def methodMove (mem : Memory) (r : Request) (p : ℤ) (ch : UInt8) : Move :=
  if ch = space then
    .next .swSpacesBeforeUri
      { r with methodEnd := p-1,
               method := (tokenMethod (bytes mem r.requestStart p)).getD r.method }
  else if methodByte ch then .next .swMethod r
  else .fail .invalidMethod

def spacesBeforeUriMove (r : Request) (p : ℤ) (ch : UInt8) : Move :=
  if ch = slash then .next .swAfterSlashInUri { r with uriStart := p }
  else if isLetter ch then .next .swSchema { r with schemaStart := p }
  else if ch = space then .next .swSpacesBeforeUri r
  else .fail .invalidRequest

def schemaMove (r : Request) (p : ℤ) (ch : UInt8) : Move :=
  if isLetter ch then .next .swSchema r
  else if ch = colon then .next .swSchemaSlash { r with schemaEnd := p }
  else .fail .invalidRequest

def expectMove (wanted : UInt8) (state : LineState) (r : Request) (ch : UInt8) : Move :=
  if ch = wanted then .next state r else .fail .invalidRequest

def bareHost (r : Request) : Request :=
  { r with uriStart := r.schemaEnd+1, uriEnd := r.schemaEnd+2 }

def hostMove (r : Request) (p : ℤ) (ch : UInt8) : Move :=
  if isLetter ch then .next .swHost r
  else if isDigit ch ∨ ch = dot ∨ ch = minus then .next .swHost r
  else
    let r := { r with hostEnd := p }
    if ch = colon then .next .swPort r
    else if ch = slash then .next .swAfterSlashInUri { r with uriStart := p }
    else if ch = space then .next .swHostHttp09 (bareHost r)
    else .fail .invalidRequest

def portMove (r : Request) (p : ℤ) (ch : UInt8) : Move :=
  if isDigit ch then .next .swPort r
  else if ch = slash then .next .swAfterSlashInUri { r with portEnd := p, uriStart := p }
  else if ch = space then .next .swHostHttp09 (bareHost { r with portEnd := p })
  else .fail .invalidRequest

def http09Move (other : Move) (r : Request) (p : ℤ) (ch : UInt8) : Move :=
  if ch = cr then .next .swAlmostDone { r with httpMinor := 9 }
  else if ch = lf then .done { r with httpMinor := 9 }
  else if ch = 72 then .next .swHttpH { r with httpProtocol := p }
  else other

def hostHttp09Move (r : Request) (p : ℤ) (ch : UInt8) : Move :=
  if ch = space then .next .swHostHttp09 r
  else http09Move (.fail .invalidRequest) r p ch

def uriEndMove (spaces : LineState) (other : Move) (r : Request) (p : ℤ) (ch : UInt8) : Move :=
  if ch = space then .next spaces { r with uriEnd := p }
  else if ch = cr then .next .swAlmostDone { r with uriEnd := p, httpMinor := 9 }
  else if ch = lf then .done { r with uriEnd := p, httpMinor := 9 }
  else other

def afterSlashInUriMove (r : Request) (p : ℤ) (ch : UInt8) : Move :=
  if usual ch then .next .swCheckUri r
  else uriEndMove .swCheckUriHttp09
    (if ch = dot then .next .swUri { r with complexUri := true }
     else if ch = percent then .next .swUri { r with quotedUri := true }
     else if ch = slash then .next .swUri { r with complexUri := true }
     else if ch = question then .next .swUri { r with argsStart := p+1 }
     else if ch = hash then .next .swUri { r with complexUri := true }
     else if ch = plus then .next .swAfterSlashInUri { r with plusInUri := true }
     else if ch = nul then .fail .invalidRequest
     else .next .swCheckUri r) r p ch

def checkUriMove (r : Request) (p : ℤ) (ch : UInt8) : Move :=
  if usual ch then .next .swCheckUri r
  else if ch = slash then .next .swAfterSlashInUri { r with uriExt := 0 }
  else if ch = dot then .next .swCheckUri { r with uriExt := p+1 }
  else uriEndMove .swCheckUriHttp09
    (if ch = percent then .next .swUri { r with quotedUri := true }
     else if ch = question then .next .swUri { r with argsStart := p+1 }
     else if ch = hash then .next .swUri { r with complexUri := true }
     else if ch = plus then .next .swCheckUri { r with plusInUri := true }
     else if ch = nul then .fail .invalidRequest
     else .next .swCheckUri r) r p ch

/-- The spaces after a path. Any character that starts no protocol resumes the
path, and the turn is over with it. -/
def checkUriHttp09Move (r : Request) (p : ℤ) (ch : UInt8) : Move :=
  if ch = space then .next .swCheckUriHttp09 r
  else http09Move (.next .swCheckUri { r with spaceInUri := true }) r p ch

def uriMove (r : Request) (p : ℤ) (ch : UInt8) : Move :=
  if usual ch then .next .swUri r
  else uriEndMove .swHttp09
    (if ch = hash then .next .swUri { r with complexUri := true }
     else if ch = nul then .fail .invalidRequest
     else .next .swUri r) r p ch

def uriHttp09Move (r : Request) (p : ℤ) (ch : UInt8) : Move :=
  if ch = space then .next .swHttp09 r
  else http09Move (.next .swUri { r with spaceInUri := true }) r p ch

def firstMajorDigitMove (r : Request) (ch : UInt8) : Move :=
  if ch < 49 ∨ 57 < ch then .fail .invalidRequest
  else .next .swMajorDigit { r with httpMajor := ch.toUInt16 - 48 }

def majorDigitMove (r : Request) (ch : UInt8) : Move :=
  if ch = dot then .next .swFirstMinorDigit r
  else if isDigit ch then
    .next .swMajorDigit { r with httpMajor := r.httpMajor*10 + ch.toUInt16 - 48 }
  else .fail .invalidRequest

def firstMinorDigitMove (r : Request) (ch : UInt8) : Move :=
  if isDigit ch then .next .swMinorDigit { r with httpMinor := ch.toUInt16 - 48 }
  else .fail .invalidRequest

def minorDigitMove (r : Request) (ch : UInt8) : Move :=
  if ch = cr then .next .swAlmostDone r
  else if ch = lf then .done r
  else if ch = space then .next .swSpacesAfterDigit r
  else if isDigit ch then
    .next .swMinorDigit { r with httpMinor := r.httpMinor*10 + ch.toUInt16 - 48 }
  else .fail .invalidRequest

def spacesAfterDigitMove (r : Request) (ch : UInt8) : Move :=
  if ch = space then .next .swSpacesAfterDigit r
  else if ch = cr then .next .swAlmostDone r
  else if ch = lf then .done r
  else .fail .invalidRequest

def almostDoneMove (r : Request) (p : ℤ) (ch : UInt8) : Move :=
  if ch = lf then .done { r with requestEnd := p-1 } else .fail .invalidRequest

/-- One turn of the loop, at the character `p` points to. -/
def move (mem : Memory) (state : LineState) (r : Request) (p : ℤ) : Move :=
  match state with
  | .swStart => startMove r p (mem p)
  | .swMethod => methodMove mem r p (mem p)
  | .swSpacesBeforeUri => spacesBeforeUriMove r p (mem p)
  | .swSchema => schemaMove r p (mem p)
  | .swSchemaSlash => expectMove slash .swSchemaSlashSlash r (mem p)
  | .swSchemaSlashSlash => expectMove slash .swHost { r with hostStart := p+1 } (mem p)
  | .swHost => hostMove r p (mem p)
  | .swPort => portMove r p (mem p)
  | .swHostHttp09 => hostHttp09Move r p (mem p)
  | .swAfterSlashInUri => afterSlashInUriMove r p (mem p)
  | .swCheckUri => checkUriMove r p (mem p)
  | .swCheckUriHttp09 => checkUriHttp09Move r p (mem p)
  | .swUri => uriMove r p (mem p)
  | .swHttp09 => uriHttp09Move r p (mem p)
  | .swHttpH => expectMove 84 .swHttpHT r (mem p)
  | .swHttpHT => expectMove 84 .swHttpHTT r (mem p)
  | .swHttpHTT => expectMove 80 .swHttpHTTP r (mem p)
  | .swHttpHTTP => expectMove slash .swFirstMajorDigit r (mem p)
  | .swFirstMajorDigit => firstMajorDigitMove r (mem p)
  | .swMajorDigit => majorDigitMove r (mem p)
  | .swFirstMinorDigit => firstMinorDigitMove r (mem p)
  | .swMinorDigit => minorDigitMove r (mem p)
  | .swSpacesAfterDigit => spacesAfterDigitMove r (mem p)
  | .swAlmostDone => almostDoneMove r p (mem p)

inductive LineResult where
  | again (r : Request) (pos : ℤ)
  | ok (r : Request) (pos : ℤ)
  | error (error : LineError)
  deriving DecidableEq, Repr

def finishLine (r : Request) (p : ℤ) : LineResult :=
  let requestEnd := if r.requestEnd = 0 then p else r.requestEnd
  let version := r.httpMajor.toNat*1000 + r.httpMinor.toNat
  if version = 9 ∧ r.method ≠ .get then .error .invalid09Method
  else .ok { r with requestEnd := requestEnd, httpVersion := version, state := .swStart } (p+1)

/-- The loop over the `n` characters between `p` and `b->last`. -/
@[grind =] def parseLoop (mem : Memory) : LineState → Request → ℤ → ℕ → LineResult
  | state, r, p, 0 => .again { r with state := state } p
  | state, r, p, n+1 =>
    match move mem state r p with
    | .next state r => parseLoop mem state r (p+1) n
    | .done r => finishLine r p
    | .fail error => .error error

def ngxHttpParseRequestLine (mem : Memory) (r : Request) (pos last : ℤ) : LineResult :=
  parseLoop mem r.state r pos (last-pos).toNat

/-- Rule for the loop: what every turn keeps, and what a last turn makes of it,
holds of an accepted line. -/
theorem parse_loop_accepts (Inv : LineState → Request → ℤ → Prop) (Post : Request → Prop)
    (hnext : ∀ state r p state' r', Inv state r p → move mem state r p = .next state' r' → Inv
      state' r' (p+1))
    (hdone : ∀ state r p r', Inv state r p → move mem state r p = .done r' → Post r')
    (state : LineState) (r : Request) (p : ℤ) (n : ℕ) (hinv : Inv state r p) (r' : Request)
    (pos : ℤ) (h : parseLoop mem state r p n = .ok r' pos) :
    ∃ rd q, Post rd ∧ finishLine rd q = .ok r' pos := by
  induction n generalizing state r p with
  | zero => simp [parseLoop] at h
  | succ n ih =>
    rw [parseLoop] at h
    cases hm : move mem state r p with
    | next state1 r1 =>
      rw [hm] at h
      exact ih state1 r1 (p+1) (hnext _ _ _ _ _ hinv hm) h
    | done r1 =>
      rw [hm] at h
      exact ⟨r1,p,hdone _ _ _ _ hinv hm,h⟩
    | fail error =>
      rw [hm] at h
      simp at h

end Nginx.RequestLine
