import Mathlib.Algebra.Order.Ring.Int

/-!
# Reading the tokens of a configuration file

The file is read through a buffer. When its bytes are used up, those from the start of the
current word on move to its front and the rest is filled from the file. What one byte does
depends on the flags alone; the bytes of a word are in the buffer when it ends, and its
escapes are decoded on the way into its own memory. Reads of the file succeed.
-/

set_option autoImplicit false

namespace Nginx.ConfRead

def ngxConfBuffer : ℕ := 4096

abbrev lf : UInt8 := 10
abbrev cr : UInt8 := 13
abbrev tab : UInt8 := 9
abbrev space : UInt8 := 32
abbrev doubleQuote : UInt8 := 34
abbrev sharp : UInt8 := 35
abbrev dollar : UInt8 := 36
abbrev singleQuote : UInt8 := 39
abbrev closeParen : UInt8 := 41
abbrev semicolon : UInt8 := 59
abbrev backslash : UInt8 := 92
abbrev letterN : UInt8 := 110
abbrev letterR : UInt8 := 114
abbrev letterT : UInt8 := 116
abbrev openBrace : UInt8 := 123
abbrev closeBrace : UInt8 := 125

inductive Message where
  | unexpectedEnd
  | tooLongParameter (started : List UInt8)
  | missingTerminating (ch : UInt8)
  | unexpected (ch : UInt8)
  deriving DecidableEq, Repr

inductive Rc where
  | error (message : Message) (line : ℕ)
  | ok
  | blockStart
  | blockDone
  | fileDone
  deriving DecidableEq, Repr

/-- An argument: its memory up to the NUL, its length and the size of the memory. -/
structure Word where
  data : List UInt8
  len : ℕ
  size : ℕ
  deriving DecidableEq, Repr

/-- The variables of `ngx_conf_read_token` that a byte changes, and the line of the file;
`found` is 0 whenever a byte is read. -/
structure Scan where
  needSpace : Bool
  lastSpace : Bool
  sharpComment : Bool
  inVariable : Bool
  quoted : Bool
  sQuoted : Bool
  dQuoted : Bool
  startLine : ℕ
  line : ℕ
  deriving DecidableEq, Repr

def initScan (line : ℕ) : Scan := ⟨false,true,false,false,false,false,false,line,line⟩

/-- What becomes of `start`: it is kept, or set to the byte just read or past it. -/
inductive Start where
  | keep
  | here
  | past
  deriving DecidableEq, Repr

/-- `start` behind the byte before `pos`. -/
def Start.place (start pos : ℕ) : Start → ℕ
  | .keep => start
  | .here => pos-1
  | .past => pos

/-- What the loop does with one byte: whether it ends a word, and what is returned. -/
structure Turn where
  scan : Scan
  start : Start
  word : Bool
  rc : Option Rc
  deriving DecidableEq, Repr

def isBlank (ch : UInt8) : Bool := ch = space || ch = tab || ch = cr || ch = lf

def atWord (s : Scan) (nelts : ℕ) (ch : UInt8) : Turn :=
  if isBlank ch then ⟨s,.keep,false,none⟩
  else
    let s := { s with startLine := s.line }
    if ch = semicolon ∨ ch = openBrace then
      if nelts = 0 then ⟨s,.here,false,some (.error (.unexpected ch) s.line)⟩
      else ⟨s,.here,false,some (if ch = openBrace then .blockStart else .ok)⟩
    else if ch = closeBrace then
      if nelts ≠ 0 then ⟨s,.here,false,some (.error (.unexpected ch) s.line)⟩
      else ⟨s,.here,false,some .blockDone⟩
    else if ch = sharp then ⟨{ s with sharpComment := true },.here,false,none⟩
    else if ch = backslash then
      ⟨{ s with quoted := true, lastSpace := false },.here,false,none⟩
    else if ch = doubleQuote then
      ⟨{ s with dQuoted := true, lastSpace := false },.past,false,none⟩
    else if ch = singleQuote then
      ⟨{ s with sQuoted := true, lastSpace := false },.past,false,none⟩
    else ⟨{ s with lastSpace := false },.here,false,none⟩

def inWord (s : Scan) (ch : UInt8) : Turn :=
  if ch = openBrace ∧ s.inVariable = true then ⟨s,.keep,false,none⟩
  else
    let s := { s with inVariable := false }
    if ch = backslash then ⟨{ s with quoted := true },.keep,false,none⟩
    else if ch = dollar then ⟨{ s with inVariable := true },.keep,false,none⟩
    else if s.dQuoted then
      if ch = doubleQuote then
        ⟨{ s with dQuoted := false, needSpace := true },.keep,true,none⟩
      else ⟨s,.keep,false,none⟩
    else if s.sQuoted then
      if ch = singleQuote then
        ⟨{ s with sQuoted := false, needSpace := true },.keep,true,none⟩
      else ⟨s,.keep,false,none⟩
    else if isBlank ch ∨ ch = semicolon ∨ ch = openBrace then
      ⟨{ s with lastSpace := true },.keep,true,
        if ch = semicolon then some .ok
        else if ch = openBrace then some .blockStart else none⟩
    else ⟨s,.keep,false,none⟩

/-- One turn of the loop of `ngx_conf_read_token` on the byte `ch`. -/
def readByte (s : Scan) (nelts : ℕ) (ch : UInt8) : Turn :=
  let s := if ch = lf then { s with line := s.line+1, sharpComment := false } else s
  if s.sharpComment then ⟨s,.keep,false,none⟩
  else if s.quoted then ⟨{ s with quoted := false },.keep,false,none⟩
  else if s.needSpace then
    if isBlank ch then ⟨{ s with lastSpace := true, needSpace := false },.keep,false,none⟩
    else if ch = semicolon then ⟨s,.keep,false,some .ok⟩
    else if ch = openBrace then ⟨s,.keep,false,some .blockStart⟩
    else if ch = closeParen then
      atWord { s with lastSpace := true, needSpace := false } nelts ch
    else ⟨s,.keep,false,some (.error (.unexpected ch) s.line)⟩
  else if s.lastSpace then atWord s nelts ch
  else inWord s ch

/-- The loop that stores a word: the bytes from `src` on, of which `n` are before the one
that ends the word. -/
@[grind =] def storeLoop : List UInt8 → ℕ → List UInt8
  | [], _ => []
  | _::_, 0 => []
  | [c], _+1 => [c]
  | c::d::src, n+1 =>
    if c = backslash then
      if d = doubleQuote ∨ d = singleQuote ∨ d = backslash then d::storeLoop src (n-1)
      else if d = letterT then tab::storeLoop src (n-1)
      else if d = letterR then cr::storeLoop src (n-1)
      else if d = letterN then lf::storeLoop src (n-1)
      else c::storeLoop (d::src) n
    else c::storeLoop (d::src) n

/-- A word stored, from the bytes between `start` and `b->pos`. -/
def storeWord (held : List UInt8) : Word :=
  let dst := storeLoop held (held.length-1)
  ⟨dst++[0],dst.length,held.length+1⟩

/-- `ngx_conf_file_t`: `buf` is the memory from `b->start` to `b->last`, `pos` is in it, and
`content` is what the file has. -/
structure ConfFile where
  content : List UInt8
  offset : ℕ
  buf : List UInt8
  pos : ℕ
  line : ℕ
  deriving DecidableEq, Repr

def tooLong (s : Scan) (started : List UInt8) : Message :=
  if s.dQuoted then .missingTerminating doubleQuote
  else if s.sQuoted then .missingTerminating singleQuote
  else .tooLongParameter (started.take 10)

/-- The end of the buffer: what is returned, or `start` and the buffer filled. -/
def refill (s : Scan) (start nelts : ℕ) (cf : ConfFile) : Except Rc (ℕ × ConfFile) :=
  if cf.pos ≥ cf.buf.length then
    if cf.offset ≥ cf.content.length then
      if nelts > 0 then .error (.error .unexpectedEnd s.line) else .error .fileDone
    else
      let len := cf.pos-start
      if len = ngxConfBuffer then
        .error (.error (tooLong s (cf.buf.drop start)) s.startLine)
      else
        let size := min (cf.content.length-cf.offset) (ngxConfBuffer-len)
        .ok (0, { cf with
          buf := (cf.buf.drop start).take len++(cf.content.drop cf.offset).take size
          pos := len
          offset := cf.offset+size })
  else .ok (start, cf)

structure Call where
  rc : Rc
  args : List Word
  deriving DecidableEq, Repr

def Rc.line (line : ℕ) : Rc → ℕ
  | .error _ l => l
  | _ => line

/-- The loop of `ngx_conf_read_token`; `none` is no result after `fuel` turns. -/
@[grind =] def readLoop : ℕ → Scan → ℕ → List Word → ConfFile → Option (Call × ConfFile)
  | 0, _, _, _, _ => none
  | fuel+1, s, start, args, cf =>
    match refill s start args.length cf with
    | .error rc => some (⟨rc,args⟩, { cf with line := rc.line s.line })
    | .ok (start, cf) =>
      match cf.buf[cf.pos]? with
      | none => none
      | some ch =>
        let t := readByte s args.length ch
        let cf := { cf with pos := cf.pos+1 }
        let start := t.start.place start cf.pos
        let args := if t.word then args++[storeWord ((cf.buf.take cf.pos).drop start)]
          else args
        match t.rc with
        | some rc => some (⟨rc,args⟩, { cf with line := t.scan.line })
        | none => readLoop fuel t.scan start args cf

def bytesLeft (cf : ConfFile) : ℕ := cf.buf.length-cf.pos+(cf.content.length-cf.offset)

def ngxConfReadToken (cf : ConfFile) : Option (Call × ConfFile) :=
  readLoop (bytesLeft cf+1) (initScan cf.line) cf.pos [] cf

def Rc.stops : Rc → Bool
  | .error _ _ => true
  | .fileDone => true
  | _ => false

/-- The calls that read a file, at most `n` of them. -/
@[grind =] def confCalls : ℕ → ConfFile → Option (List Call)
  | 0, _ => none
  | n+1, cf => (ngxConfReadToken cf).bind fun r =>
    if r.1.rc.stops then some [r.1] else (confCalls n r.2).map (r.1::·)

/-- A file that has been opened by `ngx_conf_parse`. -/
def openConf (content : List UInt8) : ConfFile := ⟨content,0,[],0,1⟩

end Nginx.ConfRead
