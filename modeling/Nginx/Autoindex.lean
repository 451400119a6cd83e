import Nginx.GzipAccept
import Nginx.HttpTimeWidth
import Nginx.StaticLocations
import Nginx.UriEscape
import Nginx.Utf8Text

/-!
# Listing of a directory

The entries of a directory are read, with the lengths that their names take when they are escaped.
The length of the page is a sum over them; the page is then written into a buffer of that length,
which stands at the address 0 here. What is refused before the directory is read, and its errors,
write nothing and are left out.
-/

set_option autoImplicit false

namespace Nginx.Autoindex
open Nginx.CharsetRecode Nginx.GzipAccept Nginx.HttpTime Nginx.HttpTimeWidth Nginx.MemoryRange
open Nginx.StaticLocations Nginx.UriEscape Nginx.Utf8Text

/-- `"<html>" CRLF "<head><title>Index of "` -/
def title : List UInt8 :=
  [60,104,116,109,108,62,13,10,60,104,101,97,100,62,60,116,105,116,108,101,
   62,73,110,100,101,120,32,111,102,32]

/-- `"</title></head>" CRLF "<body bgcolor=\"white\">" CRLF "<h1>Index of "` -/
def header : List UInt8 :=
  [60,47,116,105,116,108,101,62,60,47,104,101,97,100,62,13,10,60,98,111,100,
   121,32,98,103,99,111,108,111,114,61,34,119,104,105,116,101,34,62,13,10,
   60,104,49,62,73,110,100,101,120,32,111,102,32]

/-- `"</body>" CRLF "</html>" CRLF` -/
def tail : List UInt8 :=
  [60,47,98,111,100,121,62,13,10,60,47,104,116,109,108,62,13,10]

/-- `"</h1>"` -/
def h1End : List UInt8 := [60,47,104,49,62]
/-- `"<hr><pre><a href=\"../\">../</a>" CRLF` -/
def parentLink : List UInt8 :=
  [60,104,114,62,60,112,114,101,62,60,97,32,104,114,101,102,61,34,46,46,47,
   34,62,46,46,47,60,47,97,62,13,10]

/-- `"</pre><hr>"` -/
def preEnd : List UInt8 := [60,47,112,114,101,62,60,104,114,62]
/-- `"<a href=\""` -/
def hrefStart : List UInt8 := [60,97,32,104,114,101,102,61,34]
/-- `"\">"` -/
def hrefEnd : List UInt8 := [34,62]
/-- `"</a>"` -/
def linkEnd : List UInt8 := [60,47,97,62]
/-- `"..&gt;</a>"` -/
def cutEnd : List UInt8 := [46,46,38,103,116,59,60,47,97,62]

abbrev nameLen : ℕ := 50

def htmlEntity (ch : UInt8) : List UInt8 :=
  if ch = 60 then [38,108,116,59]
  else if ch = 62 then [38,103,116,59]
  else if ch = 38 then [38,97,109,112,59]
  else if ch = 34 then [38,113,117,111,116,59]
  else [ch]

/-- `ngx_escape_html` without a place to write to: what is added to the length -/
@[grind =] def ngxEscapeHtmlCount : List UInt8 → ℕ
  | [] => 0
  | ch::src =>
    (if ch = 60 then 3 else if ch = 62 then 3 else if ch = 38 then 4 else if ch = 34 then 5 else 0)+
      ngxEscapeHtmlCount src

@[grind =] def ngxEscapeHtml : List UInt8 → List UInt8
  | [] => []
  | ch::src => htmlEntity ch++ngxEscapeHtml src

/-- What `readdir` and `stat` say of a file. A name ends with a zero byte in memory. -/
structure DirEntry where
  name : List UInt8
  dir : Bool
  mtime : Int64
  size : Int64
  terminated : 0 ∉ name
  addressable : name.length+1 < 2^64

structure Entry where
  name : List UInt8
  utfLen : ℕ
  escape : ℕ
  escapeHtml : ℕ
  dir : Bool
  mtime : Int64
  size : Int64
  deriving DecidableEq

structure LocConf where
  localtime : Bool
  exactSize : Bool
  deriving DecidableEq, Repr

structure Request where
  uri : List UInt8
  charset : List UInt8
  deriving DecidableEq, Repr

/-- `"utf-8"`, in either case -/
def isUtf8 (charset : List UInt8) : Bool :=
  charset.length = 5 ∧ ngxStrncasecmp charset [117,116,102,45,56] = some true

def readEntry (utf8 : Bool) (d : DirEntry) : Except Fault Entry := do
  let utfLen ← if utf8 then ngxUtf8Length (d.name++[0]) d.name.length else .ok d.name.length
  .ok ⟨d.name,utfLen,2*ngxEscapeUriCount .uriComponent d.name,ngxEscapeHtmlCount d.name,d.dir,
    d.mtime,d.size⟩

def listed (ds : List DirEntry) : List DirEntry := ds.filter fun d => d.name.head? ≠ some 46

def readEntries (utf8 : Bool) (ds : List DirEntry) : Except Fault (List Entry) :=
  (listed ds).mapM (readEntry utf8)

/-- What is added for an entry; the date is that of `" 28-Sep-1970 12:00 "`. -/
def entryLen (e : Entry) : ℕ :=
  hrefStart.length+(e.name.length+e.escape)+1+hrefEnd.length+(e.name.length-e.utfLen)+
    e.escapeHtml+(nameLen+(4+1-2))+linkEnd.length+19+20+2

def pageLen (uri : List UInt8) (es : List Entry) : ℕ :=
  title.length+(uri.length+ngxEscapeHtmlCount uri)+header.length+
    (uri.length+ngxEscapeHtmlCount uri)+h1End.length+parentLink.length+preEnd.length+tail.length+
    (es.map entryLen).sum

def ngxHttpAutoindexCmpEntries (first second : Entry) : ℤ :=
  if first.dir ∧ ¬second.dir then -1
  else if ¬first.dir ∧ second.dir then 1
  else ngxStrcmp first.name second.name

def sortEntries (es : List Entry) : List Entry :=
  if es.length > 1 then es.mergeSort fun a b => ngxHttpAutoindexCmpEntries a b ≤ 0 else es

/-! ## Writing -/

structure Out where
  mem : ℕ → UInt8
  last : ℕ

def Out.put (b : Out) (bs : List UInt8) : Out := ⟨writeRange b.mem b.last bs,b.last+bs.length⟩

@[grind =] def cpystrnFrom : ℕ → Out → List UInt8 → Except Fault Out
  | 0, b, _ => .ok ⟨writeRange b.mem b.last [0],b.last⟩
  | _+1, _, [] => .error .overread
  | n+1, b, c::src =>
    if c = 0 then .ok ⟨writeRange b.mem b.last [c],b.last⟩ else cpystrnFrom n (b.put [c]) src

def ngxCpystrn (b : Out) (src : List UInt8) : ℕ → Except Fault Out
  | 0 => .ok b
  | n+1 => cpystrnFrom n b src

def writeHref (b : Out) (e : Entry) : Out :=
  let b := b.put hrefStart
  let b :=
    if e.escape ≠ 0 then
      ⟨writeRange b.mem b.last (ngxEscapeUri .uriComponent e.name),
        b.last+(e.name.length+e.escape)⟩
    else b.put e.name
  let b := if e.dir then b.put [47] else b
  b.put hrefEnd

/-- The name that is shown, and the variable `last` -/
def writeName (b : Out) (e : Entry) : Except Fault (Out×ℕ) :=
  if e.name.length ≠ e.utfLen then do
    let charLen := if e.utfLen > nameLen then nameLen-3+1 else nameLen+1
    let (mem,dst) ← ngxUtf8Cpystrn b.mem b.last (e.name++[0]) charLen (e.name.length+1)
    let b : Out :=
      if e.escapeHtml ≠ 0 then Out.put ⟨mem,b.last⟩ (ngxEscapeHtml (e.name.take (dst-b.last)))
      else ⟨mem,dst⟩
    .ok (b,b.last)
  else if e.escapeHtml ≠ 0 then
    let charLen := if e.utfLen > nameLen then nameLen-3 else e.utfLen
    let b := b.put (ngxEscapeHtml (e.name.take charLen))
    .ok (b,b.last)
  else do
    let b ← ngxCpystrn b (e.name++[0]) (nameLen+1)
    .ok (b,b.last-3)

def writeLinkEnd (b : Out) (last : ℕ) (e : Entry) : Out :=
  if e.utfLen > nameLen then Out.put ⟨b.mem,last⟩ cutEnd
  else
    let slash := e.dir && decide (nameLen-e.utfLen > 0)
    let b := if slash then b.put [47] else b
    let len := if slash then e.utfLen+1 else e.utfLen
    (b.put linkEnd).put (List.replicate (nameLen-len) 32)

def shownTime (alcf : LocConf) (gmtoff : ℤ) (e : Entry) : ℤ :=
  e.mtime.toInt+gmtoff*60*(if alcf.localtime then 1 else 0)

def yearText (alcf : LocConf) (gmtoff : ℤ) (e : Entry) : List UInt8 :=
  sprintfInt 32 0 (yearInt (ngxGmtime (shownTime alcf gmtoff e)).year)

/-- `"%02d-%s-%d %02d:%02d "` -/
def dateText (alcf : LocConf) (gmtoff : ℤ) (e : Entry) : List UInt8 :=
  let tm := ngxGmtime (shownTime alcf gmtoff e)
  sprintfNum 48 2 tm.mday++[45]++months.getD (tm.mon-1) []++[45]++yearText alcf gmtoff e++[32]++
    sprintfNum 48 2 tm.hour++[58]++sprintfNum 48 2 tm.min++[32]

def rounded (length unit : ℤ) : ℤ :=
  if length%unit > unit/2-1 then length/unit+1 else length/unit

def sizeText (alcf : LocConf) (e : Entry) : List UInt8 :=
  let length := e.size.toInt
  if alcf.exactSize then
    if e.dir then List.replicate 18 32++[45] else sprintfInt 32 19 length
  else if e.dir then List.replicate 6 32++[45]
  else if length > 1024*1024*1024-1 then sprintfInt 32 6 (rounded length (1024*1024*1024))++[71]
  else if length > 1024*1024-1 then sprintfInt 32 6 (rounded length (1024*1024))++[77]
  else if length > 9999 then sprintfInt 32 6 (rounded length 1024)++[75]
  else [32]++sprintfInt 32 6 length

def writeEntry (alcf : LocConf) (gmtoff : ℤ) (b : Out) (e : Entry) : Except Fault Out := do
  let (b,last) ← writeName (writeHref b e) e
  let b := (writeLinkEnd b last e).put [32]
  .ok (((b.put (dateText alcf gmtoff e)).put (sizeText alcf e)).put [13,10])

def ngxHttpAutoindexHandler (r : Request) (alcf : LocConf) (gmtoff : ℤ) (ds : List DirEntry)
    (mem : ℕ → UInt8) : Except Fault (ℕ×Out) := do
  let es ← readEntries (isUtf8 r.charset) ds
  let b := Out.put ⟨mem,0⟩ title
  let b :=
    if ngxEscapeHtmlCount r.uri ≠ 0 then
      ((b.put (ngxEscapeHtml r.uri)).put header).put (ngxEscapeHtml r.uri)
    else ((b.put r.uri).put header).put r.uri
  let b ← (sortEntries es).foldlM (writeEntry alcf gmtoff) ((b.put h1End).put parentLink)
  .ok (pageLen r.uri es,(b.put preEnd).put tail)

end Nginx.Autoindex
