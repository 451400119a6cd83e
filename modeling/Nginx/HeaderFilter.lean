import Nginx.HttpTimeWidth

/-!
# Header of a response

The first pass adds up how long the header will be, the second writes it. The conditions stand in
both; in between and while they run, parts of the request are changed. A list of headers is the list
of its elements here, and a location is one of these or an element of its own.
-/

set_option autoImplicit false

namespace Nginx.HeaderFilter
open Nginx.HttpTime Nginx.HttpTimeWidth

/-- The lines of 200 to 206, 301 to 307, 400 to 416 and 500 to 507; some are null strings. -/
def ngxHttpStatusLines : List (List UInt8) :=
  [[50,48,48,32,79,75],
   [50,48,49,32,67,114,101,97,116,101,100],
   [50,48,50,32,65,99,99,101,112,116,101,100],
   [],
   [50,48,52,32,78,111,32,67,111,110,116,101,110,116],
   [],
   [50,48,54,32,80,97,114,116,105,97,108,32,67,111,110,116,101,110,116],
   [51,48,49,32,77,111,118,101,100,32,80,101,114,109,97,110,101,110,116,108,
    121],
   [51,48,50,32,77,111,118,101,100,32,84,101,109,112,111,114,97,114,105,108,
    121],
   [51,48,51,32,83,101,101,32,79,116,104,101,114],
   [51,48,52,32,78,111,116,32,77,111,100,105,102,105,101,100],
   [],
   [],
   [51,48,55,32,84,101,109,112,111,114,97,114,121,32,82,101,100,105,114,101,
    99,116],
   [52,48,48,32,66,97,100,32,82,101,113,117,101,115,116],
   [52,48,49,32,85,110,97,117,116,104,111,114,105,122,101,100],
   [52,48,50,32,80,97,121,109,101,110,116,32,82,101,113,117,105,114,101,100],
   [52,48,51,32,70,111,114,98,105,100,100,101,110],
   [52,48,52,32,78,111,116,32,70,111,117,110,100],
   [52,48,53,32,78,111,116,32,65,108,108,111,119,101,100],
   [52,48,54,32,78,111,116,32,65,99,99,101,112,116,97,98,108,101],
   [],
   [52,48,56,32,82,101,113,117,101,115,116,32,84,105,109,101,45,111,117,116],
   [52,48,57,32,67,111,110,102,108,105,99,116],
   [52,49,48,32,71,111,110,101],
   [52,49,49,32,76,101,110,103,116,104,32,82,101,113,117,105,114,101,100],
   [52,49,50,32,80,114,101,99,111,110,100,105,116,105,111,110,32,70,97,105,
    108,101,100],
   [52,49,51,32,82,101,113,117,101,115,116,32,69,110,116,105,116,121,32,84,
    111,111,32,76,97,114,103,101],
   [],
   [52,49,53,32,85,110,115,117,112,112,111,114,116,101,100,32,77,101,100,105,
    97,32,84,121,112,101],
   [52,49,54,32,82,101,113,117,101,115,116,101,100,32,82,97,110,103,101,32,
    78,111,116,32,83,97,116,105,115,102,105,97,98,108,101],
   [53,48,48,32,73,110,116,101,114,110,97,108,32,83,101,114,118,101,114,32,
    69,114,114,111,114],
   [53,48,49,32,77,101,116,104,111,100,32,78,111,116,32,73,109,112,108,101,
    109,101,110,116,101,100],
   [53,48,50,32,66,97,100,32,71,97,116,101,119,97,121],
   [53,48,51,32,83,101,114,118,105,99,101,32,84,101,109,112,111,114,97,114,
    105,108,121,32,85,110,97,118,97,105,108,97,98,108,101],
   [53,48,52,32,71,97,116,101,119,97,121,32,84,105,109,101,45,111,117,116],
   [],
   [],
   [53,48,55,32,73,110,115,117,102,102,105,99,105,101,110,116,32,83,116,111,
    114,97,103,101]]

/-- `"HTTP/1.1 "` -/
def http11 : List UInt8 := [72,84,84,80,47,49,46,49,32]

def serverKey : List UInt8 := [83,101,114,118,101,114]

/-- `"nginx"` -/
def serverName : List UInt8 := [110,103,105,110,120]

/-- `"nginx/1.0.14"` -/
def nginxVer : List UInt8 := [110,103,105,110,120,47,49,46,48,46,49,52]

def dateKey : List UInt8 := [68,97,116,101]

/-- `"Content-Type"` -/
def typeKey : List UInt8 := [67,111,110,116,101,110,116,45,84,121,112,101]

/-- `"; charset="` -/
def charsetText : List UInt8 := [59,32,99,104,97,114,115,101,116,61]

def lengthKey : List UInt8 := [67,111,110,116,101,110,116,45,76,101,110,103,116,104]

def modifiedKey : List UInt8 := [76,97,115,116,45,77,111,100,105,102,105,101,100]

def locationKey : List UInt8 := [76,111,99,97,116,105,111,110]

def http : List UInt8 := [104,116,116,112]

def schemeEnd : List UInt8 := [58,47,47]

/-- `"Transfer-Encoding"` -/
def encodingKey : List UInt8 :=
  [84,114,97,110,115,102,101,114,45,69,110,99,111,100,105,110,103]

def chunkedText : List UInt8 := [99,104,117,110,107,101,100]

def connectionKey : List UInt8 := [67,111,110,110,101,99,116,105,111,110]

def keepAliveText : List UInt8 := [107,101,101,112,45,97,108,105,118,101]

def closeText : List UInt8 := [99,108,111,115,101]

def closedText : List UInt8 := [99,108,111,115,101,100]

def keepAliveKey : List UInt8 := [75,101,101,112,45,65,108,105,118,101]

/-- `"timeout="` -/
def timeoutText : List UInt8 := [116,105,109,101,111,117,116,61]

def varyKey : List UInt8 := [86,97,114,121]

def acceptEncoding : List UInt8 :=
  [65,99,99,101,112,116,45,69,110,99,111,100,105,110,103]

structure TableElt where
  hash : ℕ
  key : List UInt8
  value : List UInt8
  deriving DecidableEq, Repr

inductive Location where
  | listed (i : ℕ)
  | apart (elt : TableElt)
  deriving DecidableEq, Repr

structure HeadersOut where
  headers : List TableElt
  status : UInt64
  statusLine : List UInt8
  server : Bool
  date : Bool
  contentLength : Bool
  lastModified : Bool
  location : Option Location
  contentTypeLen : ℕ
  contentType : List UInt8
  charset : List UInt8
  contentLengthN : Int64
  lastModifiedTime : Int64
  deriving DecidableEq

structure Request where
  headerSent : Bool
  isMain : Bool
  httpVersion : ℕ
  head : Bool
  headerOnly : Bool
  keepalive : Bool
  chunked : Bool
  gzipVary : Bool
  /-- `headers_in.server` -/
  server : List UInt8
  headersOut : HeadersOut
  deriving DecidableEq

inductive Sockaddr where
  | inet (port : UInt16)
  | inet6 (port : UInt16)
  | unix
  deriving DecidableEq, Repr

structure Connection where
  ssl : Bool
  localSockaddr : Sockaddr
  /-- What `ngx_connection_local_sockaddr` finds: a text and the address then, or an error -/
  resolved : Option (List UInt8×Sockaddr)
  deriving DecidableEq, Repr

structure Conf where
  serverTokens : Bool
  serverNameInRedirect : Bool
  portInRedirect : Bool
  gzipVary : Bool
  keepaliveHeader : Int64
  serverName : List UInt8
  deriving DecidableEq

/-- `ngx_cached_http_time`, whose length is set once -/
abbrev CachedTime := {t : List UInt8 // t.length = 29}

/-- What the location points to; an index that is not in the list is a null pointer. -/
def HeadersOut.locationElt (h : HeadersOut) : Option TableElt :=
  match h.location with
  | none => none
  | some (.listed i) => h.headers[i]?
  | some (.apart elt) => some elt

def HeadersOut.setLocation (h : HeadersOut) (f : TableElt → TableElt) : HeadersOut :=
  match h.location with
  | none => h
  | some (.listed i) => { h with headers := h.headers.modify i f }
  | some (.apart elt) => { h with location := some (.apart (f elt)) }

/-! ## The first pass -/

def dropLastModified (h : HeadersOut) : HeadersOut :=
  if h.lastModifiedTime ≠ -1 ∧ h.status ≠ 200 ∧ h.status ≠ 206 ∧ h.status ≠ 304 then
    { h with lastModifiedTime := -1, lastModified := false }
  else h

def noContent (h : HeadersOut) : HeadersOut :=
  { h with contentType := [], lastModifiedTime := -1, lastModified := false,
           contentLength := false, contentLengthN := -1 }

/-- The index in the table, `NGX_HTTP_LAST_2XX` and the others being 207, 308, 417 and 508 -/
def statusIndex (status : ℕ) : Option ℕ :=
  if 200 ≤ status ∧ status < 207 then some (status-200)
  else if 301 ≤ status ∧ status < 308 then some (status-301+7)
  else if 400 ≤ status ∧ status < 417 then some (status-400+14)
  else if 500 ≤ status ∧ status < 508 then some (status-500+31)
  else none

/-- The request, `status_line` and what is added to the length -/
def statusPass (r : Request) : Request×Option (List UInt8)×ℕ :=
  let h := r.headersOut
  if h.statusLine ≠ [] then (r,some h.statusLine,h.statusLine.length)
  else
    match statusIndex h.status.toNat with
    | some i =>
      let line := ngxHttpStatusLines.getD i []
      let r :=
        if h.status = 204 then { r with headerOnly := true, headersOut := noContent h }
        else if h.status = 304 then { r with headerOnly := true }
        else r
      (r,some line,line.length)
    | none => (r,none,20)

def hasCharset (h : HeadersOut) : Prop := h.contentTypeLen = h.contentType.length ∧ h.charset ≠ []

instance (h : HeadersOut) : Decidable (hasCharset h) := inferInstanceAs (Decidable (_ ∧ _))

/-- The headers up to `Last-Modified` -/
def fieldsLen (clcf : Conf) (h : HeadersOut) : ℕ :=
  (if ¬h.server then serverKey.length+2+(if clcf.serverTokens then nginxVer.length
    else serverName.length)+2 else 0)+
  (if ¬h.date then dateKey.length+2+29+2 else 0)+
  (if h.contentType ≠ [] then typeKey.length+2+h.contentType.length+2+
    (if hasCharset h then charsetText.length+h.charset.length else 0) else 0)+
  (if ¬h.contentLength ∧ h.contentLengthN ≥ 0 then lengthKey.length+2+20+2 else 0)+
  (if ¬h.lastModified ∧ h.lastModifiedTime ≠ -1 then modifiedKey.length+2+29+2 else 0)

def HeadersOut.isRelative (h : HeadersOut) : Bool :=
  match h.locationElt with
  | some elt => elt.value.head? = some 47
  | none => false

def hostOf (r : Request) (clcf : Conf) (c : Connection) : Option (List UInt8×Sockaddr) :=
  if clcf.serverNameInRedirect then some (clcf.serverName,c.localSockaddr)
  else if r.server ≠ [] then some (r.server,c.localSockaddr)
  else c.resolved

def Sockaddr.port : Sockaddr → ℕ
  | .inet port => port.toNat
  | .inet6 port => port.toNat
  | .unix => 0

def redirectPort (clcf : Conf) (c : Connection) (port : ℕ) : ℕ :=
  if clcf.portInRedirect then
    if c.ssl then (if port = 443 then 0 else port) else (if port = 80 then 0 else port)
  else 0

/-- The request, the host (`host.data` is null without one), the port and what is added to the
length; `none` is an error. -/
def locationPass (r : Request) (clcf : Conf) (c : Connection) :
    Option (Request×Option (List UInt8)×ℕ×ℕ) :=
  if r.headersOut.isRelative then
    let h := r.headersOut.setLocation fun elt => { elt with hash := 0 }
    match hostOf r clcf c with
    | none => none
    | some (host,sockaddr) =>
      let port := redirectPort clcf c sockaddr.port
      let value := (h.locationElt.map TableElt.value).getD []
      let len := locationKey.length+2+http.length+1+schemeEnd.length+host.length+value.length+2+
        (if port ≠ 0 then 6 else 0)
      some ({ r with headersOut := h },some host,port,len)
  else some (r,none,0,0)

def flagsLen (r : Request) (clcf : Conf) : ℕ :=
  (if r.chunked then encodingKey.length+2+chunkedText.length+2 else 0)+
  (if r.keepalive then connectionKey.length+2+keepAliveText.length+2+
      (if clcf.keepaliveHeader ≠ 0 then keepAliveKey.length+2+timeoutText.length+20+2 else 0)
    else connectionKey.length+2+closedText.length+2)+
  (if r.gzipVary ∧ clcf.gzipVary then varyKey.length+2+acceptEncoding.length+2 else 0)

@[grind =] def headersLen : List TableElt → ℕ
  | [] => 0
  | elt::part =>
    if elt.hash = 0 then headersLen part
    else elt.key.length+2+elt.value.length+2+headersLen part

structure Locals where
  r : Request
  len : ℕ
  statusLine : Option (List UInt8)
  host : Option (List UInt8)
  port : ℕ

def lengthPass (r : Request) (clcf : Conf) (c : Connection) : Option Locals :=
  let r := { r with headersOut := dropLastModified r.headersOut }
  let (r,statusLine,statusLen) := statusPass r
  let len := http11.length+2+2+statusLen+fieldsLen clcf r.headersOut
  match locationPass r clcf c with
  | none => none
  | some (r,host,port,locationLen) =>
    let len := len+locationLen+flagsLen r clcf
    let r := { r with gzipVary := r.gzipVary && clcf.gzipVary }
    some ⟨r,len+headersLen r.headersOut.headers,statusLine,host,port⟩

/-! ## The second pass -/

def headerLine (key value : List UInt8) : List UInt8 := key++[58,32]++value++[13,10]

/-- `ngx_http_time`, the year being an `int` -/
def ngxHttpTime (t : ℤ) : List UInt8 :=
  let tm := ngxGmtime t
  week.getD tm.wday []++[44,32]++sprintfNum 48 2 tm.mday++[32]++months.getD (tm.mon-1) []++[32]++
    sprintfInt 32 4 (yearInt tm.year)++[32]++sprintfNum 48 2 tm.hour++[58]++
    sprintfNum 48 2 tm.min++[58]++sprintfNum 48 2 tm.sec++[32,71,77,84]

def writeType (h : HeadersOut) : List UInt8×HeadersOut :=
  if h.contentType ≠ [] then
    let value := h.contentType++(if hasCharset h then charsetText++h.charset else [])
    (headerLine typeKey value,if hasCharset h then { h with contentType := value } else h)
  else ([],h)

def writeLocation (c : Connection) (host : Option (List UInt8)) (port : ℕ) (h : HeadersOut) :
    List UInt8×HeadersOut :=
  match host with
  | none => ([],h)
  | some host =>
    let path := (h.locationElt.map TableElt.value).getD []
    let value := http++(if c.ssl then [115] else [])++schemeEnd++host++
      (if port ≠ 0 then 58::sprintfNum 32 0 port else [])++path
    (headerLine locationKey value,
      h.setLocation fun elt => { elt with value := value, key := locationKey })

@[grind =] def writeHeaders : List TableElt → List UInt8
  | [] => []
  | elt::part =>
    if elt.hash = 0 then writeHeaders part
    else headerLine elt.key elt.value++writeHeaders part

def writeFlags (r : Request) (clcf : Conf) : List UInt8 :=
  (if r.chunked then headerLine encodingKey chunkedText else [])++
  (if r.keepalive then headerLine connectionKey keepAliveText++
      (if clcf.keepaliveHeader ≠ 0 then
        headerLine keepAliveKey (timeoutText++sprintfInt 32 0 clcf.keepaliveHeader.toInt) else [])
    else headerLine connectionKey closeText)++
  (if r.gzipVary then headerLine varyKey acceptEncoding else [])

def writePass (now : CachedTime) (clcf : Conf) (c : Connection) (v : Locals) :
    List UInt8×Request :=
  let h := v.r.headersOut
  let out := http11++v.statusLine.getD (sprintfNum 32 0 h.status.toNat)++[13,10]
  let out := out++(if ¬h.server then
    headerLine serverKey (if clcf.serverTokens then nginxVer else serverName) else [])
  let out := out++(if ¬h.date then headerLine dateKey now.1 else [])
  let (type,h) := writeType h
  let out := out++type
  let out := out++(if ¬h.contentLength ∧ h.contentLengthN ≥ 0 then
    headerLine lengthKey (sprintfInt 32 0 h.contentLengthN.toInt) else [])
  let out := out++(if ¬h.lastModified ∧ h.lastModifiedTime ≠ -1 then
    headerLine modifiedKey (ngxHttpTime h.lastModifiedTime.toInt) else [])
  let (location,h) := writeLocation c v.host v.port h
  let out := out++location++writeFlags v.r clcf++writeHeaders h.headers++[13,10]
  (out,{ v.r with headersOut := h })

inductive Result where
  | ok (r : Request)
  | error
  /-- The length of the buffer, the bytes written to it and the request -/
  | sent (len : ℕ) (out : List UInt8) (r : Request)

def ngxHttpHeaderFilter (now : CachedTime) (clcf : Conf) (c : Connection) (r : Request) : Result :=
  if r.headerSent then .ok r
  else
    let r := { r with headerSent := true }
    if ¬r.isMain then .ok r
    else if r.httpVersion < 1000 then .ok r
    else
      let r := if r.head then { r with headerOnly := true } else r
      match lengthPass r clcf c with
      | none => .error
      | some v =>
        let (out,r) := writePass now clcf c v
        .sent v.len out r

end Nginx.HeaderFilter
