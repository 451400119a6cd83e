import Mathlib.Data.List.Basic
import Mathlib.Algebra.Order.Ring.Int

/-!
# The handlers and timers of an upstream request

A connection to an upstream has a timer for each direction, and the request two handlers that
events are given to. What calls into the kernel, the peers and the parser return is an answer,
with one for each attempt to connect that a call may lead to.
-/

set_option autoImplicit false

namespace Nginx.UpstreamNext

inductive FtType where
  | error
  | timeout
  | invalidHeader
  | http500
  | http502
  | http503
  | http504
  | http404
  | nolive
  deriving DecidableEq, Repr

inductive Ssl where
  | none
  | handshaking
  | done
  deriving DecidableEq, Repr

structure Conn where
  writeTimer : Bool
  writeTimedout : Bool
  readTimer : Bool
  readTimedout : Bool
  ssl : Ssl
  deriving DecidableEq, Repr

inductive ReadHandler where
  | processHeader
  | processBodyInMemory
  | processNonBufferedUpstream
  | processUpstream
  deriving DecidableEq, Repr

inductive WriteHandler where
  | sendRequestHandler
  | dummyHandler
  deriving DecidableEq, Repr

/-- `connects` has the value of `u->header_sent` at each call of `ngx_http_upstream_connect`. -/
structure State where
  connection : Option Conn
  requestSent : Bool
  headerSent : Bool
  readHandler : ReadHandler
  writeHandler : WriteHandler
  tries : ℕ
  cached : Bool
  finalized : Bool
  connects : List Bool
  deriving DecidableEq, Repr

structure Conf where
  ssl : Bool
  nextUpstream : FtType → Bool
  buffering : Bool

/-- `peer.tries` as `peer.free` leaves it, and `r->connection->error` -/
structure NextAnswer where
  tries : ℕ
  clientError : Bool
  deriving DecidableEq, Repr

def finalizeRequest (s : State) : State := { s with connection := none, finalized := true }

def givesUp (conf : Conf) (a : NextAnswer) (ft : FtType) (s : State) : Bool :=
  a.clientError || !(s.cached && ft = .error) &&
    ((if ft = .nolive then s.tries else a.tries) = 0 || !conf.nextUpstream ft)

/-- `ngx_http_upstream_next`; a stale answer from the cache finalizes the request too. -/
def upstreamNext (conf : Conf) (connect : State → Option State) (a : NextAnswer) (ft : FtType)
    (s : State) : Option State :=
  if givesUp conf a ft s then some (finalizeRequest s)
  else connect { s with
    tries := if ft = .nolive then s.tries else a.tries, connection := none }

structure Response where
  status : ℕ
  /-- a stale response is sent, an error intercepted, or `ngx_http_upstream_process_headers` ends
  the request -/
  handled : Bool
  subrequestInMemory : Bool
  /-- `ngx_http_send_header` fails, or only the header is sent -/
  headerEnds : Bool
  /-- the request is not finalized in what follows -/
  goesOn : Bool
  deriving DecidableEq, Repr

inductive HeaderRead where
  | again (handled : Bool)
  | closed
  | invalidHeader
  | error
  | ok (response : Response)
  deriving DecidableEq, Repr

structure HeaderAnswer where
  testConnect : Bool
  alloc : Bool
  read : HeaderRead
  next : NextAnswer
  deriving DecidableEq, Repr

def ngxHttpUpstreamNextErrors : List (ℕ × FtType) :=
  [(500, .http500), (502, .http502), (503, .http503), (504, .http504), (404, .http404)]

/-- The error of a status for which `ngx_http_upstream_test_next` tries the next upstream -/
def testNext (conf : Conf) (s : State) (status : ℕ) : Option FtType :=
  ((ngxHttpUpstreamNextErrors.find? fun e => e.1 = status).map Prod.snd).filter fun ft =>
    s.tries > 1 && conf.nextUpstream ft

def sendResponse (conf : Conf) (a : Response) (s : State) : State :=
  if a.headerEnds then finalizeRequest s
  else
    let s := { s with headerSent := true }
    if a.goesOn then
      { s with readHandler :=
          if conf.buffering then .processUpstream else .processNonBufferedUpstream }
    else finalizeRequest s

def processHeader (conf : Conf) (connect : State → Option State) (a : HeaderAnswer) (c : Conn)
    (s : State) : Option State :=
  if c.readTimedout then upstreamNext conf connect a.next .timeout s
  else if !s.requestSent && !a.testConnect then upstreamNext conf connect a.next .error s
  else if !a.alloc then some (finalizeRequest s)
  else
    match a.read with
    | .again handled => some (if handled then s else finalizeRequest s)
    | .closed => upstreamNext conf connect a.next .error s
    | .invalidHeader => upstreamNext conf connect a.next .invalidHeader s
    | .error => some (finalizeRequest s)
    | .ok r =>
      match if r.status > 300 then testNext conf s r.status else none with
      | some ft => upstreamNext conf connect a.next ft s
      | none =>
        if r.handled then some (finalizeRequest s)
        else if r.subrequestInMemory then
          some (if r.goesOn then { s with readHandler := .processBodyInMemory }
            else finalizeRequest s)
        else some (sendResponse conf r s)

inductive OutputRc where
  | ok
  | again
  | error
  deriving DecidableEq, Repr

structure SendAnswer where
  testConnect : Bool
  output : OutputRc
  tcpPush : Bool
  readReady : Bool
  handled : Bool
  header : HeaderAnswer
  next : NextAnswer
  deriving DecidableEq, Repr

def sendRequest (conf : Conf) (connect : State → Option State) (a : SendAnswer) (c : Conn)
    (s : State) : Option State :=
  if !s.requestSent && !a.testConnect then upstreamNext conf connect a.next .error s
  else
    let s := { s with requestSent := true }
    match a.output with
    | .error => upstreamNext conf connect a.next .error s
    | .again =>
      let c := { c with writeTimer := true }
      let s := { s with connection := some c }
      some (if a.handled then s else finalizeRequest s)
    | .ok =>
      let c := { c with writeTimer := false, readTimer := true }
      let s := { s with connection := some c }
      if !a.tcpPush then some (finalizeRequest s)
      else if a.readReady then processHeader conf connect a.header c s
      else
        let s := { s with writeHandler := .dummyHandler }
        some (if a.handled then s else finalizeRequest s)

inductive HandshakeRc where
  | again
  | done
  | error
  deriving DecidableEq, Repr

structure SslAnswer where
  create : Bool
  setSession : Bool
  handshake : HandshakeRc
  send : SendAnswer
  deriving DecidableEq, Repr

def sslHandshake (conf : Conf) (connect : State → Option State) (rc : HandshakeRc)
    (a : SendAnswer) (c : Conn) (s : State) : Option State :=
  match rc with
  | .again => some { s with connection := some { c with ssl := .handshaking } }
  | .done =>
    let c := { c with ssl := .done }
    sendRequest conf connect a c { s with connection := some c }
  | .error => upstreamNext conf connect a.next .error s

def sslInitConnection (conf : Conf) (connect : State → Option State) (a : SslAnswer) (c : Conn)
    (s : State) : Option State :=
  if !a.create || !a.setSession then some (finalizeRequest s)
  else sslHandshake conf connect a.handshake a.send c s

inductive ConnectRc where
  | ok
  | again
  | error
  | busy
  | declined
  deriving DecidableEq, Repr

/-- The answers in one attempt to connect; `sslDone` says that of a connection that was kept. -/
structure Attempt where
  stateAlloc : Bool
  rc : ConnectRc
  cached : Bool
  sslDone : Bool
  reinit : Bool
  alloc : Bool
  ssl : SslAnswer
  next : NextAnswer
  deriving DecidableEq, Repr

def connected (conf : Conf) (connect : State → Option State) (a : Attempt) (s : State) :
    Option State :=
  let c : Conn := ⟨false,false,false,false,if a.sslDone then .done else .none⟩
  let s := { s with
    connection := some c
    writeHandler := .sendRequestHandler, readHandler := .processHeader }
  if s.requestSent && !a.reinit then some (finalizeRequest s)
  else if !a.alloc then some (finalizeRequest s)
  else
    let s := { s with requestSent := false }
    if a.rc = .again then some { s with connection := some { c with writeTimer := true } }
    else if conf.ssl && c.ssl = .none then sslInitConnection conf connect a.ssl c s
    else sendRequest conf connect a.ssl.send c s

/-- `ngx_http_upstream_connect`, or none where it leads to more attempts than there are answers -/
@[grind =] def upstreamConnect (conf : Conf) : List Attempt → State → Option State
  | [], _ => none
  | a::attempts, s =>
    let connect := upstreamConnect conf attempts
    let s := { s with connects := s.connects++[s.headerSent] }
    if !a.stateAlloc then some (finalizeRequest s)
    else
      let s := { s with cached := a.cached }
      match a.rc with
      | .error => some (finalizeRequest s)
      | .busy => upstreamNext conf connect a.next .nolive s
      | .declined => upstreamNext conf connect a.next .error s
      | .ok => connected conf connect a s
      | .again => connected conf connect a s

def sendRequestHandler (conf : Conf) (connect : State → Option State) (a : SslAnswer) (c : Conn)
    (s : State) : Option State :=
  if c.writeTimedout then upstreamNext conf connect a.send.next .timeout s
  else if conf.ssl && c.ssl = .none then sslInitConnection conf connect a c s
  else if s.headerSent then some { s with writeHandler := .dummyHandler }
  else sendRequest conf connect a.send c s

/-- Events of the connection to the upstream, those of the client, and timers that expire. With
the handlers of a body, `readTimer` says whether the timer is set then. -/
inductive Event where
  | write (timeout : Bool) (a : SslAnswer)
  | read (timeout : Bool) (a : HeaderAnswer) (goesOn readTimer : Bool) (a' : SslAnswer)
  | client (goesOn : Bool)
  deriving DecidableEq, Repr

def writeEvent (conf : Conf) (connect : State → Option State) (a : SslAnswer) (c : Conn)
    (s : State) : Option State :=
  if c.ssl = .handshaking then
    sslHandshake conf connect (if c.writeTimedout then .error else a.handshake) a.send c s
  else
    match s.writeHandler with
    | .sendRequestHandler => sendRequestHandler conf connect a c s
    | .dummyHandler => some s

def readEvent (conf : Conf) (connect : State → Option State) (a : HeaderAnswer)
    (goesOn readTimer : Bool) (a' : SslAnswer) (c : Conn) (s : State) : Option State :=
  if c.ssl = .handshaking then
    sslHandshake conf connect (if c.readTimedout then .error else a'.handshake) a'.send c s
  else
    match s.readHandler with
    | .processHeader => processHeader conf connect a c s
    | _ =>
      some (if goesOn then { s with connection := some { c with readTimer := readTimer } }
        else finalizeRequest s)

def upstreamEvent (conf : Conf) (attempts : List Attempt) (e : Event) (s : State) :
    Option State :=
  let connect := upstreamConnect conf attempts
  match e, s.connection with
  | .write timeout a, some c =>
    if timeout && !c.writeTimer then none
    else
      let c := if timeout then { c with writeTimer := false, writeTimedout := true } else c
      writeEvent conf connect a c { s with connection := some c }
  | .read timeout a goesOn readTimer a', some c =>
    if timeout && !c.readTimer then none
    else
      let c := if timeout then { c with readTimer := false, readTimedout := true } else c
      readEvent conf connect a goesOn readTimer a' c { s with connection := some c }
  | .client goesOn, some _ => some (if goesOn then s else finalizeRequest s)
  | _, none => none

end Nginx.UpstreamNext
