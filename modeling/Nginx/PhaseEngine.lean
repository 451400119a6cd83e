import Mathlib.Data.List.Basic
import Mathlib.Algebra.Order.Ring.Int

/-!
# The phase engine

At start the handlers that the modules registered for each phase are laid out in one
array, the last registered first, together with the checks that have no handler of
their own. A request holds an index into that array. Every checker either moves the
index and goes on, or stops: the handler waits for an event, or the request is
finalized. A redirect puts the index back to the server rewrites, or, for a named
location, to the location rewrites. What handlers return, and what the files tried
come to, are answers given from outside.
-/

set_option autoImplicit false

namespace Nginx.PhaseEngine

def ngxOk : ℤ := 0
def ngxError : ℤ := -1
def ngxAgain : ℤ := -2
def ngxDone : ℤ := -4
def ngxDeclined : ℤ := -5

def ngxHttpMovedPermanently : ℤ := 301
def ngxHttpUnauthorized : ℤ := 401
def ngxHttpForbidden : ℤ := 403
def ngxHttpNotFound : ℤ := 404
def ngxHttpRequestEntityTooLarge : ℤ := 413
def ngxHttpInternalServerError : ℤ := 500

inductive Phase where
  | postRead
  | serverRewrite
  | findConfig
  | rewrite
  | postRewrite
  | preaccess
  | access
  | postAccess
  | tryFiles
  | content
  deriving DecidableEq, Repr

def phases : List Phase :=
  [.postRead, .serverRewrite, .findConfig, .rewrite, .postRewrite, .preaccess, .access, .postAccess,
    .tryFiles, .content]

inductive Checker where
  | generic
  | rewrite
  | findConfig
  | postRewrite
  | access
  | postAccess
  | tryFiles
  | content
  deriving DecidableEq, Repr

variable {H : Type*}

structure PhaseHandler (H : Type*) where
  checker : Checker
  handler : Option H
  next : ℕ

structure MainConf (H : Type*) where
  handlers : Phase → List H
  tryFiles : Bool

def useRewrite (cmcf : MainConf H) : Bool := !(cmcf.handlers .rewrite).isEmpty
def useAccess (cmcf : MainConf H) : Bool := !(cmcf.handlers .access).isEmpty

def allocated (cmcf : MainConf H) : ℕ :=
  (useRewrite cmcf).toNat+(useAccess cmcf).toNat+cmcf.tryFiles.toNat+1+
    (phases.map (fun i => (cmcf.handlers i).length)).sum

/-- The array filled so far, the counter `n`, and the indices noted on the way. -/
structure Engine (H : Type*) where
  handlers : List (PhaseHandler H)
  n : ℕ
  findConfigIndex : ℕ
  serverRewriteIndex : Option ℕ
  locationRewriteIndex : Option ℕ

def Engine.push (e : Engine H) (ph : List (PhaseHandler H)) : Engine H :=
  { e with handlers := e.handlers++ph }

/-- The end of the loop body: the handlers of a phase, from the last to the first. -/
def Engine.register (e : Engine H) (checker : Checker) (h : List H) : Engine H :=
  { e with n := e.n+h.length }.push (h.reverse.map (fun x => ⟨checker,some x,e.n+h.length⟩))

def initPhase (cmcf : MainConf H) (e : Engine H) (i : Phase) : Engine H :=
  let h := cmcf.handlers i
  match i with
  | .serverRewrite =>
    { e with serverRewriteIndex := e.serverRewriteIndex.or (some e.n) }.register .rewrite h
  | .findConfig => { e with findConfigIndex := e.n, n := e.n+1 }.push [⟨.findConfig,none,0⟩]
  | .rewrite =>
    { e with locationRewriteIndex := e.locationRewriteIndex.or (some e.n) }.register .rewrite h
  | .postRewrite =>
    if useRewrite cmcf then { e with n := e.n+1 }.push [⟨.postRewrite,none,e.findConfigIndex⟩]
    else e
  -- The slot of the check behind the access handlers is counted here.
  | .access => { e with n := e.n+1 }.register .access h
  | .postAccess => if useAccess cmcf then e.push [⟨.postAccess,none,e.n⟩] else e
  | .tryFiles =>
    if cmcf.tryFiles then { e with n := e.n+1 }.push [⟨.tryFiles,none,0⟩] else e
  | .content => e.register .content h
  | .postRead => e.register .generic h
  | .preaccess => e.register .generic h

def ngxHttpInitPhaseHandlers (cmcf : MainConf H) : Engine H :=
  phases.foldl (initPhase cmcf) ⟨[],0,0,none,none⟩

structure LocConf where
  name : List UInt8
  satisfyAll : Bool
  internal : Bool
  clientMaxBodySize : ℤ
  tryFiles : Bool
  handler : Bool
  deriving DecidableEq, Repr

/-- Whether `ngx_http_core_run_phases` is running, has returned to wait for an event, or
the request has been finalized. -/
inductive Status where
  | running
  | waiting
  | finalized (rc : ℤ)
  | ended
  deriving DecidableEq, Repr

structure Request where
  phaseHandler : ℕ
  main : Bool
  internal : Bool
  accessCode : ℤ
  wwwAuthenticate : Option ℕ
  uriChanged : Bool
  uriChanges : ℕ
  loc : LocConf
  contentHandler : Bool
  contentLength : ℤ
  discardBody : Bool
  uri : List UInt8
  args : List UInt8
  location : Option (List UInt8)
  status : Status
  deriving DecidableEq, Repr

/-- What the code behind a checker answers: the return code, and what it left behind. -/
structure Answer where
  rc : ℤ
  uriChanged : Bool
  uri : List UInt8
  loc : LocConf
  limitExcept : Option LocConf

def Request.finalize (r : Request) (rc : ℤ) : Request := { r with status := .finalized rc }

def Request.nextHandler (r : Request) : Request := { r with phaseHandler := r.phaseHandler+1 }

/-- A checker returns the request and its own code, `NGX_OK` or `NGX_AGAIN`. -/
abbrev Checked := Request × ℤ

def ngxHttpCoreGenericPhase (r : Request) (ph : PhaseHandler H) (a : Answer) : Checked :=
  if a.rc = ngxOk then ({ r with phaseHandler := ph.next }, ngxAgain)
  else if a.rc = ngxDeclined then (r.nextHandler, ngxAgain)
  else if a.rc = ngxAgain ∨ a.rc = ngxDone then (r, ngxOk)
  else (r.finalize a.rc, ngxOk)

def ngxHttpCoreRewritePhase (r : Request) (a : Answer) : Checked :=
  let r := { r with uriChanged := r.uriChanged || a.uriChanged, uri := a.uri }
  if a.rc = ngxDeclined then (r.nextHandler, ngxAgain)
  else if a.rc = ngxDone then (r, ngxOk)
  else (r.finalize a.rc, ngxOk)

/-- `ngx_http_update_location_config` in what the phases read of it. -/
def ngxHttpUpdateLocationConfig (r : Request) (limitExcept : Option LocConf) : Request :=
  let loc := limitExcept.getD r.loc
  { r with loc := loc, contentHandler := r.contentHandler || loc.handler }

/-- The value of the header "Location" for a redirect to a name with its slash. -/
def redirectLocation (clcf : LocConf) (args : List UInt8) : List UInt8 :=
  if args.isEmpty then clcf.name else clcf.name++[63]++args

def ngxHttpCoreFindConfigPhase (r : Request) (a : Answer) : Checked :=
  let r := { r with contentHandler := false, uriChanged := false }
  if a.rc = ngxError then (r.finalize ngxHttpInternalServerError, ngxOk)
  else
    let clcf := a.loc
    let r := { r with loc := clcf }
    if !r.internal && clcf.internal then (r.finalize ngxHttpNotFound, ngxOk)
    else
      let r := ngxHttpUpdateLocationConfig r a.limitExcept
      if r.contentLength ≠ -1 ∧ r.discardBody = false ∧ clcf.clientMaxBodySize ≠ 0 ∧
          clcf.clientMaxBodySize < r.contentLength then
        (r.finalize ngxHttpRequestEntityTooLarge, ngxOk)
      else if a.rc = ngxDone then
        ({ r with location := some (redirectLocation clcf r.args) }.finalize ngxHttpMovedPermanently,
          ngxOk)
      else (r.nextHandler, ngxAgain)

def ngxHttpCorePostRewritePhase (r : Request) (ph : PhaseHandler H) (a : Answer) : Checked :=
  if r.uriChanged = false then (r.nextHandler, ngxAgain)
  else
    let r := { r with uriChanges := (r.uriChanges+15) % 16 }
    if r.uriChanges = 0 then (r.finalize ngxHttpInternalServerError, ngxOk)
    else ({ r with phaseHandler := ph.next, loc := a.loc }, ngxAgain)

def ngxHttpCoreAccessPhase (r : Request) (ph : PhaseHandler H) (a : Answer) : Checked :=
  if r.main = false then ({ r with phaseHandler := ph.next }, ngxAgain)
  else if a.rc = ngxDeclined then (r.nextHandler, ngxAgain)
  else if a.rc = ngxAgain ∨ a.rc = ngxDone then (r, ngxOk)
  else if r.loc.satisfyAll then
    if a.rc = ngxOk then (r.nextHandler, ngxAgain) else (r.finalize a.rc, ngxOk)
  else if a.rc = ngxOk then
    ({ r with accessCode := 0, wwwAuthenticate := r.wwwAuthenticate.map (fun _ => 0),
              phaseHandler := ph.next }, ngxAgain)
  else if a.rc = ngxHttpForbidden ∨ a.rc = ngxHttpUnauthorized then
    ({ r with accessCode := a.rc }.nextHandler, ngxAgain)
  else (r.finalize a.rc, ngxOk)

def ngxHttpCorePostAccessPhase (r : Request) : Checked :=
  if r.accessCode ≠ 0 then ({ r with accessCode := 0 }.finalize r.accessCode, ngxOk)
  else (r.nextHandler, ngxAgain)

/-- The answer is `NGX_OK` for a file that was found, else what the request is finalized with. -/
def ngxHttpCoreTryFilesPhase (r : Request) (a : Answer) : Checked :=
  if r.loc.tryFiles = false then (r.nextHandler, ngxAgain)
  else if a.rc = ngxOk then ({ r with uri := a.uri }.nextHandler, ngxAgain)
  else (r.finalize a.rc, ngxOk)

def ngxHttpCoreContentPhase (e : Engine H) (r : Request) (a : Answer) : Checked :=
  if r.contentHandler then (r.finalize a.rc, ngxOk)
  else if a.rc ≠ ngxDeclined then (r.finalize a.rc, ngxOk)
  else if e.handlers[r.phaseHandler+1]?.isSome then (r.nextHandler, ngxAgain)
  else if r.uri.getLast? = some 47 then (r.finalize ngxHttpForbidden, ngxOk)
  else (r.finalize ngxHttpNotFound, ngxOk)

def check (e : Engine H) (r : Request) (ph : PhaseHandler H) (a : Answer) : Checked :=
  match ph.checker with
  | .generic => ngxHttpCoreGenericPhase r ph a
  | .rewrite => ngxHttpCoreRewritePhase r a
  | .findConfig => ngxHttpCoreFindConfigPhase r a
  | .postRewrite => ngxHttpCorePostRewritePhase r ph a
  | .access => ngxHttpCoreAccessPhase r ph a
  | .postAccess => ngxHttpCorePostAccessPhase r
  | .tryFiles => ngxHttpCoreTryFilesPhase r a
  | .content => ngxHttpCoreContentPhase e r a

/-- `NGX_OK` makes the function return; a request that is not finalized then waits. -/
def settle (c : Checked) : Request :=
  if c.2 = ngxOk then if c.1.status = .running then { c.1 with status := .waiting } else c.1 else c.1

/-- One turn of the loop in `ngx_http_core_run_phases`. -/
def turn (e : Engine H) (r : Request) (a : Answer) : Request :=
  match e.handlers[r.phaseHandler]? with
  | none => { r with status := .ended }
  | some ph => settle (check e r ph a)

/-- `ngx_http_internal_redirect` up to the call of `ngx_http_core_run_phases`. -/
def ngxHttpInternalRedirect (e : Engine H) (r : Request) (a : Answer) (args : List UInt8) : Request :=
  let r := { r with uriChanges := (r.uriChanges+15) % 16 }
  if r.uriChanges = 0 then r.finalize ngxHttpInternalServerError
  else
    let r := ngxHttpUpdateLocationConfig { r with uri := a.uri, args := args, loc := a.loc } a.limitExcept
    { r with internal := true, phaseHandler := e.serverRewriteIndex.getD (2^64-1), status := .running }

/-- `ngx_http_named_location`; the answer is the location of that name, if there is one. -/
def ngxHttpNamedLocation (e : Engine H) (r : Request) (found : Option (LocConf × Option LocConf)) :
    Request :=
  let r := { r with uriChanges := (r.uriChanges+15) % 16 }
  if r.uriChanges = 0 then r.finalize ngxHttpInternalServerError
  else
    match found with
    | none => r.finalize ngxHttpInternalServerError
    | some (loc, limitExcept) =>
      let r := ngxHttpUpdateLocationConfig { r with internal := true, contentHandler := false, loc := loc }
        limitExcept
      { r with phaseHandler := e.locationRewriteIndex.getD (2^64-1), status := .running }

end Nginx.PhaseEngine
