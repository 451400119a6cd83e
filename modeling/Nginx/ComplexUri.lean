import Nginx.DotSegments
import Nginx.UriBytes

/-!
# The complex URI scanner

A raw URI is the bytes from `uri_start` up to `uri_end`. The scanner decodes
escapes, merges slashes and removes dot segments in one pass, writing into a
second buffer and moving its output pointer back over what it has written.
The written bytes are kept newest first, so the output pointer is the head of
the list. Only the non-Win32 branches are modelled.
-/

set_option autoImplicit false

namespace Nginx.ComplexUri
open Nginx.UriBytes

inductive PlainState where
  | swUsual
  | swSlash
  | swDot
  | swDotDot
  deriving DecidableEq, Repr

inductive UriState where
  | plain (state : PlainState)
  | swQuoted
  | swQuotedSecond
  deriving DecidableEq, Repr

structure UriScan where
  state : UriState
  quotedState : PlainState
  decoded : UInt8
  u : List UInt8
  uriExt : Option ℕ
  quotedUri : Bool
  plusInUri : Bool
  deriving Repr

inductive Turn where
  | next (c : UriScan)
  | args (c : UriScan)
  | done (c : UriScan)
  | invalid
  deriving Repr

def put (c : UriScan) (state : PlainState) (ch : UInt8) : UriScan :=
  { c with state := .plain state, u := ch :: c.u }

def leaveTurn (state : PlainState) (c : UriScan) (ch : UInt8) : Turn :=
  if ch = percent then .next { c with quotedState := state, state := .swQuoted }
  else if ch = question then .args c
  else if ch = hash then .done c
  else if ch = plus then .next { put c .swUsual ch with plusInUri := true }
  else .next (put c .swUsual ch)

def usualTurn (c : UriScan) (ch : UInt8) : Turn :=
  if usual ch then .next (put c .swUsual ch)
  else if ch = slash then .next { put c .swSlash ch with uriExt := none }
  else if ch = dot then .next { put c .swUsual ch with uriExt := some (c.u.length+1) }
  else leaveTurn .swUsual c ch

def slashTurn (mergeSlashes : Bool) (c : UriScan) (ch : UInt8) : Turn :=
  if usual ch then .next (put c .swUsual ch)
  else if ch = slash then
    .next (if mergeSlashes then { c with state := .plain .swSlash } else put c .swSlash ch)
  else if ch = dot then .next (put c .swDot ch)
  else leaveTurn .swSlash c ch

def dotTurn (c : UriScan) (ch : UInt8) : Turn :=
  if usual ch then .next (put c .swUsual ch)
  else if ch = slash then .next { c with state := .plain .swSlash, u := c.u.tail }
  else if ch = dot then .next (put c .swDotDot ch)
  else leaveTurn .swDot c ch

/-- `u -= 5`, then back to the closest slash; falling off the front of the
buffer is an invalid request. -/
def dotDotTurn (c : UriScan) (ch : UInt8) : Turn :=
  if usual ch then .next (put c .swUsual ch)
  else if ch = slash then
    match (c.u.drop 4).dropWhile (fun x => decide (x ≠ slash)) with
    | [] => .invalid
    | u => .next { c with state := .plain .swSlash, u := u }
  else leaveTurn .swDotDot c ch

def plainTurn (mergeSlashes : Bool) (state : PlainState) (c : UriScan) (ch : UInt8) : Turn :=
  match state with
  | .swUsual => usualTurn c ch
  | .swSlash => slashTurn mergeSlashes c ch
  | .swDot => dotTurn c ch
  | .swDotDot => dotDotTurn c ch

def quotedTurn (c : UriScan) (ch : UInt8) : Turn :=
  if isDigit ch then
    .next { c with quotedUri := true, decoded := ch - 48, state := .swQuotedSecond }
  else if 97 ≤ (ch ||| 0x20) ∧ (ch ||| 0x20) ≤ 102 then
    .next { c with quotedUri := true, decoded := (ch ||| 0x20) - 97 + 10,
                   state := .swQuotedSecond }
  else .invalid

/-- A decoded character that may close a segment goes back into the saved
state, in the next turn of the loop and with `p` unchanged. -/
def quotedSecondTurn (mergeSlashes : Bool) (c : UriScan) (ch : UInt8) : Turn :=
  if isDigit ch then
    let ch := (c.decoded <<< 4) + (ch - 48)
    if ch = percent ∨ ch = hash then .next (put c .swUsual ch)
    else if ch = nul then .invalid
    else plainTurn mergeSlashes c.quotedState { c with state := .plain c.quotedState } ch
  else if 97 ≤ (ch ||| 0x20) ∧ (ch ||| 0x20) ≤ 102 then
    let ch := (c.decoded <<< 4) + ((ch ||| 0x20) - 97 + 10)
    if ch = question then .next (put c .swUsual ch)
    else
      let c := if ch = plus then { c with plusInUri := true } else c
      plainTurn mergeSlashes c.quotedState { c with state := .plain c.quotedState } ch
  else .invalid

def turn (mergeSlashes : Bool) (c : UriScan) (ch : UInt8) : Turn :=
  match c.state with
  | .plain state => plainTurn mergeSlashes state c ch
  | .swQuoted => quotedTurn c ch
  | .swQuotedSecond => quotedSecondTurn mergeSlashes c ch

/-- The strings left in the request. `args` is set here only when a `#` cuts
the arguments; otherwise `argsStart` keeps the bytes from `args_start` on. -/
structure ParsedUri where
  uri : List UInt8
  exten : List UInt8
  args : List UInt8
  argsStart : Option (List UInt8)
  quotedUri : Bool
  plusInUri : Bool
  deriving DecidableEq, Repr

def finish (c : UriScan) : ParsedUri where
  uri := c.u.reverse
  exten := match c.uriExt with
    | some ext => c.u.reverse.drop ext
    | none => []
  args := []
  argsStart := none
  quotedUri := c.quotedUri
  plusInUri := c.plusInUri

def finishArgs (c : UriScan) (rest : List UInt8) : ParsedUri :=
  if hash ∈ rest then
    { finish c with args := rest.takeWhile (fun x => decide (x ≠ hash)) }
  else { finish c with argsStart := some rest }

@[grind =] def scan (mergeSlashes : Bool) : UriScan → List UInt8 → Option ParsedUri
  | c, [] => some (finish c)
  | c, ch :: rest =>
    match turn mergeSlashes c ch with
    | .next d => scan mergeSlashes d rest
    | .args d => some (finishArgs d rest)
    | .done d => some (finish d)
    | .invalid => none

def scanStart : UriScan where
  state := .plain .swUsual
  quotedState := .swUsual
  decoded := nul
  u := []
  uriExt := none
  quotedUri := false
  plusInUri := false

def ngxHttpParseComplexUri (raw : List UInt8) (mergeSlashes : Bool) : Option ParsedUri :=
  scan mergeSlashes scanStart raw

end Nginx.ComplexUri
