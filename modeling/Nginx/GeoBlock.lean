import Nginx.GeoRangesLaw
import Nginx.RadixTreeLaw

/-!
# The geo directive

The lines of a block build a radix tree or, behind `ranges`, arrays of ranges. Both hold
pointers to values, and a lookup follows the pointer that it finds. A line is given by what its
addresses denote; proxies, binary bases and failed allocations are left out.
-/

set_option autoImplicit false

namespace Nginx.GeoBlock
open Nginx.PrefixMap Nginx.RadixTree Nginx.RadixTreeMap Nginx.GeoRanges
open Nginx.GeoRangesLaw (blockStart blockEnd)

/-- Where values are: `place` is the copy that `ngx_http_geo_value` keeps of a text,
`nullValue` is `&ngx_http_variable_null_value`, and `text` is what a valid pointer leads to. -/
structure Memory where
  place : List UInt8 → UInt64
  nullValue : UInt64
  text : UInt64 → Option (List UInt8)

inductive Line where
  | ranges
  | default (value : List UInt8)
  | net (key : Key) (length : Fin 33) (value : List UInt8)
  | deleteNet (key : Key) (length : Fin 33)
  | range (start stop : Key) (value : List UInt8)
  | deleteRange (start stop : Key)
  deriving DecidableEq

/-- `low` and `default` are the fields of `ctx.high`; a pointer of 0 is null. -/
structure Ctx where
  ranges : Bool
  tree : Option Tree
  low : Option (Low UInt64)
  default : UInt64

inductive Geo where
  | high (low : ℕ → Packed UInt64) (default : UInt64)
  | tree (t : Tree)

section
variable (memory : Memory) (headersInPage : ℕ)

/-- The loop `for (i = 2; i; i--)`; without a result the configuration fails. -/
@[grind =] def insertLoop (key mask : Key) (val : UInt64) : ℕ → Tree → Option Tree
  | 0, _ => none
  | i+1, t =>
    match ngxRadix32treeInsert t key mask val with
    | .ok (t, .ok) => some t
    | .ok (t, .busy) =>
      match ngxRadix32treeDelete t key mask with
      | .ok (_, .error) => none
      | .ok (t, _) => insertLoop key mask val i t
      | .error _ => none
    | _ => none

def treeOf : Option Tree → Option Tree
  | some t => some t
  | none =>
    match ngxRadixTreeCreate headersInPage (-1) with
    | .ok (t, .ok) => some t
    | _ => none

def cidrTree (t : Tree) : Line → Option Tree
  | .default value => insertLoop 0 0 (memory.place value) 2 t
  | .net key length value => insertLoop key (maskOf length) (memory.place value) 2 t
  | .deleteNet key length =>
    match ngxRadix32treeDelete t key (maskOf length) with
    | .ok (t, _) => some t
    | .error _ => none
  | _ => none

def ngxHttpGeoCidr (ctx : Ctx) (line : Line) : Option Ctx :=
  (treeOf headersInPage ctx.tree).bind fun t =>
    (cidrTree memory t line).map fun t => { ctx with tree := some t }

/-- `INADDR_NONE` is refused as what is no address. -/
def validRange (start stop : Key) : Prop :=
  start ≠ 0xffffffff#32 ∧ stop ≠ 0xffffffff#32 ∧ start.toNat ≤ stop.toNat

instance (start stop : Key) : Decidable (validRange start stop) := by
  unfold validRange
  infer_instance

def ngxHttpGeoRange (ctx : Ctx) : Line → Option Ctx
  | .default value => some { ctx with default := memory.place value }
  | .range start stop value =>
    if validRange start stop then
      match ngxHttpGeoAddRange (ctx.low.getD fun _ => none) start.toNat stop.toNat
          (memory.place value) with
      | .done low => some { ctx with low := some low }
      | _ => none
    else none
  | .deleteRange start stop =>
    if validRange start stop then
      match ngxHttpGeoDeleteRange (ctx.low.getD fun _ => none) start.toNat stop.toNat with
      | .done (low, _) => some { ctx with low := some low }
      | _ => none
    else none
  | _ => none

def ngxHttpGeo (ctx : Ctx) (line : Line) : Option Ctx :=
  if line = .ranges then
    if ctx.tree.isSome then none else some { ctx with ranges := true }
  else if ctx.ranges then ngxHttpGeoRange memory ctx line
  else ngxHttpGeoCidr memory headersInPage ctx line

/-- `ngx_conf_parse` calls the handler for line after line. -/
@[grind =] def ngxConfParse : List Line → Ctx → Option Ctx
  | [], ctx => some ctx
  | line::lines, ctx => (ngxHttpGeo memory headersInPage ctx line).bind (ngxConfParse lines)

def zeroCtx : Ctx := ⟨false,none,none,0⟩

def ngxHttpGeoBlock (lines : List Line) : Option (Geo × Ctx) :=
  (ngxConfParse memory headersInPage lines zeroCtx).bind fun ctx =>
    match ctx.low with
    | some low =>
      let geo := Geo.high (fun h => pack (low h)) ctx.default
      -- the structure has been copied when the context gets its default
      some (geo, if ctx.default = 0 then { ctx with default := memory.nullValue } else ctx)
    | none =>
      (treeOf headersInPage ctx.tree).bind fun t =>
        match ngxRadix32treeFind t 0 with
        | .error _ => none
        | .ok value =>
          if value ≠ noValue then some (.tree t, ctx)
          else
            match ngxRadix32treeInsert t 0 0 memory.nullValue with
            | .ok (t, .ok) => some (.tree t, ctx)
            | .ok (t, .busy) => some (.tree t, ctx)
            | _ => none

end

/-- `ngx_http_geo_range_variable` and `ngx_http_geo_cidr_variable`; following a pointer that
leads to no value has no result. -/
def ngxHttpGeoVariable (memory : Memory) (addr : Key) : Geo → Option (List UInt8)
  | .high low default =>
    (memory.text default).bind fun _ =>
      (ngxHttpGeoRangeVariable low default addr.toNat).bind memory.text
  | .tree t =>
    match ngxRadix32treeFind t addr with
    | .ok value => memory.text value
    | .error _ => none

/-! Entries -/

def Line.value : Line → Option (List UInt8)
  | .default value => some value
  | .net _ _ value => some value
  | .range _ _ value => some value
  | _ => none

/-- Pointers to the values of the lines are valid, null and `NGX_RADIX_NO_VALUE` are not. -/
structure Kept (memory : Memory) (lines : List Line) : Prop where
  place : ∀ line ∈ lines, ∀ value ∈ line.value, memory.text (memory.place value) = some value
  null_value : memory.text memory.nullValue = some []
  null : memory.text 0 = none
  no_value : memory.text noValue = none

/-- A network that is written again has its last value, and the default is that of 0.0.0.0/0. -/
def netStep (m : Entries Bool (List UInt8)) : Line → Entries Bool (List UInt8)
  | .default value => put m [] (some value)
  | .net key length value => put m (keyPath key length) (some value)
  | .deleteNet key length => put m (keyPath key length) none
  | _ => m

def nets (lines : List Line) : Entries Bool (List UInt8) := lines.foldl netStep empty

def defaultOf (lines : List Line) : Option (List UInt8) := nets lines []

def Covered (lines : List Line) (addr : Key) : Prop :=
  longest (nets lines) (keyPath addr 32) ≠ none

/-- A range in the block of the addresses with the same upper half, by its offsets there -/
structure Span where
  start : ℕ
  stop : ℕ
  deriving DecidableEq, Repr

/-- A range with a later one behind it, or what is left of it around a later one -/
def Span.around (r x : Span) : List Span :=
  (if r.start < x.start then [⟨r.start,min r.stop (x.start-1)⟩] else [])++
    x::(if x.stop < r.stop then [⟨x.stop+1,r.stop⟩] else [])

/-- A later range has its place at the last one that does not begin behind it. -/
def enter (x : Span) : List Span → Option (List Span)
  | [] => none
  | r::rest =>
    match enter x rest with
    | some rest => some (r::rest)
    | none => if x.stop < r.start then none else some (r.around x++rest)

def part (start stop : Key) (h : ℕ) : Span := ⟨blockStart start.toNat h,blockEnd stop.toNat h⟩

/-- What a line does to the ranges of the block `h`. One that begins before them all goes to their
end, and a line that deletes a range does not come to the last block of one that ends there before
the offset at which it begins in its first. -/
def holdStep (h : ℕ) (spans : Option (List Span)) : Line → Option (List Span)
  | .range start stop _ =>
    if start.toNat / 0x10000 ≤ h ∧ h ≤ stop.toNat / 0x10000 then
      some ((enter (part start stop h) (spans.getD [])).getD (spans.getD []++[part start stop h]))
    else spans
  | .deleteRange start stop =>
    if start.toNat / 0x10000 ≤ h ∧ h*0x10000+start.toNat % 0x10000 ≤ stop.toNat then
      spans.map (·.erase (part start stop h))
    else spans
  | _ => spans

/-- The ranges that the lines leave in the block `h`; none if no range has come to it -/
def held (lines : List Line) (h : ℕ) : Option (List Span) := lines.foldl (holdStep h) none

/-- The address is in a network or in a range of the lines. -/
def Matched (lines : List Line) (addr : Key) : Prop :=
  (∃ n, 0 < n ∧ n ≤ 32 ∧ nets lines (keyPath addr n) ≠ none) ∨
  ∃ x ∈ (held lines (addr.toNat / 0x10000)).getD [],
    x.start ≤ addr.toNat % 0x10000 ∧ addr.toNat % 0x10000 ≤ x.stop

/-- The lookup finds a value, and that of an address in no entry is the default. -/
def Answers (memory : Memory) (lines : List Line) (geo : Geo) (addr : Key) : Prop :=
  ∃ value, ngxHttpGeoVariable memory addr geo = some value ∧
    (¬Matched lines addr → value = (defaultOf lines).getD [])

def Line.isRange : Line → Bool
  | .range _ _ _ => true
  | .deleteRange _ _ => true
  | _ => false

/-- Ranges need a default, and no block of addresses with the same upper half may have lost its
last range. Without ranges behind `ranges` there is no default but the empty value. Networks that
hold 0.0.0.0 have to hold all addresses. -/
def Installed (lines : List Line) : Prop :=
  if lines.any Line.isRange then defaultOf lines ≠ none ∧ ∀ h < 0x10000, held lines h ≠ some []
  else if .ranges ∈ lines then (defaultOf lines).getD [] = []
  else Covered lines 0 → ∀ addr, Covered lines addr

end Nginx.GeoBlock
