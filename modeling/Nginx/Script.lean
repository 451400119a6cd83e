import Nginx.TempMemory
import Mathlib.Algebra.Order.Ring.Int

/-!
# The script engine

`ngx_http_script_compile` makes two programs of a string: one that sums lengths and one that
copies. Their codes correspond one to one, so that a piece of the string is one code here,
with a length and a text. The values of variables do not change while a request is created.
A program has a code for `?` only where the string is compiled with `compile_args`.
-/

set_option autoImplicit false

namespace Nginx.Script
open TempMemory

/-! `ngx_escape_uri` -/

inductive EscapeType where
  | uri
  | args
  deriving DecidableEq, Repr

def escapeMap : EscapeType → List ℕ
  | .uri => [0xffffffff, 0x80000029, 0x00000000, 0x80000000,
      0xffffffff, 0xffffffff, 0xffffffff, 0xffffffff]
  | .args => [0xffffffff, 0x88000869, 0x00000000, 0x80000000,
      0xffffffff, 0xffffffff, 0xffffffff, 0xffffffff]

def isEscaped (type : EscapeType) (ch : UInt8) : Bool :=
  ((escapeMap type).getD (ch.toNat >>> 5) 0).testBit (ch.toNat &&& 0x1f)

def hex : List UInt8 :=
  [48,49,50,51,52,53,54,55,56,57,97,98,99,100,101,102]

def ngxEscapeCount (type : EscapeType) (src : List UInt8) : ℕ := src.countP (isEscaped type)

def escapeByte (type : EscapeType) (ch : UInt8) : List UInt8 :=
  if isEscaped type ch then [37, hex.getD (ch.toNat >>> 4) 0, hex.getD (ch.toNat &&& 0xf) 0]
  else [ch]

def ngxEscapeUri (type : EscapeType) (src : List UInt8) : List UInt8 :=
  src.flatMap (escapeByte type)

theorem escape_length (type : EscapeType) (src : List UInt8) :
    (ngxEscapeUri type src).length = src.length+2*ngxEscapeCount type src := by
  induction src with
  | nil => rfl
  | cons ch src ih =>
    simp only [ngxEscapeUri, ngxEscapeCount, List.flatMap_cons, List.length_append,
      List.countP_cons, List.length_cons] at ih ⊢
    by_cases h : isEscaped type ch = true
    · simp only [escapeByte, h, if_true, List.length_cons, List.length_nil]
      omega
    · simp only [escapeByte, h, Bool.false_eq_true, if_false, List.length_cons, List.length_nil]
      omega

theorem escape_none {type : EscapeType} {src : List UInt8} (h : ngxEscapeCount type src = 0) :
    ngxEscapeUri type src = src := by
  induction src with
  | nil => rfl
  | cons ch src ih =>
    simp only [ngxEscapeCount, List.countP_cons] at h ih
    have hc : ¬ isEscaped type ch = true := by
      intro hc
      simp [hc] at h
    rw [if_neg hc] at h
    rw [ngxEscapeUri, List.flatMap_cons, escapeByte, if_neg hc]
    exact congrArg (ch::·) (ih h)

/-! Codes -/

inductive Code where
  | copy (data : List UInt8)
  | var (index : ℕ)
  | args
  | capture (n : ℕ)
  deriving DecidableEq, Repr

/-- The flags of the engine; `flushed` makes no difference while values do not change. -/
structure Engine where
  isArgs : Bool
  quote : Bool
  skip : Bool
  deriving DecidableEq, Repr

/-- `ngx_memzero(&e, sizeof(ngx_http_script_engine_t))` -/
def zeroEngine : Engine := ⟨false,false,false⟩

/-- What scripts read of a request: the values of the variables by index, `none` where the
value is not found, and the captures of the last regular expression, `$0` first. -/
structure Values where
  indexed : ℕ → Option (List UInt8)
  captures : List (List UInt8)
  quotedUri : Bool
  plusInUri : Bool

def escapes (v : Values) (e : Engine) : Bool := (e.isArgs || e.quote) && (v.quotedUri || v.plusInUri)

/-- `ngx_http_script_copy_len_code`, `ngx_http_script_copy_var_len_code`,
`ngx_http_script_mark_args_code` and `ngx_http_script_copy_capture_len_code` -/
def lenCode (v : Values) (e : Engine) : Code → ℕ
  | .copy data => data.length
  | .var index => ((v.indexed index).getD []).length
  | .args => 1
  | .capture n =>
    match v.captures[n]? with
    | none => 0
    | some cap =>
      if escapes v e then cap.length+2*ngxEscapeCount .args cap else cap.length

/-- The bytes that `ngx_http_script_copy_code`, `ngx_http_script_copy_var_code`,
`ngx_http_script_start_args_code` and `ngx_http_script_copy_capture_code` write; the last
does not look at `skip`. -/
def copyCode (v : Values) (e : Engine) : Code → List UInt8
  | .copy data => if e.skip then [] else data
  | .var index => if e.skip then [] else (v.indexed index).getD []
  | .args => []
  | .capture n =>
    match v.captures[n]? with
    | none => []
    | some cap => if escapes v e then ngxEscapeUri .args cap else cap

def Engine.after (e : Engine) : Code → Engine
  | .args => { e with isArgs := true }
  | _ => e

/-- `while (*(uintptr_t *) le.ip)`: the sum of the lengths -/
@[grind =] def lenRun (v : Values) (e : Engine) : List Code → ℕ × Engine
  | [] => (0, e)
  | c::codes => (lenCode v e c+(lenRun v (e.after c) codes).1, (lenRun v (e.after c) codes).2)

/-- `while (*(uintptr_t *) e.ip)`: the texts are written into the memory at `e.pos`. -/
@[grind =] def copyRun (v : Values) (e : Engine) (b : Block UInt8) : List Code → Option (Block UInt8 × Engine)
  | [] => some (b, e)
  | c::codes => (b.put (copyCode v e c)).bind fun b => copyRun v (e.after c) b codes

/-! Programs without `?`, which only a string compiled with `compile_args` has -/

theorem after_plain {c : Code} (h : c ≠ .args) (e : Engine) : e.after c = e := by
  cases c with
  | args => exact absurd rfl h
  | copy | var | capture => rfl

theorem lenRun_plain (v : Values) (e : Engine) {codes : List Code} (h : Code.args ∉ codes) :
    lenRun v e codes = ((codes.map (lenCode v e)).sum, e) := by
  induction codes with
  | nil => rfl
  | cons c codes ih =>
    simp only [List.mem_cons, not_or] at h
    rw [lenRun, after_plain (Ne.symm h.1), ih h.2, List.map_cons, List.sum_cons]

theorem copyRun_plain (v : Values) (e : Engine) {codes : List Code} (h : Code.args ∉ codes)
    {b : Block UInt8} (hb : b.cells.length+(codes.flatMap (copyCode v e)).length ≤ b.size) :
    ∃ b', copyRun v e b codes = some (b', e) ∧ Adds b b' (codes.flatMap (copyCode v e)) := by
  induction codes generalizing b with
  | nil => exact ⟨b,rfl,Adds.refl b⟩
  | cons c codes ih =>
    simp only [List.mem_cons, not_or] at h
    simp only [List.flatMap_cons, List.length_append] at hb
    obtain ⟨b₁,hb₁,ha₁⟩ := put_adds (b := b) (s := copyCode v e c) (by omega)
    obtain ⟨b₂,hb₂,ha₂⟩ := ih h.2 (b := b₁) (by rw [ha₁.length, ha₁.size]; omega)
    refine ⟨b₂,?_,ha₁.trans ha₂⟩
    rw [copyRun, hb₁, after_plain (Ne.symm h.1)]
    exact hb₂

theorem copyCode_length (v : Values) {e le : Engine} (c : Code) (hs : e.skip = false)
    (h : escapes v e = true → escapes v le = true) :
    (copyCode v e c).length ≤ lenCode v le c := by
  cases c with
  | copy data => simp [copyCode, lenCode, hs]
  | var index => simp [copyCode, lenCode, hs]
  | args => exact Nat.zero_le _
  | capture n =>
    simp only [copyCode, lenCode]
    cases v.captures[n]? with
    | none => exact Nat.zero_le _
    | some cap =>
      by_cases he : escapes v e = true
      · simp [he, h he, escape_length]
      · simp only [he, Bool.false_eq_true, if_false]
        split <;> omega

end Nginx.Script
