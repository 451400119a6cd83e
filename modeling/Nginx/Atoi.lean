import Nginx.Numeral
import Mathlib.Data.List.TakeWhile

/-!
# Numbers of a text

The readers of whole texts as numbers. A text has any length; the accumulator has 64 bits, and what
is over is looked for in its sign when the text has been read.
-/

set_option autoImplicit false

namespace Nginx.Atoi
open Nginx.OffT Nginx.Numeral

def ngxError : ℤ := -1

def decimalDigit (ch : UInt8) : Option ℕ :=
  if ch < 48 ∨ 57 < ch then none else some (ch.toNat-48)

def hexDigit (ch : UInt8) : Option ℕ :=
  if 48 ≤ ch ∧ ch ≤ 57 then some (ch.toNat-48)
  else
    let c := ch ||| 0x20
    if 97 ≤ c ∧ c ≤ 102 then some (c.toNat-97+10) else none

def checkSign (value : ℤ) : ℤ := if value < 0 then ngxError else value

@[grind =] def numberLoop (base : ℕ) (digit : UInt8 → Option ℕ) : ℤ → List UInt8 → Option ℤ
  | value, [] => some value
  | value, ch::line =>
    match digit ch with
    | none => none
    | some d => numberLoop base digit (offT (value*base+d)) line

def readNumber (base : ℕ) (digit : UInt8 → Option ℕ) (line : List UInt8) : ℤ :=
  if line = [] then ngxError
  else
    match numberLoop base digit 0 line with
    | none => ngxError
    | some value => checkSign value

def ngxAtoi (line : List UInt8) : ℤ := readNumber 10 decimalDigit line

def ngxAtosz (line : List UInt8) : ℤ := readNumber 10 decimalDigit line

def ngxAtoof (line : List UInt8) : ℤ := readNumber 10 decimalDigit line

def ngxAtotm (line : List UInt8) : ℤ := readNumber 10 decimalDigit line

def ngxHextoi (line : List UInt8) : ℤ := readNumber 16 hexDigit line

@[grind =] def pointLoop : ℤ → Bool → ℕ → List UInt8 → Option (ℤ×ℕ)
  | value, _, point, [] => some (value,point)
  | value, dot, point, ch::line =>
    if point = 0 then none
    else if ch = 46 then if dot then none else pointLoop value true point line
    else
      match decimalDigit ch with
      | none => none
      | some d => pointLoop (offT (value*10+d)) dot (point-dot.toNat) line

@[grind =] def scaleLoop : ℕ → ℤ → ℤ
  | 0, value => value
  | point+1, value => scaleLoop point (offT (value*10))

def ngxAtofp (line : List UInt8) (point : ℕ) : ℤ :=
  if line = [] then ngxError
  else
    match pointLoop 0 false point line with
    | none => ngxError
    | some (value,point) => checkSign (scaleLoop point value)

/-- The part of `ngx_http_process_request_header` about the `Content-Length`, nothing where the
request is finalized with the error -/
def contentLengthN (value : List UInt8) : Option ℤ :=
  let n := ngxAtoof value
  if n = ngxError then none else some n

/-! What the texts denote -/

def places (s : List UInt8) : List UInt8×List UInt8 :=
  (s.takeWhile (· ≠ 46),(s.dropWhile (· ≠ 46)).tail)

/-- A number with at most `point` places behind its point, in units of the last of these -/
def fixedPoint (point : ℕ) (s : List UInt8) : Option ℕ :=
  if point < (places s).2.length then none
  else (digits decimalDigit ((places s).1++(places s).2)).map fun ds =>
    value 10 ds*10^(point-(places s).2.length)

inductive Reader where
  | atoi
  | atosz
  | atoof
  | atotm
  | hextoi
  | atofp (point : ℕ)
  deriving DecidableEq, Repr

namespace Reader

def read : Reader → List UInt8 → ℤ
  | atoi, s => ngxAtoi s
  | atosz, s => ngxAtosz s
  | atoof, s => ngxAtoof s
  | atotm, s => ngxAtotm s
  | hextoi, s => ngxHextoi s
  | atofp point, s => ngxAtofp s point

/-- The number a text denotes, if it is a numeral of the form with a digit at least -/
def denotes : Reader → List UInt8 → Option ℕ
  | hextoi, s => if s = [] then none else (digits hexDigit s).map (value 16)
  | atofp point, s => if (places s).1++(places s).2 = [] then none else fixedPoint point s
  | _, s => if s = [] then none else (digits decimalDigit s).map (value 10)

@[reducible] def Exact (r : Reader) (s : List UInt8) : Prop :=
  r.read s = (r.denotes s).elim ngxError fun v => if v < 2^63 then (v : ℤ) else ngxError

def accepts : Reader → List UInt8 → Option ℕ
  | atofp point, s => if s = [] ∨ point = 0 then none else fixedPoint point s
  | r, s => r.denotes s

/-- No point without digits is read, numbers without places are not read at all, and a number too
large is seen to be. -/
structure Sound (r : Reader) (s : List UInt8) : Prop where
  places : ∀ v, r.denotes s = some v → v < 2^63 → r ≠ .atofp 0
  sign : ∀ v, r.denotes s = some v → 2^63 ≤ v → r = .atofp 0 ∨ 2^63 ≤ v%2^64
  digit : ∀ point, r = .atofp point → s = [46] → point = 0

end Reader

/-! The loops -/

theorem number_loop (base : ℕ) (digit : UInt8 → Option ℕ) (v : ℤ) (s : List UInt8) :
    numberLoop base digit v s = (digits digit s).map (accumulate base v) := by
  induction s generalizing v with
  | nil => rfl
  | cons ch s ih =>
    rw [numberLoop, digits]
    cases digit ch with
    | none => rfl
    | some d =>
      simp only [ih, Option.bind_some, Option.map_map]
      rfl

theorem read_number (base : ℕ) (digit : UInt8 → Option ℕ) (s : List UInt8) :
    readNumber base digit s = (if s = [] then none else (digits digit s).map (value base)).elim
      ngxError fun v => checkSign (offT v) := by
  rw [readNumber, number_loop]
  by_cases h : s = []
  · rw [if_pos h, if_pos h, Option.elim_none]
  rw [if_neg h, if_neg h]
  cases digits digit s with
  | none => rw [Option.map_none, Option.map_none, Option.elim_none]
  | some ds => rw [Option.map_some, Option.map_some, Option.elim_some, accumulate_value]

theorem scale_loop (n : ℕ) (v : ℤ) : scaleLoop n (offT v) = offT (v*10^n) := by
  induction n generalizing v with
  | zero => rw [pow_zero, mul_one]; rfl
  | succ n ih =>
    rw [scaleLoop, mul_comm, off_mul_off, ih, pow_succ]
    congr 1
    ring

theorem point_behind (v : ℤ) (point : ℕ) (s : List UInt8) :
    pointLoop v true point s = if point < s.length then none
      else (digits decimalDigit s).map fun ds => (accumulate 10 v ds,point-s.length) := by
  induction s generalizing v point with
  | nil => rw [if_neg (by simp)]; rfl
  | cons ch s ih =>
    rw [pointLoop, List.length_cons]
    by_cases hpoint : point = 0
    · rw [if_pos hpoint, if_pos (by omega)]
    have hdot : decimalDigit 46 = none := by decide
    rw [if_neg hpoint, digits]
    by_cases hch : ch = 46
    · rw [if_pos hch, if_pos rfl, hch, hdot]
      split_ifs <;> rfl
    rw [if_neg hch]
    cases decimalDigit ch with
    | none => split_ifs <;> rfl
    | some d =>
      simp only [ih, Bool.toNat_true, Option.bind_some, Option.map_map,
        show point-1 < s.length ↔ point < s.length+1 by omega,
        show point-1-s.length = point-(s.length+1) by omega]
      rfl

theorem point_front {v : ℤ} {point : ℕ} {s rest : List UInt8} (hpoint : point ≠ 0)
    (hs : 46 ∉ s) : pointLoop v false point (s++rest) =
      (digits decimalDigit s).bind fun ds => pointLoop (accumulate 10 v ds) false point rest := by
  induction s generalizing v with
  | nil => rfl
  | cons ch s ih =>
    have hch : ch ≠ 46 := fun h => hs (h ▸ List.mem_cons_self)
    rw [List.cons_append, pointLoop, if_neg hpoint, if_neg hch, digits]
    cases decimalDigit ch with
    | none => rfl
    | some d =>
      simp only [Bool.toNat_false, Nat.sub_zero]
      rw [ih fun h => hs (List.mem_cons_of_mem ch h), Option.bind_some, Option.bind_map]
      rfl

theorem places_split (s : List UInt8) : 46 ∉ (places s).1 ∧
    ((s = (places s).1 ∧ (places s).2 = []) ∨ s = (places s).1++46::(places s).2) := by
  have hsplit := List.takeWhile_append_dropWhile (p := (· ≠ (46 : UInt8))) (l := s)
  refine ⟨fun h => by simpa using List.mem_takeWhile_imp h,?_⟩
  cases hrest : s.dropWhile (· ≠ (46 : UInt8)) with
  | nil =>
    rw [hrest, List.append_nil] at hsplit
    exact Or.inl ⟨hsplit.symm,by rw [places, hrest]; rfl⟩
  | cons x rest =>
    have hx : x = 46 := by
      have hne : s.dropWhile (· ≠ (46 : UInt8)) ≠ [] := by
        rw [hrest]
        exact List.cons_ne_nil x rest
      have hhead := List.head_dropWhile_not (p := (· ≠ (46 : UInt8))) hne
      simp only [hrest, List.head_cons] at hhead
      simpa using hhead
    rw [hrest, hx] at hsplit
    refine Or.inr ?_
    rw [places, hrest]
    exact hsplit.symm

theorem point_loop {point : ℕ} (hpoint : point ≠ 0) (s : List UInt8) :
    pointLoop 0 false point s = if point < (places s).2.length then none
      else (digits decimalDigit ((places s).1++(places s).2)).map fun ds =>
        (accumulate 10 0 ds,point-(places s).2.length) := by
  obtain ⟨hfree,hs⟩ := places_split s
  generalize places s = w at hfree hs
  obtain ⟨ws,fs⟩ := w
  rcases hs with ⟨hws,hfs⟩|hs
  · simp only at hfree hws hfs ⊢
    rw [hfs, hws, List.length_nil, if_neg (Nat.not_lt_zero point), List.append_nil]
    have hfront : pointLoop 0 false point (ws++[]) = (digits decimalDigit ws).bind fun ds =>
        pointLoop (accumulate 10 0 ds) false point [] := point_front hpoint hfree
    rw [List.append_nil] at hfront
    rw [hfront]
    cases digits decimalDigit ws <;> rfl
  simp only at hfree hs ⊢
  have hpast (v : ℤ) : pointLoop v false point (46::fs) = pointLoop v true point fs := by
    rw [pointLoop, if_neg hpoint, if_pos rfl]
    rfl
  rw [hs, point_front hpoint hfree, digits_append]
  cases digits decimalDigit ws with
  | none => split_ifs <;> rfl
  | some ds =>
    simp only [Option.bind_some, hpast, point_behind]
    split_ifs
    · rfl
    · simp only [Option.map_map, Function.comp_def, accumulate_append]

theorem read_accepts (r : Reader) (s : List UInt8) :
    r.read s = (r.accepts s).elim ngxError fun v => checkSign (offT v) := by
  cases r with
  | atofp point =>
    rw [Reader.read, Reader.accepts, ngxAtofp]
    by_cases hs : s = []
    · rw [if_pos hs, if_pos (Or.inl hs), Option.elim_none]
    by_cases hpoint : point = 0
    · obtain ⟨ch,s,rfl⟩ := List.exists_cons_of_ne_nil hs
      rw [if_neg hs, if_pos (Or.inr hpoint), pointLoop, if_pos hpoint, Option.elim_none]
    rw [if_neg hs, if_neg (not_or.mpr ⟨hs,hpoint⟩), point_loop hpoint, fixedPoint]
    split_ifs
    · rw [Option.elim_none]
    · cases digits decimalDigit ((places s).1++(places s).2) with
      | none => rw [Option.map_none, Option.map_none, Option.elim_none]
      | some ds =>
        rw [Option.map_some, Option.map_some, Option.elim_some, accumulate_value]
        simp only [scale_loop]
        push_cast
        rfl
  | atoi => exact read_number 10 decimalDigit s
  | atosz => exact read_number 10 decimalDigit s
  | atoof => exact read_number 10 decimalDigit s
  | atotm => exact read_number 10 decimalDigit s
  | hextoi => exact read_number 16 hexDigit s

theorem check_error (v : ℕ) : checkSign (offT v) = ngxError ↔ 2^63 ≤ v%2^64 := by
  obtain ⟨hsign,hvalue⟩ := off_value v
  rw [checkSign, ngxError]
  by_cases hneg : offT (v : ℤ) < 0
  · rw [if_pos hneg]
    exact ⟨fun _ => by omega,fun _ => rfl⟩
  · rw [if_neg hneg]
    omega

theorem check_value (v : ℕ) : checkSign (offT v) = v ↔ v < 2^63 := by
  obtain ⟨hsign,hvalue⟩ := off_value v
  rw [checkSign, ngxError]
  by_cases hneg : offT (v : ℤ) < 0
  · rw [if_pos hneg]
    exact ⟨fun h => absurd h (by omega),fun _ => by omega⟩
  · rw [if_neg hneg]
    omega

theorem check_exact (v : ℕ) :
    checkSign (offT v) = (if v < 2^63 then (v : ℤ) else ngxError) ↔ (2^63 ≤ v → 2^63 ≤ v%2^64) := by
  by_cases hv : v < 2^63
  · rw [if_pos hv, check_value]
    exact ⟨fun _ h => absurd hv (by omega),fun _ => hv⟩
  · rw [if_neg hv, check_error]
    exact ⟨fun h _ => h,fun h => h (by omega)⟩

theorem exact_same {r : Reader} {s : List UInt8} (h : r.accepts s = r.denotes s) :
    r.Exact s ↔ ∀ v, r.denotes s = some v → 2^63 ≤ v → 2^63 ≤ v%2^64 := by
  rw [Reader.Exact, read_accepts, h]
  cases r.denotes s with
  | none => simp
  | some v =>
    rw [Option.elim_some, Option.elim_some, check_exact]
    exact ⟨fun h w hw => Option.some.inj hw ▸ h,fun h => h v rfl⟩

theorem places_nil {s : List UInt8} (h : (places s).1++(places s).2 = []) : s = [] ∨ s = [46] := by
  obtain ⟨h1,h2⟩ := List.append_eq_nil_iff.mp h
  rcases (places_split s).2 with ⟨hs,-⟩|hs
  · exact Or.inl (hs.trans h1)
  · rw [h1, h2] at hs
    exact Or.inr hs

theorem exact_iff (r : Reader) (s : List UInt8) : r.Exact s ↔ r.Sound s := by
  have hplain (hr : ∀ point, r ≠ .atofp point) (h : r.accepts s = r.denotes s) :
      r.Exact s ↔ r.Sound s := by
    rw [exact_same h]
    exact ⟨fun h => ⟨fun _ _ _ => hr 0,fun v hv hlarge => Or.inr (h v hv hlarge),
      fun point heq => absurd heq (hr point)⟩,
      fun h v hv hlarge => (h.sign v hv hlarge).resolve_left (hr 0)⟩
  cases r with
  | atofp point =>
    by_cases hpoint : point = 0
    · subst hpoint
      have hdigit : ∀ point, Reader.atofp 0 = .atofp point → s = [46] → point = 0 :=
        fun _ h _ => (Reader.atofp.inj h).symm
      rw [Reader.Exact, read_accepts, Reader.accepts, if_pos (Or.inr rfl), Option.elim_none]
      cases hv : (Reader.atofp 0).denotes s with
      | none => exact ⟨fun _ => ⟨by simp [hv],by simp [hv],hdigit⟩,fun _ => rfl⟩
      | some v =>
        rw [Option.elim_some]
        by_cases hsmall : v < 2^63
        · rw [if_pos hsmall, ngxError]
          exact ⟨fun h => absurd h (by omega),fun h => absurd rfl (h.places v hv hsmall)⟩
        rw [if_neg hsmall]
        refine ⟨fun _ => ⟨fun w hw hlt => ?_,fun _ _ _ => Or.inl rfl,hdigit⟩,fun _ => rfl⟩
        rw [hv] at hw
        exact absurd (Option.some.inj hw ▸ hlt) hsmall
    have hne : Reader.atofp point ≠ .atofp 0 := fun h => hpoint (Reader.atofp.inj h)
    by_cases hs : s = [46]
    · subst hs
      have hform : fixedPoint point [46] = some 0 := by
        simp [fixedPoint, places, digits, value, valueFrom]
      have hzero : checkSign (offT (0 : ℕ)) = 0 := by decide
      have hread : (Reader.atofp point).read [46] = 0 := by
        rw [read_accepts, Reader.accepts, if_neg (by simp [hpoint]), hform, Option.elim_some, hzero]
      have hnone : (Reader.atofp point).denotes [46] = none := by
        rw [Reader.denotes, if_pos (by decide)]
      refine ⟨fun h => ?_,fun h => absurd (h.digit point rfl rfl) hpoint⟩
      rw [Reader.Exact, hread, hnone, Option.elim_none] at h
      exact absurd h (by decide)
    have hsame : (Reader.atofp point).accepts s = (Reader.atofp point).denotes s := by
      rw [Reader.accepts, Reader.denotes]
      by_cases hnil : s = []
      · subst hnil
        rfl
      · rw [if_neg (not_or.mpr ⟨hnil,hpoint⟩),
          if_neg fun h => (places_nil h).elim hnil hs]
    rw [exact_same hsame]
    exact ⟨fun h => ⟨fun _ _ _ => hne,fun v hv hlarge => Or.inr (h v hv hlarge),
      fun _ _ heq => absurd heq hs⟩,
      fun h v hv hlarge => (h.sign v hv hlarge).resolve_left hne⟩
  | atoi => exact hplain (fun _ h => by cases h) rfl
  | atosz => exact hplain (fun _ h => by cases h) rfl
  | atoof => exact hplain (fun _ h => by cases h) rfl
  | atotm => exact hplain (fun _ h => by cases h) rfl
  | hextoi => exact hplain (fun _ h => by cases h) rfl

/-- A reader gives the number or an error just when it is sound for the text, and a `Content-Length`
is right or refused just when its reader is. -/
theorem numerals_exact (r : Reader) (s : List UInt8) :
    (r.Exact s ↔ r.Sound s) ∧
      ((contentLengthN s = none ∨
          ∃ v, Reader.atoof.denotes s = some v ∧ contentLengthN s = some (v : ℤ)) ↔
        Reader.atoof.Sound s) := by
  refine ⟨exact_iff r s,?_⟩
  have hread := read_accepts .atoof s
  rw [← exact_iff, exact_same rfl, contentLengthN]
  rw [show Reader.atoof.accepts s = Reader.atoof.denotes s from rfl,
    show Reader.atoof.read s = ngxAtoof s from rfl] at hread
  cases hv : Reader.atoof.denotes s with
  | none =>
    rw [hv, Option.elim_none] at hread
    simp [hread]
  | some v =>
    rw [hv, Option.elim_some] at hread
    have herror := check_error v
    have hvalue := check_value v
    rw [← hread] at herror hvalue
    by_cases hminus : ngxAtoof s = ngxError
    · rw [if_pos hminus]
      refine ⟨fun _ w hw _ => ?_,fun _ => Or.inl rfl⟩
      rw [← Option.some.inj hw]
      exact herror.mp hminus
    rw [if_neg hminus]
    constructor
    · rintro (h|⟨w,hw,hn⟩) x hx hlarge
      · cases h
      · obtain rfl := Option.some.inj hw
        obtain rfl := Option.some.inj hx
        exact absurd (hvalue.mp (Option.some.inj hn)) (by omega)
    · intro h
      have hsmall : v < 2^63 := by
        by_contra hlarge
        exact hminus (herror.mpr (h v rfl (by omega)))
      exact Or.inr ⟨v,rfl,congrArg some (hvalue.mpr hsmall)⟩

/-- `18446744073709551617`, which is 2^64+1 -/
def wrapped : List UInt8 :=
  [49,56,52,52,54,55,52,52,48,55,51,55,48,57,53,53,49,54,49,55]

theorem wrapped_read : Reader.atoof.read wrapped = 1 ∧ ¬Reader.atoof.Exact wrapped ∧
    contentLengthN wrapped = some 1 := by decide +kernel

end Nginx.Atoi
