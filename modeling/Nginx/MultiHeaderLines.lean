import Mathlib.Algebra.Group.Nat.Even
import Mathlib.Data.List.Induction
import Nginx.GzipAcceptLaw
import Nginx.QueryArg

/-!
# A field among several header lines

A pointer is what the value holds from it on, with the zero byte that ends it: it is at `end`
when one byte is left and beyond it when none is. `none` is a read behind that byte.
-/

set_option autoImplicit false

namespace Nginx.MultiHeaderLines
open Nginx.HeaderHash Nginx.GzipAccept Nginx.QueryArg

/-! The code -/

@[grind =] def skipSpaces : List UInt8 → List UInt8
  | [] => []
  | c::s => if s = [] then [c] else if c = 32 then skipSpaces s else c::s

/-- The label `skip` up to the separator -/
@[grind =] def skip : List UInt8 → List UInt8
  | [] => []
  | c::s => if s = [] then [c] else if c = 59 ∨ c = 44 then s else skip s

@[grind =] def valueLen : List UInt8 → ℕ
  | [] => 0
  | c::s => if s = [] ∨ c = 59 then 0 else valueLen s+1

/-- What one line gives: nothing, the name alone, or the value with what follows it -/
inductive Scan where
  | over
  | name
  | value (data : List UInt8) (len : ℕ)
  deriving DecidableEq, Repr

/-- The loop over one line, with a bound on its turns; `wanted` when `value` is not null -/
@[grind =] def scanLine (wanted : Bool) (name : List UInt8) : ℕ → List UInt8 → Option Scan
  | 0, _ => none
  | fuel+1, start =>
    if start.length ≤ 1 then some .over
    else (ngxStrncasecmp start name).bind fun equal =>
      if ¬equal then scanLine wanted name fuel (skipSpaces (skip start))
      else
        let start := skipSpaces (start.drop name.length)
        if ¬wanted then
          if start.length = 1 then some .name
          else start.head?.bind fun c =>
            if c = 44 then some .name
            else scanLine wanted name fuel (skipSpaces (skip start))
        else if start.length = 1 then scanLine wanted name fuel (skipSpaces (skip start))
        else start.head?.bind fun c =>
          if c ≠ 61 then scanLine wanted name fuel (skipSpaces (skip start.tail))
          else
            let start := skipSpaces start.tail
            some (.value start (valueLen start))

inductive Answer where
  | declined
  | index (i : ℕ) (value : Option (List UInt8 × ℕ))
  deriving DecidableEq, Repr

/-- The loop over the lines from the one with the index `i` on -/
@[grind =] def linesFrom (wanted : Bool) (name : List UInt8) : ℕ → List (List UInt8) → Option Answer
  | _, [] => some .declined
  | i, h::hs =>
    if h.length < name.length then linesFrom wanted name (i+1) hs
    else (scanLine wanted name (h.length+1) (h++[0])).bind fun
      | .over => linesFrom wanted name (i+1) hs
      | .name => some (.index i none)
      | .value data len => some (.index i (some (data, len)))

def ngxHttpParseMultiHeaderLines (wanted : Bool) (headers : List (List UInt8))
    (name : List UInt8) : Option Answer :=
  linesFrom wanted name 0 headers

/-! Fields -/

/-- What may stand in the name of a field: no zero byte, no space and no separator -/
structure FieldName where
  text : List UInt8
  token : ∀ c ∈ text, c ≠ 0 ∧ c ≠ 32 ∧ c ≠ 44 ∧ c ≠ 59

structure HeaderValue where
  text : List UInt8
  begins : text.head? ≠ some 32

def trim (s : List UInt8) : List UInt8 := s.dropWhile (· = 32)

@[grind =] def behind : List UInt8 → List (List UInt8)
  | [] => []
  | c::s => if c = 59 ∨ c = 44 then s::behind s else behind s

def fields (text : List UInt8) : List (List UInt8) := (text::behind text).map trim

/-- What a field `name = value` holds from the value on -/
def fieldData (name field : List UInt8) : Option (List UInt8) :=
  if ngxStrlow (field.take name.length) = ngxStrlow name then
    match trim (field.drop name.length) with
    | 61::s => some (trim s)
    | _ => none
  else none

def bare (name field : List UInt8) : Bool :=
  ngxStrlow (field.take name.length) = ngxStrlow name ∧
    ((trim (field.drop name.length)).head?).all fun c => c = 59 ∨ c = 44

def valueOf (data : List UInt8) : List UInt8 := data.takeWhile (· ≠ 59)

/-- The first line with such a field, and what it holds from the value of the first one on -/
@[grind =] def firstLine (name : List UInt8) : ℕ → List (List UInt8) → Answer
  | _, [] => .declined
  | i, h::hs =>
    match (fields h).findSome? (fieldData name) with
    | some data => .index i (some (data++[0], (valueOf data).length))
    | none => firstLine name (i+1) hs

/-- The fields with nothing but the name that stand directly before the first one with a value -/
def bareBefore (name : List UInt8) (fs : List (List UInt8)) : ℕ :=
  ((fs.takeWhile fun f => fieldData name f = none).reverse.takeWhile (bare name)).length

/-! ## Positions -/

theorem skip_spaces_end (s : List UInt8) : skipSpaces (s++[0]) = trim s++[0] := by
  induction s with
  | nil => rfl
  | cons c s ih =>
    rw [List.cons_append, skipSpaces, if_neg (by simp), ih, trim, trim, List.dropWhile_cons]
    by_cases hc : c = 32
    · simp [hc]
    · simp [hc]

theorem skip_end (s : List UInt8) : skip (s++[0]) = (behind s).headD []++[0] := by
  induction s with
  | nil => rfl
  | cons c s ih =>
    rw [List.cons_append, skip, if_neg (by simp), ih, behind]
    by_cases hc : c = 59 ∨ c = 44
    · rw [if_pos hc, if_pos hc, List.headD_cons]
    · rw [if_neg hc, if_neg hc]

theorem value_len_end (s : List UInt8) : valueLen (s++[0]) = (valueOf s).length := by
  induction s with
  | nil => rfl
  | cons c s ih =>
    rw [List.cons_append, valueLen, ih, valueOf, valueOf, List.takeWhile_cons]
    by_cases hc : c = 59
    · simp [hc]
    · simp [hc]

theorem behind_chain (s t : List UInt8) (ts : List (List UInt8)) (h : behind s = t::ts) :
    ts = behind t := by
  induction s with
  | nil => cases h
  | cons c s ih =>
    rw [behind] at h
    split at h
    · cases h
      rfl
    · exact ih h

theorem behind_length (s t : List UInt8) (h : t ∈ behind s) : t.length < s.length := by
  induction s with
  | nil => cases h
  | cons c s ih =>
    rw [behind] at h
    split at h
    · rcases List.mem_cons.mp h with rfl | h
      · exact Nat.lt_succ_self _
      · exact Nat.lt_succ_of_lt (ih h)
    · exact Nat.lt_succ_of_lt (ih h)

theorem behind_append (n s : List UInt8) (h : ∀ c ∈ n, ¬(c = 59 ∨ c = 44)) :
    behind (n++s) = behind s := by
  induction n with
  | nil => rfl
  | cons c n ih =>
    rw [List.cons_append, behind, if_neg (h c (by simp))]
    exact ih fun d hd => h d (by simp [hd])

theorem behind_trim (s : List UInt8) : behind (trim s) = behind s := by
  induction s with
  | nil => rfl
  | cons c s ih =>
    rw [trim, List.dropWhile_cons]
    split
    · rename_i hc
      rw [decide_eq_true_eq] at hc
      rw [behind, if_neg (by simp [hc])]
      exact ih
    · rfl

theorem trim_length (s : List UInt8) : (trim s).length ≤ s.length :=
  (List.dropWhile_suffix _).length_le

/-! ## One field -/

variable {name : FieldName}

theorem name_plain (name : FieldName) : ∀ c ∈ name.text, ngxTolower c ≠ 0 := fun c hc h =>
  (name.token c hc).1 ((tolower_low c (by decide)).mp h)

theorem name_behind {n : List UInt8} (hn : ngxStrlow n = ngxStrlow name.text) (s : List UInt8) :
    behind (n++s) = behind s := by
  refine behind_append n s fun c hc hsep => ?_
  have hm : ngxTolower c ∈ ngxStrlow name.text := hn ▸ List.mem_map_of_mem hc
  obtain ⟨d,hd,he⟩ := List.mem_map.mp hm
  have ⟨_,_,h44,h59⟩ := name.token d hd
  rcases hsep with rfl | rfl
  · exact h59 ((tolower_low d (by decide)).mp he)
  · exact h44 ((tolower_low d (by decide)).mp he)

theorem data_nil (name : List UInt8) : fieldData name [] = none := by
  rw [fieldData, List.drop_nil]
  split
  · rfl
  · rfl

theorem data_length (name f d : List UInt8) (h : fieldData name f = some d) :
    name.length+d.length < f.length := by
  unfold fieldData at h
  split at h
  · rename_i hn
    have hl : (f.take name.length).length = name.length := by
      simpa [ngxStrlow] using congrArg List.length hn
    rw [List.length_take] at hl
    split at h
    · rename_i s hs
      cases h
      have h1 := trim_length (f.drop name.length)
      have h2 := trim_length s
      rw [hs, List.length_drop, List.length_cons] at h1
      omega
    · cases h
  · cases h

theorem data_behind (f d : List UInt8) (h : fieldData name.text f = some d) :
    behind f = behind d := by
  unfold fieldData at h
  split at h
  · rename_i hn
    split at h
    · rename_i s hs
      cases h
      rw [← List.take_append_drop name.text.length f, name_behind hn, ← behind_trim, hs, behind,
        if_neg (by decide), behind_trim]
    · cases h
  · cases h

/-! ## One line -/

/-- The fields that the loop looks at: it passes over the one behind a bare name. -/
@[grind =] def reached (name : List UInt8) : Bool → List (List UInt8) → Option (List UInt8)
  | _, [] => none
  | true, _::fs => reached name false fs
  | false, f::fs =>
    match fieldData name f with
    | some data => some data
    | none => reached name (bare name f) fs

def scanned : Option (List UInt8) → Scan
  | none => .over
  | some data => .value (data++[0]) (valueOf data).length

theorem scan_skip (fuel : ℕ) (u : List UInt8) (h0 : 0 < fuel) (hu : u.length ≤ fuel)
    (ih : ∀ s : List UInt8, s.length < fuel → scanLine true name.text fuel (s++[0]) =
      some (scanned (reached name.text false (s::(behind s).map trim)))) :
    scanLine true name.text fuel (skipSpaces (skip (u++[0]))) =
      some (scanned (reached name.text false ((behind u).map trim))) := by
  rw [skip_end, skip_spaces_end]
  cases hb : behind u with
  | nil =>
    rw [List.headD_nil, ih (trim []) h0]
    simp [trim, behind, reached, data_nil]
  | cons t ts =>
    have ht : t.length < u.length := behind_length u t (by simp [hb])
    rw [List.headD_cons, ih (trim t) (by have := trim_length t; omega), behind_trim,
      List.map_cons, behind_chain u t ts hb]

theorem scan_line (fuel : ℕ) (s : List UInt8) (h : s.length < fuel) :
    scanLine true name.text fuel (s++[0]) =
      some (scanned (reached name.text false (s::(behind s).map trim))) := by
  induction fuel generalizing s with
  | zero => cases h
  | succ fuel ih =>
    rcases s.eq_nil_or_concat with rfl | hs
    · simp [scanLine, reached, behind, data_nil, scanned]
    have hpos : 0 < s.length := by
      obtain ⟨l,a,rfl⟩ := hs
      simp
    have hskip (u : List UInt8) (hu : u.length ≤ s.length) :
        scanLine true name.text fuel (skipSpaces (skip (u++[0]))) =
          some (scanned (reached name.text false ((behind u).map trim))) :=
      scan_skip fuel u (by omega) (by omega) ih
    have hlong : ¬(s++[0]).length ≤ 1 := by
      rw [List.length_append, List.length_singleton]
      omega
    rw [scanLine, if_neg hlong, GzipAcceptLaw.strncasecmp_text s _ (name_plain name),
      Option.bind_some, reached]
    by_cases hn : ngxStrlow (s.take name.text.length) = ngxStrlow name.text
    · have hl : (s.take name.text.length).length = name.text.length := by
        simpa [ngxStrlow] using congrArg List.length hn
      have hlen : name.text.length ≤ s.length := by
        rw [List.length_take] at hl
        omega
      have hb : behind s = behind (trim (s.drop name.text.length)) := by
        conv_lhs => rw [← List.take_append_drop name.text.length s]
        rw [name_behind hn, behind_trim]
      have hd : (trim (s.drop name.text.length)).length ≤ s.length :=
        (trim_length _).trans (List.length_drop ▸ Nat.sub_le _ _)
      rw [if_neg (by simp [hn]), List.drop_append_of_le_length hlen, skip_spaces_end, hb,
        fieldData, if_pos hn, bare]
      generalize trim (s.drop name.text.length) = r at hd ⊢
      rcases r with _ | ⟨c,u⟩
      · have := hskip [] (Nat.zero_le _)
        simpa [behind, reached] using this
      have hu := hskip u (Nat.le_of_succ_le hd)
      by_cases hc : c = 61
      · simp [hc, scanned, skip_spaces_end, value_len_end]
      by_cases hsep : c = 59 ∨ c = 44
      · simp [hc, hu, hsep, hn, behind, reached]
      · simp [hc, hu, hsep, behind]
    · have hu := hskip s le_rfl
      simp [hn, fieldData, bare, hu]

/-! ## The fields that are looked at -/

def passes (name : List UInt8) (fs : List (List UInt8)) : Bool :=
  fs.foldl (fun passed f => !passed && bare name f) false

theorem reached_append (name : List UInt8) (pre fs : List (List UInt8)) (passed : Bool)
    (h : ∀ f ∈ pre, fieldData name f = none) : reached name passed (pre++fs) =
      reached name (pre.foldl (fun passed f => !passed && bare name f) passed) fs := by
  induction pre generalizing passed with
  | nil => rfl
  | cons f pre ih =>
    have hpre := fun passed => ih passed fun g hg => h g (by simp [hg])
    rw [List.cons_append, List.foldl_cons, ← hpre]
    cases passed with
    | true => rfl
    | false => simp [reached, h f]

theorem passes_odd (name : List UInt8) (fs : List (List UInt8)) :
    passes name fs = true ↔ ¬Even ((fs.reverse.takeWhile (bare name)).length) := by
  induction fs using List.reverseRecOn with
  | nil => simp [passes]
  | append_singleton fs f ih =>
    have hstep : passes name (fs++[f]) = (!passes name fs && bare name f) := by
      simp [passes]
    rw [hstep, List.reverse_append, List.reverse_singleton, List.singleton_append,
      List.takeWhile_cons]
    by_cases hf : bare name f = true
    · rw [if_pos hf, List.length_cons, Nat.even_add_one, ← ih, hf]
      simp
    · simp [hf]

theorem reached_none (name : List UInt8) (fs : List (List UInt8)) (passed : Bool)
    (h : ∀ f ∈ fs, fieldData name f = none) : reached name passed fs = none := by
  have := reached_append name fs [] passed h
  rw [List.append_nil] at this
  rw [this]
  cases fs.foldl (fun passed f => !passed && bare name f) passed <;> rfl

theorem reached_mem (name : List UInt8) (fs : List (List UInt8)) (passed : Bool) (d : List UInt8)
    (h : reached name passed fs = some d) : ∃ f ∈ fs, fieldData name f = some d := by
  induction fs generalizing passed with
  | nil => cases passed <;> cases h
  | cons f fs ih =>
    have hnext : ∀ passed, reached name passed fs = some d →
        ∃ g ∈ f::fs, fieldData name g = some d := fun passed hr => by
      obtain ⟨g,hg,hd⟩ := ih passed hr
      exact ⟨g,by simp [hg],hd⟩
    cases passed with
    | true => exact hnext false h
    | false =>
      rw [reached] at h
      split at h
      · rename_i data hdata
        cases h
        exact ⟨f,by simp,hdata⟩
      · exact hnext _ h

theorem fields_chain (text f : List UInt8) (pre rest : List (List UInt8))
    (h : fields text = pre++f::rest) : rest = (behind f).map trim := by
  induction pre generalizing text with
  | nil =>
    cases h
    rw [behind_trim]
  | cons g pre ih =>
    rw [fields, List.map_cons, List.cons_append, List.cons.injEq] at h
    cases hb : behind text with
    | nil =>
      rw [hb] at h
      exact absurd h.2.symm (by simp)
    | cons t ts =>
      rw [hb, behind_chain text t ts hb] at h
      exact ih t h.2

theorem later_shorter (f d g e : List UInt8) (h : fieldData name.text f = some d)
    (hg : g ∈ (behind f).map trim) (he : fieldData name.text g = some e) :
    e.length < d.length := by
  obtain ⟨t,ht,rfl⟩ := List.mem_map.mp hg
  rw [data_behind f d h] at ht
  have := behind_length d t ht
  have := trim_length t
  have := data_length _ _ _ he
  omega

theorem reached_exact (text d : List UInt8)
    (h : (fields text).findSome? (fieldData name.text) = some d) :
    reached name.text false (fields text) = some d ↔
      Even (bareBefore name.text (fields text)) := by
  obtain ⟨pre,f,rest,hsplit,hf,hpre⟩ := List.findSome?_eq_some_iff.mp h
  have hwhile : (fields text).takeWhile (fun f => fieldData name.text f = none) = pre := by
    rw [hsplit, List.takeWhile_append_of_pos fun g hg => by simpa using hpre g hg,
      List.takeWhile_cons, if_neg (by simp [hf]), List.append_nil]
  rw [bareBefore, hwhile, hsplit, reached_append _ pre _ _ hpre, ← not_iff_not, ← passes_odd,
    passes]
  cases pre.foldl (fun passed f => !passed && bare name.text f) false with
  | false => simp [reached, hf]
  | true =>
    refine iff_of_true (fun hr => ?_) rfl
    obtain ⟨g,hg,he⟩ := reached_mem _ rest false d hr
    rw [fields_chain text f pre rest hsplit] at hg
    exact lt_irrefl _ (later_shorter f d g d hf hg he)

/-! ## All lines -/

theorem header_scan (h : HeaderValue) :
    scanLine true name.text (h.text.length+1) (h.text++[0]) =
      some (scanned (reached name.text false (fields h.text))) := by
  have ht : trim h.text = h.text := by
    rcases hs : h.text with _ | ⟨c,s⟩
    · rfl
    · have hc : c ≠ 32 := fun he => h.begins (by rw [hs, he]; rfl)
      rw [trim, List.dropWhile_cons, if_neg (by simpa using hc)]
  rw [scan_line _ _ (Nat.lt_succ_self _), fields, List.map_cons, ht]

theorem lines_step (i : ℕ) (h : HeaderValue) (hs : List (List UInt8)) :
    linesFrom true name.text i (h.text::hs) =
      match reached name.text false (fields h.text) with
      | some d => some (.index i (some (d++[0], (valueOf d).length)))
      | none => linesFrom true name.text (i+1) hs := by
  rw [linesFrom]
  split
  · rename_i hlen
    rw [reached_none]
    intro f hf
    cases hd : fieldData name.text f with
    | none => rfl
    | some d =>
      have hl := data_length _ _ _ hd
      have : f.length ≤ h.text.length := by
        obtain ⟨t,ht,rfl⟩ := List.mem_map.mp hf
        rcases List.mem_cons.mp ht with rfl | ht
        · exact trim_length _
        · exact (trim_length t).trans (behind_length _ _ ht).le
      omega
  · rw [header_scan, Option.bind_some]
    cases reached name.text false (fields h.text) <;> rfl

theorem lines_answer (i : ℕ) (hs : List HeaderValue) :
    ∃ a, linesFrom true name.text i (hs.map (·.text)) = some a ∧
      ∀ j v, a = .index j v → i ≤ j := by
  induction hs generalizing i with
  | nil => exact ⟨.declined,rfl,fun j v h => by cases h⟩
  | cons h hs ih =>
    obtain ⟨a,ha,hj⟩ := ih (i+1)
    rw [List.map_cons, lines_step]
    cases reached name.text false (fields h.text) with
    | none => exact ⟨a,ha,fun j v he => Nat.le_of_succ_le (hj j v he)⟩
    | some d =>
      refine ⟨_,rfl,fun j v he => ?_⟩
      cases he
      exact le_rfl

theorem lines_exact (i : ℕ) (hs : List HeaderValue) :
    linesFrom true name.text i (hs.map (·.text)) =
        some (firstLine name.text i (hs.map (·.text))) ↔
      ∀ h ∈ (hs.map (·.text)).find? fun h =>
          ((fields h).findSome? (fieldData name.text)).isSome,
        Even (bareBefore name.text (fields h)) := by
  induction hs generalizing i with
  | nil => simp [linesFrom, firstLine]
  | cons h hs ih =>
    rw [List.map_cons, lines_step, firstLine, List.find?_cons]
    cases hf : (fields h.text).findSome? (fieldData name.text) with
    | none =>
      rw [reached_none _ _ _ (List.findSome?_eq_none_iff.mp hf)]
      exact ih (i+1)
    | some d =>
      have hexact := reached_exact h.text d hf
      simp only [Option.isSome_some, Option.mem_some_iff, forall_eq']
      rw [← hexact]
      cases hr : reached name.text false (fields h.text) with
      | some e =>
        constructor
        · intro he
          have hd : e++[0] = d++[0] := by
            simp only [Option.some.injEq, Answer.index.injEq, Prod.mk.injEq] at he
            exact he.2.1
          rw [List.append_cancel_right hd]
        · intro he
          cases he
          rfl
      | none =>
        obtain ⟨a,ha,hj⟩ := @lines_answer name (i+1) hs
        rw [ha]
        refine iff_of_false (fun he => ?_) (by simp)
        exact absurd (hj i _ (Option.some.inj he)) (by omega)

/-- No read is behind the zero byte. The first field with the name and a value is the one that is
found unless it is passed over: that is when fields with nothing but the name stand directly
before it, and an odd number of them. -/
theorem multi_header_lines_exact (name : FieldName) (headers : List HeaderValue) :
    (∃ a, ngxHttpParseMultiHeaderLines true (headers.map (·.text)) name.text = some a) ∧
    (ngxHttpParseMultiHeaderLines true (headers.map (·.text)) name.text =
        some (firstLine name.text 0 (headers.map (·.text))) ↔
      ∀ h ∈ (headers.map (·.text)).find? fun h =>
          ((fields h).findSome? (fieldData name.text)).isSome,
        Even (bareBefore name.text (fields h))) := by
  obtain ⟨a,ha,-⟩ := @lines_answer name 0 headers
  exact ⟨⟨a,ha⟩,lines_exact 0 headers⟩

/-- The name `a` in the line `a;a=1` -/
theorem bare_name_passes :
    ngxHttpParseMultiHeaderLines true [[97,59,97,61,49]] [97] = some .declined ∧
    firstLine [97] 0 [[97,59,97,61,49]] = .index 0 (some ([49,0], 1)) := by
  decide

end Nginx.MultiHeaderLines
