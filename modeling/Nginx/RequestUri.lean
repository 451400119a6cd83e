import Nginx.ComplexUriPath
import Nginx.RequestLine

/-!
# The URI strings of a request line

When the request line parser has seen nothing that needs normalisation, the
URI, its extension and its arguments are cut out of the buffer between the
pointers it left behind. Otherwise the complex URI scanner computes them from
the same raw URI. The two ways agree as long as the parser has looked at every
character of the URI; after spaces inside the URI it takes one character
without looking.
-/

set_option autoImplicit false

namespace Nginx.RequestUri
open Nginx.UriBytes Nginx.ComplexUri Nginx.ComplexUriPath Nginx.RequestLine

structure UriStrings where
  uri : List UInt8
  exten : List UInt8
  args : List UInt8
  deriving DecidableEq, Repr

def pathEnd (r : Request) (uriEnd : ℤ) : ℤ := if r.argsStart = 0 then uriEnd else r.argsStart-1

def pointerStrings (mem : Memory) (r : Request) : UriStrings where
  uri := bytes mem r.uriStart (pathEnd r r.uriEnd)
  exten := if r.uriExt = 0 then [] else bytes mem r.uriExt (pathEnd r r.uriEnd)
  args := if r.argsStart ≠ 0 ∧ r.argsStart < r.uriEnd then bytes mem r.argsStart r.uriEnd else []

def complexStrings (p : ParsedUri) : UriStrings where
  uri := p.uri
  exten := p.exten
  args := match p.argsStart with
    | some (ch :: rest) => ch :: rest
    | _ => p.args

def rawUri (mem : Memory) (r : Request) : List UInt8 := bytes mem r.uriStart r.uriEnd

/-- The part of `ngx_http_process_request_line` that sets the URI strings. -/
def ngxHttpProcessRequestLine (mem : Memory) (r : Request) (mergeSlashes : Bool) :
    Option UriStrings :=
  if r.complexUri ∨ r.quotedUri then
    (ngxHttpParseComplexUri (rawUri mem r) mergeSlashes).map complexStrings
  else some (pointerStrings mem r)

structure Plain (uri : List UInt8) : Prop where
  no_special : ∀ ch ∈ uri, ch ∉ ([nul, percent, hash] : List UInt8)
  no_slashes : ¬[slash, slash] <:+: uri
  no_dot : ¬[slash, dot, slash] <:+: uri
  no_dot_dot : ¬[slash, dot, dot, slash] <:+: uri

structure Agrees (mem : Memory) (r : Request) : Prop where
  same : ngxHttpProcessRequestLine mem r true =
    (ngxHttpParseComplexUri (rawUri mem r) true).map complexStrings
  plain : Plain (pointerStrings mem r).uri

/-- No character that the parser should look at directly follows a space. -/
def Examined (raw : List UInt8) : Prop :=
  ∀ pre ch post, raw = pre ++ space :: ch :: post →
    (question ∉ pre → ch ∉ ([nul, percent, hash, question, slash, dot] : List UInt8)) ∧
    (question ∈ pre → ch ≠ hash)

/-- No character that always needs the scanner directly follows a space. -/
def NoneSkipped (raw : List UInt8) : Prop :=
  ∀ pre ch post, raw = pre ++ space :: ch :: post →
    (question ∉ pre → ch ∉ ([nul, percent, hash, question] : List UInt8)) ∧
    (question ∈ pre → ch ≠ hash)

variable (raw : List UInt8)

theorem examined_prefix (rest : List UInt8) (h : Examined (raw ++ rest)) : Examined raw := by
  rintro pre ch post rfl
  exact h pre ch (post ++ rest) (by simp)

variable (ch : UInt8)

theorem examined_last (hlast : raw.getLast? = some space) (h : Examined (raw ++ [ch])) :
    (question ∉ raw → ch ∉ ([nul, percent, hash, question, slash, dot] : List UInt8)) ∧
      (question ∈ raw → ch ≠ hash) := by
  obtain ⟨pre,rfl⟩ := List.getLast?_eq_some_iff.mp hlast
  have hpre := h pre ch [] (by simp)
  simpa using hpre

theorem split_last (pre post : List UInt8) (ch x : UInt8) (h : raw ++ [ch] = pre ++ x :: post) :
    (raw = pre ∧ ch = x) ∨ ∃ rest, raw = pre ++ x :: rest ∧ post = rest ++ [ch] := by
  rcases List.eq_nil_or_concat post with rfl | ⟨rest,last,rfl⟩
  · have hc := List.append_inj' h rfl
    exact Or.inl ⟨hc.1,by simpa using hc.2⟩
  have ha : raw ++ [ch] = (pre ++ x :: rest) ++ [last] := by simpa using h
  have hc := List.append_inj' ha rfl
  have hl : ch = last := by simpa using hc.2
  exact Or.inr ⟨rest,hc.1,by simp [hl]⟩

@[grind =] def scanTo (mergeSlashes : Bool) : UriScan → List UInt8 → Option UriScan
  | c, [] => some c
  | c, ch :: rest =>
    match turn mergeSlashes c ch with
    | .next d => scanTo mergeSlashes d rest
    | _ => none

theorem scan_to_append (merge : Bool) (c : UriScan) (xs ys : List UInt8) :
    scanTo merge c (xs ++ ys) = (scanTo merge c xs).bind (fun d => scanTo merge d ys) := by
  induction xs generalizing c with
  | nil => rfl
  | cons ch xs ih =>
    simp only [List.cons_append, scanTo]
    cases turn merge c ch with
    | next d => exact ih d
    | args d => rfl
    | done d => rfl
    | invalid => rfl

theorem scan_after (merge : Bool) (c d : UriScan) (xs ys : List UInt8)
    (h : scanTo merge c xs = some d) : scan merge c (xs ++ ys) = scan merge d ys := by
  induction xs generalizing c with
  | nil =>
    simp only [scanTo, Option.some.injEq] at h
    rw [List.nil_append, h]
  | cons ch xs ih =>
    rw [scanTo] at h
    rw [List.cons_append, scan]
    cases ht : turn merge c ch with
    | next e =>
      rw [ht] at h
      exact ih e h
    | args e => simp [ht] at h
    | done e => simp [ht] at h
    | invalid => simp [ht] at h

/-- A path that has been read and, up to here, is its own normal form. -/
structure PathRead (raw : List UInt8) (ext : Option ℕ) (state : PlainState) : Prop where
  scanned : ∃ c, scanTo true scanStart raw = some c ∧ c.state = .plain state ∧
    c.u = raw.reverse ∧ c.uriExt = ext
  no_special : ∀ ch ∈ raw, ch ∉ ([nul, percent, hash, question] : List UInt8)
  guarded : ∀ pre ch post, raw = pre ++ slash :: ch :: post → ch ≠ slash ∧ ch ≠ dot

variable (ext : Option ℕ)

theorem path_read_next (ext' : Option ℕ) (state state' : PlainState) (ch : UInt8)
    (h : PathRead raw ext state) (hch : ch ∉ ([nul, percent, hash, question] : List UInt8))
    (hguard : raw.getLast? = some slash → ch ≠ slash ∧ ch ≠ dot)
    (hturn : ∀ c : UriScan, c.state = .plain state → c.u = raw.reverse → c.uriExt = ext → ∃ d, turn
      true c ch = .next d ∧ d.state = .plain state' ∧ d.u = ch :: c.u ∧ d.uriExt = ext') :
    PathRead (raw ++ [ch]) ext' state' := by
  refine ⟨?_,?_,?_⟩
  · obtain ⟨c,hscan,hstate,hu,hext⟩ := h.scanned
    obtain ⟨d,ht,hd,hdu,hdext⟩ := hturn c hstate hu hext
    refine ⟨d,?_,hd,?_,hdext⟩
    · rw [scan_to_append, hscan, Option.bind_some, scanTo, ht]
      rfl
    · rw [hdu, hu, List.reverse_append]
      rfl
  · intro x hx
    rcases List.mem_append.mp hx with hx | hx
    · exact h.no_special x hx
    · rw [List.mem_singleton.mp hx]
      exact hch
  · intro pre x post hraw
    have hraw' : raw ++ [ch] = (pre ++ [slash]) ++ x :: post := by simpa using hraw
    rcases split_last raw (pre ++ [slash]) post ch x hraw' with ⟨hr,rfl⟩ | ⟨rest,hr,-⟩
    · exact hguard (by simp [hr])
    · exact h.guarded pre x rest (by simpa using hr)

theorem path_read_put (state : PlainState) (ch : UInt8) (h : PathRead raw ext state)
    (hstate : state ∈ [.swUsual, PlainState.swSlash])
    (hch : ch ∉ ([nul, percent, hash, question, slash, dot] : List UInt8)) :
    PathRead (raw ++ [ch]) ext .swUsual := by
  have h1 : ch ≠ slash := by rintro rfl; simp at hch
  have h2 : ch ≠ dot := by rintro rfl; simp at hch
  have h3 : ch ≠ percent := by rintro rfl; simp at hch
  have h4 : ch ≠ question := by rintro rfl; simp at hch
  have h5 : ch ≠ hash := by rintro rfl; simp at hch
  refine path_read_next raw ext ext state .swUsual ch h ?_ (fun _ => ⟨h1,h2⟩) ?_
  · intro hm
    apply hch
    simp only [List.mem_cons, List.not_mem_nil, or_false] at hm ⊢
    tauto
  · intro c hc hu hext
    by_cases hplus : ch = plus
    · subst hplus
      refine ⟨{ put c .swUsual plus with plusInUri := true },?_,rfl,rfl,hext⟩
      simp only [List.mem_cons, List.not_mem_nil, or_false] at hstate
      rcases hstate with rfl | rfl <;> rw [turn, hc] <;> rfl
    refine ⟨put c .swUsual ch,?_,rfl,rfl,hext⟩
    simp only [List.mem_cons, List.not_mem_nil, or_false] at hstate
    rcases hstate with rfl | rfl <;> rw [turn, hc] <;>
      simp [plainTurn, usualTurn, slashTurn, leaveTurn, h1, h2, h3, h4, h5, hplus]

theorem path_read_slash (h : PathRead raw ext .swUsual) (hlast : raw.getLast? ≠ some slash) :
    PathRead (raw ++ [slash]) none .swSlash := by
  refine path_read_next raw ext none .swUsual .swSlash slash h (by decide)
    (fun hl => absurd hl hlast) ?_
  intro c hc hu hext
  refine ⟨{ put c .swSlash slash with uriExt := none },?_,rfl,rfl,rfl⟩
  rw [turn, hc]
  rfl

theorem path_read_dot (h : PathRead raw ext .swUsual) (hlast : raw.getLast? ≠ some slash) :
    PathRead (raw ++ [dot]) (some (raw.length+1)) .swUsual := by
  refine path_read_next raw ext _ .swUsual .swUsual dot h (by decide)
    (fun hl => absurd hl hlast) ?_
  intro c hc hu hext
  refine ⟨{ put c .swUsual dot with uriExt := some (c.u.length+1) },?_,rfl,rfl,?_⟩
  · rw [turn, hc]
    rfl
  · simp [hu]

theorem path_read_start : PathRead [slash] none .swSlash :=
  ⟨⟨_,rfl,rfl,rfl,rfl⟩,by simp,by
    intro pre ch post h
    have hl := congrArg List.length h
    simp only [List.length_append, List.length_cons, List.length_nil] at hl
    omega⟩

end Nginx.RequestUri
