import Nginx.MemoryRange
import Nginx.SegmentRemoval
import Nginx.UriBytes
import Mathlib.Data.List.TakeWhile

/-!
# The check of a URI for what is unsafe

The URI is a range of memory. What the loop looks ahead at are addresses, so that a byte behind the
range is read where the source reads it.
-/

set_option autoImplicit false

namespace Nginx.UnsafeUri
open Nginx.MemoryRange Nginx.SegmentRemoval Nginx.UriBytes

structure Str where
  data : ℕ
  len : ℕ
  deriving DecidableEq, Repr

def Str.bytes (mem : ℕ → UInt8) (s : Str) : List UInt8 := readRange mem s.data (s.data+s.len)

def logUnsafe : ℕ := 8

/-- The loop at `p` with `len` bytes left. Where it ends well, what is left behind the `?`, if there
is one -/
@[grind =] def unsafeLoop (mem : ℕ → UInt8) : ℕ → ℕ → Option (Option ℕ)
  | _, 0 => some none
  | p, len+1 =>
    if usual (mem p) then unsafeLoop mem (p+1) len
    else if mem p = question then some (some len)
    else if mem p = nul then none
    else if mem p = slash ∧ 2 < len+1 ∧ mem (p+1) = dot ∧ mem (p+2) = dot ∧ mem (p+3) = slash then
      none
    else unsafeLoop mem (p+1) len

def ngxHttpParseUnsafeUri (mem : ℕ → UInt8) (uri args : Str) (flags : ℕ) :
    Except Bool (Str×Str) :=
  let err := .error (flags &&& logUnsafe != 0)
  if uri.len = 0 ∨ mem uri.data = question then err
  else if mem uri.data = dot ∧ uri.len = 3 ∧ mem (uri.data+1) = dot ∧ mem (uri.data+2) = slash then
    err
  else
    match unsafeLoop mem uri.data uri.len with
    | none => err
    | some none => .ok (uri,args)
    | some (some len) =>
      .ok (⟨uri.data,uri.len-(len+1)⟩,⟨uri.data+(uri.len-len),len⟩)

/-- The part in front of the first `?` -/
def path (s : List UInt8) : List UInt8 := s.takeWhile (· ≠ question)

/-- `..` between two slashes -/
abbrev climb : List UInt8 := [slash, dot, dot, slash]

/-! Segments -/

section Segments

variable {α : Type*} [DecidableEq α] {sep : α}

theorem split_cons (x : α) (xs : List α) : ∃ seg rest, xs.splitOn sep = seg::rest ∧
    (x::xs).splitOn sep = if x = sep then []::seg::rest else (x::seg)::rest := by
  obtain ⟨seg,rest,hsplit⟩ := List.exists_cons_of_ne_nil (List.splitOn_ne_nil sep xs)
  refine ⟨seg,rest,hsplit,?_⟩
  rw [List.splitOn_cons_eq_if_modifyHead, hsplit]
  by_cases hx : x = sep
  · rw [if_pos (by simpa using hx), if_pos hx]
  · rw [if_neg (by simpa using hx), if_neg hx, List.modifyHead_cons]

theorem split_parts {seg : List α} (hseg : sep ∉ seg) (xs : List α) :
    ((xs.splitOn sep).head? = some seg ↔ seg++[sep] <+: xs++[sep]) ∧
      (seg ∈ (xs.splitOn sep).tail ↔ sep::(seg++[sep]) <:+: xs++[sep]) := by
  induction xs generalizing seg with
  | nil =>
    have hfirst : seg++[sep] <+: ([]++[sep] : List α) ↔ seg = [] := by
      constructor
      · intro h
        exact List.eq_nil_of_length_eq_zero (by simpa using h.length_le)
      · rintro rfl
        exact List.prefix_refl _
    have hinner : ¬sep::(seg++[sep]) <:+: ([]++[sep] : List α) := fun h => by
      simpa using h.length_le
    rw [hfirst]
    simp only [List.splitOn_nil, List.head?_cons, Option.some.injEq, List.tail_cons,
      List.not_mem_nil, hinner, iff_self, and_true]
    exact eq_comm
  | cons x xs ih =>
    obtain ⟨first,rest,hxs,hsplit⟩ := @split_cons _ _ sep x xs
    rw [hxs] at ih
    rw [hsplit, List.cons_append, List.infix_cons_iff]
    simp only [List.head?_cons, Option.some.injEq, List.tail_cons] at ih
    by_cases hx : x = sep
    · subst hx
      have hfront : seg++[x] <+: x::(xs++[x]) ↔ seg = [] := by
        cases seg with
        | nil => exact ⟨fun _ => rfl,fun _ => List.prefix_append [x] (xs++[x])⟩
        | cons y seg =>
          refine ⟨fun h => ?_,fun h => absurd h (List.cons_ne_nil y seg)⟩
          rw [List.cons_append, List.cons_prefix_cons] at h
          exact absurd (h.1 ▸ List.mem_cons_self) hseg
      simp only [if_true, List.head?_cons, List.tail_cons, Option.some.injEq, List.mem_cons,
        List.cons_prefix_cons, true_and]
      rw [hfront, ← (ih hseg).1, ← (ih hseg).2]
      exact ⟨eq_comm,or_congr_left eq_comm⟩
    have hne : ¬sep::(seg++[sep]) <+: x::(xs++[sep]) := fun h =>
      hx (List.cons_prefix_cons.mp h).1.symm
    simp only [if_neg hx, List.head?_cons, List.tail_cons, Option.some.injEq, hne, false_or]
    refine ⟨?_,(ih hseg).2⟩
    cases seg with
    | nil =>
      refine ⟨fun h => absurd h (List.cons_ne_nil x first),fun h => ?_⟩
      exact absurd (List.cons_prefix_cons.mp h).1.symm hx
    | cons y seg =>
      rw [List.cons.injEq, List.cons_append, List.cons_prefix_cons,
        (ih fun h => hseg (List.mem_cons_of_mem y h)).1]
      exact and_congr_left fun _ => eq_comm

theorem mem_split {seg : List α} (hseg : sep ∉ seg) (xs : List α) :
    seg ∈ xs.splitOn sep ↔ seg++[sep] <+: xs++[sep] ∨ sep::(seg++[sep]) <:+: xs++[sep] := by
  obtain ⟨hhead,htail⟩ := split_parts hseg xs
  rw [← hhead, ← htail]
  cases xs.splitOn sep with
  | nil => simp
  | cons first rest => simp [eq_comm]

end Segments

/-! The loop -/

section Loop

variable {mem : ℕ → UInt8} {p len : ℕ}

/-- The path and the byte behind it, which is the `?` or no part of the URI -/
def seen (mem : ℕ → UInt8) (p len : ℕ) : List UInt8 :=
  path (readRange mem p (p+len))++[mem (p+(path (readRange mem p (p+len))).length)]

theorem path_first (mem : ℕ → UInt8) (p len : ℕ) : path (readRange mem p (p+(len+1))) =
    if mem p = question then [] else mem p::path (readRange mem (p+1) (p+1+len)) := by
  rw [read_first mem (by omega), show p+(len+1) = p+1+len by omega, path, List.takeWhile_cons]
  by_cases h : mem p = question
  · rw [if_neg (by simpa using h), if_pos h]
  · rw [if_pos (by simpa using h), if_neg h]
    rfl

theorem path_range (mem : ℕ → UInt8) (p len : ℕ) : ∃ n, n ≤ len ∧
    path (readRange mem p (p+len)) = readRange mem p (p+n) ∧ (n < len → mem (p+n) = question) := by
  induction len generalizing p with
  | zero => exact ⟨0,le_rfl,by rw [Nat.add_zero, read_empty]; rfl,fun h => absurd h (by omega)⟩
  | succ len ih =>
    rw [path_first]
    by_cases hq : mem p = question
    · rw [if_pos hq]
      exact ⟨0,by omega,(read_empty mem p).symm,fun _ => hq⟩
    rw [if_neg hq]
    obtain ⟨n,hn,hpath,hend⟩ := ih (p+1)
    refine ⟨n+1,by omega,?_,fun h => ?_⟩
    · rw [hpath, read_first mem (show p < p+(n+1) by omega), show p+(n+1) = p+1+n by omega]
    · rw [show p+(n+1) = p+1+n by omega]
      exact hend (by omega)

theorem seen_zero (mem : ℕ → UInt8) (p : ℕ) : seen mem p 0 = [mem p] := by
  rw [seen, Nat.add_zero, read_empty]
  rfl

theorem seen_question (len : ℕ) (h : mem p = question) : seen mem p (len+1) = [question] := by
  rw [seen, path_first, if_pos h, List.nil_append, List.length_nil, Nat.add_zero, h]

theorem seen_succ (len : ℕ) (h : mem p ≠ question) :
    seen mem p (len+1) = mem p::seen mem (p+1) len := by
  rw [seen, seen, path_first, if_neg h]
  generalize path (readRange mem (p+1) (p+1+len)) = xs
  rw [List.cons_append, List.length_cons, show p+(xs.length+1) = p+1+xs.length by omega]

theorem seen_climb : [dot, dot, slash] <+: seen mem p len ↔
    2 ≤ len ∧ mem p = dot ∧ mem (p+1) = dot ∧ mem (p+2) = slash := by
  have hlast (p n : ℕ) : [slash] <+: seen mem p n ↔ mem p = slash := by
    cases n with
    | zero =>
      rw [seen_zero]
      simp [eq_comm]
    | succ n =>
      by_cases h : mem p = question
      · rw [seen_question n h, h]
        decide
      · rw [seen_succ n h]
        simp [eq_comm]
  have hdots (p n : ℕ) (x : UInt8) (rest : List UInt8) : dot::x::rest <+: seen mem p n ↔
      0 < n ∧ mem p = dot ∧ x::rest <+: seen mem (p+1) (n-1) := by
    cases n with
    | zero =>
      rw [seen_zero]
      simp
    | succ n =>
      by_cases h : mem p = question
      · rw [seen_question n h, h]
        simp
      · rw [seen_succ n h]
        simp [eq_comm]
  rw [hdots, hdots, hlast]
  constructor
  · rintro ⟨h,h0,h',h1,h2⟩
    exact ⟨by omega,h0,h1,h2⟩
  · rintro ⟨h,h0,h1,h2⟩
    exact ⟨by omega,h0,by omega,h1,h2⟩

theorem loop_none : unsafeLoop mem p len = none ↔
    nul ∈ path (readRange mem p (p+len)) ∨ climb <:+: seen mem p len := by
  induction len generalizing p with
  | zero =>
    rw [seen_zero, Nat.add_zero, read_empty, unsafeLoop]
    simp only [reduceCtorEq, path, List.takeWhile_nil, List.not_mem_nil, false_or, false_iff]
    exact fun h => absurd h.length_le (by simp)
  | succ len ih =>
    have hskip (hq : mem p ≠ question) (hn : mem p ≠ nul)
        (hs : mem p = slash → ¬[dot, dot, slash] <+: seen mem (p+1) len) :
        unsafeLoop mem (p+1) len = none ↔
          nul ∈ path (readRange mem p (p+(len+1))) ∨ climb <:+: seen mem p (len+1) := by
      rw [path_first, if_neg hq, seen_succ len hq, List.mem_cons, List.infix_cons_iff, ih,
        List.cons_prefix_cons]
      simp only [Ne.symm hn, false_or]
      refine or_congr_right ⟨Or.inr,fun h => h.resolve_left fun h => hs h.1.symm h.2⟩
    rw [unsafeLoop]
    by_cases hu : usual (mem p) = true
    · have hin := (usual_iff (mem p)).mp hu
      simp only [List.mem_cons, List.not_mem_nil, or_false, not_or] at hin
      obtain ⟨hn,-,-,-,-,-,-,-,hs,hq⟩ := hin
      rw [if_pos hu]
      exact hskip hq hn fun h => absurd h hs
    rw [if_neg hu]
    by_cases hq : mem p = question
    · rw [if_pos hq, seen_question len hq, path_first, if_pos hq]
      simp only [reduceCtorEq, List.not_mem_nil, false_or, false_iff]
      exact fun h => absurd h.length_le (by simp)
    rw [if_neg hq]
    by_cases hn : mem p = nul
    · rw [if_pos hn, path_first, if_neg hq, hn]
      simp
    rw [if_neg hn]
    by_cases hs : mem p = slash ∧ 2 < len+1 ∧ mem (p+1) = dot ∧ mem (p+2) = dot ∧
        mem (p+3) = slash
    · have hclimb : [dot, dot, slash] <+: seen mem (p+1) len :=
        seen_climb.mpr ⟨by omega,hs.2.2.1,hs.2.2.2.1,hs.2.2.2.2⟩
      rw [if_pos hs, seen_succ len hq, List.infix_cons_iff, List.cons_prefix_cons]
      exact ⟨fun _ => Or.inr (Or.inl ⟨hs.1.symm,hclimb⟩),fun _ => rfl⟩
    rw [if_neg hs]
    refine hskip hq hn fun hslash hclimb => hs ?_
    obtain ⟨hlen,h1,h2,h3⟩ := seen_climb.mp hclimb
    exact ⟨hslash,by omega,h1,h2,h3⟩

theorem loop_step (mem : ℕ → UInt8) (p len : ℕ) : unsafeLoop mem p (len+1) = none ∨
    (mem p = question ∧ unsafeLoop mem p (len+1) = some (some len)) ∨
      (mem p ≠ question ∧ unsafeLoop mem p (len+1) = unsafeLoop mem (p+1) len) := by
  rw [unsafeLoop]
  by_cases hq : mem p = question
  · have hu : usual question ≠ true := by decide
    rw [hq, if_neg hu, if_pos rfl]
    exact Or.inr (Or.inl ⟨rfl,rfl⟩)
  rw [if_neg hq]
  split_ifs
  · exact Or.inr (Or.inr ⟨hq,rfl⟩)
  · exact Or.inl rfl
  · exact Or.inl rfl
  · exact Or.inr (Or.inr ⟨hq,rfl⟩)

theorem loop_some {rest : Option ℕ} (h : unsafeLoop mem p len = some rest) :
    (path (readRange mem p (p+len))).length+rest.elim 0 (·+1) = len := by
  induction len generalizing p with
  | zero =>
    obtain rfl := Option.some.inj h
    rw [Nat.add_zero, read_empty]
    rfl
  | succ len ih =>
    rw [path_first]
    rcases loop_step mem p len with hstep|⟨hq,hstep⟩|⟨hq,hstep⟩
    · rw [hstep] at h
      cases h
    · rw [hstep] at h
      obtain rfl := Option.some.inj h
      rw [if_pos hq, List.length_nil, Option.elim_some, Nat.zero_add]
    rw [hstep] at h
    have hrest := ih h
    rw [if_neg hq, List.length_cons]
    omega

end Loop

/-! The check -/

section Check

variable (mem : ℕ → UInt8) (uri args : Str) (flags : ℕ)

theorem path_free (s : List UInt8) : question ∉ path s := fun h => by
  simpa using List.mem_takeWhile_imp h

theorem parse_value {r : Str×Str} (h : ngxHttpParseUnsafeUri mem uri args flags = .ok r) {n : ℕ}
    (hn : (path (uri.bytes mem)).length = n) :
    (n = uri.len ∧ r = (uri,args)) ∨
      (n < uri.len ∧ r = (⟨uri.data,n⟩,⟨uri.data+n+1,uri.len-(n+1)⟩)) := by
  rw [ngxHttpParseUnsafeUri] at h
  split_ifs at h
  cases hloop : unsafeLoop mem uri.data uri.len with
  | none =>
    rw [hloop] at h
    cases h
  | some rest =>
    have hrest := loop_some hloop
    rw [show (path (readRange mem uri.data (uri.data+uri.len))).length = n from hn] at hrest
    rw [hloop] at h
    cases rest with
    | none => exact Or.inl ⟨hrest,(Except.ok.inj h).symm⟩
    | some k =>
      rw [Option.elim_some] at hrest
      refine Or.inr ⟨by omega,(Except.ok.inj h).symm.trans ?_⟩
      rw [show uri.len-(k+1) = n by omega, show uri.data+(uri.len-k) = uri.data+n+1 by omega,
        show uri.len-(n+1) = k by omega]

theorem parse_ok {r : Str×Str} (h : ngxHttpParseUnsafeUri mem uri args flags = .ok r) :
    r.1.bytes mem = path (uri.bytes mem) ∧
      (question ∉ uri.bytes mem → r = (uri,args)) ∧
      (question ∈ uri.bytes mem → uri.bytes mem = r.1.bytes mem++question::r.2.bytes mem) := by
  obtain ⟨n,hn,hpath,hend⟩ := path_range mem uri.data uri.len
  have hlen : (path (uri.bytes mem)).length = n := by
    rw [Str.bytes, hpath, read_length, Nat.add_sub_cancel_left]
  have hfree := path_free (uri.bytes mem)
  rw [show path (uri.bytes mem) = readRange mem uri.data (uri.data+n) from hpath] at hfree ⊢
  rcases parse_value mem uri args flags h hlen with ⟨rfl,rfl⟩|⟨hlt,rfl⟩
  · exact ⟨rfl,fun _ => rfl,fun hq => absurd hq hfree⟩
  have hbehind : uri.data+n+1+(uri.len-(n+1)) = uri.data+uri.len := by omega
  have hsplit : uri.bytes mem = readRange mem uri.data (uri.data+n)++
      question::readRange mem (uri.data+n+1) (uri.data+uri.len) := by
    rw [Str.bytes, ← read_append mem (Nat.le_add_right _ n)
      (show uri.data+n ≤ uri.data+uri.len by omega),
      read_first mem (show uri.data+n < uri.data+uri.len by omega), hend hlt]
  refine ⟨rfl,fun hno => ?_,fun _ => ?_⟩
  · rw [hsplit] at hno
    exact absurd (List.mem_append_right _ List.mem_cons_self) hno
  · simp only [Str.bytes, hbehind]
    exact hsplit

theorem parse_logged {logged : Bool}
    (h : ngxHttpParseUnsafeUri mem uri args flags = .error logged) :
    logged = (flags &&& logUnsafe != 0) := by
  rw [ngxHttpParseUnsafeUri] at h
  split_ifs at h
  · exact (Except.error.inj h).symm
  · exact (Except.error.inj h).symm
  · cases hloop : unsafeLoop mem uri.data uri.len with
    | none =>
      rw [hloop] at h
      exact (Except.error.inj h).symm
    | some rest =>
      rw [hloop] at h
      cases rest <;> cases h

theorem parse_error :
    (∃ logged, ngxHttpParseUnsafeUri mem uri args flags = .error logged) ↔
      path (uri.bytes mem) = [] ∨ uri.bytes mem = [dot, dot, slash] ∨
        nul ∈ path (uri.bytes mem) ∨ climb <:+: seen mem uri.data uri.len := by
  rw [Str.bytes, ← loop_none, ngxHttpParseUnsafeUri]
  have hempty : path (readRange mem uri.data (uri.data+uri.len)) = [] ↔
      uri.len = 0 ∨ mem uri.data = question := by
    cases hlen : uri.len with
    | zero => simp [read_empty, path]
    | succ n =>
      rw [path_first]
      by_cases hq : mem uri.data = question <;> simp [hq]
  have hparent : readRange mem uri.data (uri.data+uri.len) = [dot, dot, slash] ↔
      mem uri.data = dot ∧ uri.len = 3 ∧ mem (uri.data+1) = dot ∧ mem (uri.data+2) = slash := by
    by_cases hlen : uri.len = 3
    · rw [hlen, read_first mem (by omega), read_first mem (by omega), read_first mem (by omega),
        read_empty]
      simp
    refine ⟨fun h => absurd (congrArg List.length h) ?_,fun h => absurd h.2.1 hlen⟩
    rw [read_length, Nat.add_sub_cancel_left]
    exact hlen
  rw [hempty, hparent]
  split_ifs with h0 h1
  · exact ⟨fun _ => Or.inl h0,fun _ => ⟨_,rfl⟩⟩
  · exact ⟨fun _ => Or.inr (Or.inl h1),fun _ => ⟨_,rfl⟩⟩
  · simp only [h0, h1, false_or]
    cases unsafeLoop mem uri.data uri.len with
    | none => exact ⟨fun _ => rfl,fun _ => ⟨_,rfl⟩⟩
    | some rest =>
      refine ⟨fun ⟨logged,h⟩ => ?_,fun h => (by cases h)⟩
      cases rest <;> cases h

/-- What the check is for, at one URI: its bytes alone decide, what is accepted is safe and cut at the
first `?`, and what is safe is accepted unless its path is empty. -/
structure Meets : Prop where
  reads : ∀ mem', uri.bytes mem' = uri.bytes mem →
    ngxHttpParseUnsafeUri mem' uri args flags = ngxHttpParseUnsafeUri mem uri args flags
  accepted : ∀ r, ngxHttpParseUnsafeUri mem uri args flags = .ok r →
    nul ∉ r.1.bytes mem ∧ [dot, dot] ∉ (r.1.bytes mem).splitOn slash ∧
      r.1.bytes mem = path (uri.bytes mem) ∧ (question ∉ uri.bytes mem → r = (uri,args)) ∧
      (question ∈ uri.bytes mem → uri.bytes mem = r.1.bytes mem++question::r.2.bytes mem)
  accepts : path (uri.bytes mem) ≠ [] → nul ∉ path (uri.bytes mem) →
    [dot, dot] ∉ (path (uri.bytes mem)).splitOn slash →
    ∃ r, ngxHttpParseUnsafeUri mem uri args flags = .ok r

def Noticed (s : List UInt8) : Prop :=
  nul ∈ path s ∨ climb <:+: path s ∨ s = [dot, dot, slash]

theorem parent_iff (s : List UInt8) : [dot, dot] ∈ s.splitOn slash ↔
    [dot, dot, slash] <+: s++[slash] ∨ climb <:+: s++[slash] :=
  mem_split (show slash ∉ [dot, dot] by decide) s

theorem climb_behind {s : List UInt8} {x : UInt8} (h : climb <:+: s++[x]) :
    climb <:+: s ∨ (x = slash ∧ climb <:+: s++[slash]) := by
  rcases List.infix_concat_iff.mp h with hend|hin
  · refine Or.inr ?_
    rcases List.suffix_concat_iff.mp hend with hnil|⟨t,ht,-⟩
    · cases hnil
    · have hx : x = slash := by simpa using (congrArg List.getLast? ht).symm
      exact ⟨hx,hx ▸ h⟩
  · exact Or.inl hin

def behind (mem : ℕ → UInt8) (uri : Str) (x : UInt8) : ℕ → UInt8 :=
  Function.update mem (uri.data+uri.len) x

theorem behind_bytes (x : UInt8) : uri.bytes (behind mem uri x) = uri.bytes mem :=
  read_congr mem _ fun i _ hi => by
    rw [behind, Function.update_of_ne (show i ≠ uri.data+uri.len by omega)]

theorem seen_bytes : seen mem uri.data uri.len =
    path (uri.bytes mem)++[mem (uri.data+(path (uri.bytes mem)).length)] := rfl

theorem behind_cell :
    behind mem uri nul (uri.data+(path (uri.bytes mem)).length) ≠ slash := by
  obtain ⟨n,hn,hpath,hend⟩ := path_range mem uri.data uri.len
  rw [Str.bytes, hpath, read_length, Nat.add_sub_cancel_left, behind]
  rcases Nat.eq_or_lt_of_le hn with rfl|hlt
  · rw [Function.update_self]
    decide
  · rw [Function.update_of_ne (by omega), hend hlt]
    decide

theorem unnoticed_accepted (hparent : [dot, dot] ∈ (path (uri.bytes mem)).splitOn slash)
    (hno : ¬Noticed (uri.bytes mem)) :
    ∃ r, ngxHttpParseUnsafeUri (behind mem uri nul) uri args flags = .ok r := by
  cases hr : ngxHttpParseUnsafeUri (behind mem uri nul) uri args flags with
  | ok r => exact ⟨r,rfl⟩
  | error logged =>
    rcases (parse_error (behind mem uri nul) uri args flags).mp ⟨logged,hr⟩ with h|h|h|h
    · rw [behind_bytes] at h
      rw [h] at hparent
      exact absurd hparent (by decide)
    · rw [behind_bytes] at h
      exact absurd (Or.inr (Or.inr h)) hno
    · rw [behind_bytes] at h
      exact absurd (Or.inl h) hno
    rw [seen_bytes, behind_bytes] at h
    rcases climb_behind h with h|⟨h,-⟩
    · exact absurd (Or.inr (Or.inl h)) hno
    · exact absurd h (behind_cell mem uri)

theorem noticed_error
    (h : [dot, dot] ∈ (path (uri.bytes mem)).splitOn slash → Noticed (uri.bytes mem)) :
    (∃ logged, ngxHttpParseUnsafeUri mem uri args flags = .error logged) ↔
      path (uri.bytes mem) = [] ∨ Noticed (uri.bytes mem) := by
  rw [parse_error, seen_bytes]
  constructor
  · rintro (hempty|hparent|hnul|hclimb)
    · exact Or.inl hempty
    · exact Or.inr (Or.inr (Or.inr hparent))
    · exact Or.inr (Or.inl hnul)
    · rcases climb_behind hclimb with hclimb|⟨-,hclimb⟩
      · exact Or.inr (Or.inr (Or.inl hclimb))
      · exact Or.inr (h ((parent_iff _).mpr (Or.inr hclimb)))
  · rintro (hempty|hnul|hclimb|hparent)
    · exact Or.inl hempty
    · exact Or.inr (Or.inr (Or.inl hnul))
    · exact Or.inr (Or.inr (Or.inr (List.infix_append_of_infix_left hclimb)))
    · exact Or.inr (Or.inl hparent)

theorem not_error_ok (h : ¬∃ logged, ngxHttpParseUnsafeUri mem uri args flags = .error logged) :
    ∃ r, ngxHttpParseUnsafeUri mem uri args flags = .ok r := by
  cases hr : ngxHttpParseUnsafeUri mem uri args flags with
  | ok r => exact ⟨r,rfl⟩
  | error logged => exact absurd ⟨logged,hr⟩ h

theorem noticed_reads {mem' : ℕ → UInt8} (hsame : uri.bytes mem' = uri.bytes mem)
    (h : [dot, dot] ∈ (path (uri.bytes mem)).splitOn slash → Noticed (uri.bytes mem)) :
    ngxHttpParseUnsafeUri mem' uri args flags = ngxHttpParseUnsafeUri mem uri args flags := by
  have herror := noticed_error mem uri args flags h
  have herror' := noticed_error mem' uri args flags (hsame ▸ h)
  rw [hsame, ← herror] at herror'
  by_cases he : ∃ logged, ngxHttpParseUnsafeUri mem uri args flags = .error logged
  · obtain ⟨logged',he'⟩ := herror'.mpr he
    obtain ⟨logged,he⟩ := he
    rw [he, he', parse_logged mem uri args flags he, parse_logged mem' uri args flags he']
  obtain ⟨r',hr'⟩ := not_error_ok mem' uri args flags fun h' => he (herror'.mp h')
  obtain ⟨r,hr⟩ := not_error_ok mem uri args flags he
  have hv' := parse_value mem' uri args flags hr' rfl
  have hv := parse_value mem uri args flags hr rfl
  rw [hsame] at hv'
  rw [hr, hr']
  rcases hv with ⟨hn,rfl⟩|⟨hn,rfl⟩ <;> rcases hv' with ⟨hn',rfl⟩|⟨hn',rfl⟩
  · rfl
  · exact absurd hn' (by omega)
  · exact absurd hn (by omega)
  · rfl

/-- The check does what it is for where it notices the `..` of a path, if there is one: one that
stands between two slashes, beside a NUL, or in `../` as the whole URI. -/
theorem parse_unsafe_uri_meets : Meets mem uri args flags ↔
    ([dot, dot] ∈ (path (uri.bytes mem)).splitOn slash → Noticed (uri.bytes mem)) := by
  refine ⟨fun h hparent => ?_,fun h => ⟨?_,?_,?_⟩⟩
  · by_contra hno
    obtain ⟨r,hr⟩ := unnoticed_accepted mem uri args flags hparent hno
    rw [h.reads _ (behind_bytes mem uri nul)] at hr
    obtain ⟨-,hsafe,hpath,-⟩ := h.accepted r hr
    rw [hpath] at hsafe
    exact hsafe hparent
  · exact fun mem' hsame => noticed_reads mem uri args flags hsame h
  · intro r hr
    obtain ⟨hpath,hwhole,hcut⟩ := parse_ok mem uri args flags hr
    have hno : ¬(path (uri.bytes mem) = [] ∨ Noticed (uri.bytes mem)) := fun hbad => by
      obtain ⟨logged,he⟩ := (noticed_error mem uri args flags h).mpr hbad
      rw [hr] at he
      cases he
    refine ⟨?_,?_,hpath,hwhole,hcut⟩
    · rw [hpath]
      exact fun hnul => hno (Or.inr (Or.inl hnul))
    · rw [hpath]
      exact fun hparent => hno (Or.inr (h hparent))
  · intro hempty hnul hsafe
    refine not_error_ok mem uri args flags fun he => ?_
    rcases (noticed_error mem uri args flags h).mp he with hbad|hbad|hbad|hbad
    · exact hempty hbad
    · exact hnul hbad
    · exact hsafe ((parent_iff _).mpr (Or.inr (List.infix_append_of_infix_left hbad)))
    · rw [hbad] at hsafe
      exact hsafe (by decide)

end Check

/-- `../x` is accepted, and `/..` or not by the byte behind it. -/
theorem parent_accepted :
    ¬Meets (fun i => [46,46,47,120].getD i 0) ⟨0,4⟩ ⟨0,0⟩ 0 ∧
      ngxHttpParseUnsafeUri (fun i => [47,46,46,0].getD i 0) ⟨0,3⟩ ⟨0,0⟩ 0 =
        .ok (⟨0,3⟩,⟨0,0⟩) ∧
      ngxHttpParseUnsafeUri (fun i => [47,46,46,47].getD i 0) ⟨0,3⟩ ⟨0,0⟩ 0 =
        .error false := by
  refine ⟨fun h => ?_,by decide,by decide⟩
  exact (h.accepted (⟨0,4⟩,⟨0,0⟩) (by decide)).2.1 (by decide)

end Nginx.UnsafeUri
