import Nginx.ComplexUriPath
import Nginx.SegmentRemoval

/-!
# The reference of the complex URI scanner

The path of a raw URI ends before the first bare `?` or `#`. It is decoded once,
its runs of slashes are written once where they are merged, and its dot segments
are removed one at a time. The scanner gives the same but for escapes that the
end of the URI cuts off, for dot segments at the end of the path, and for double
dots behind empty segments.
-/

set_option autoImplicit false

namespace Nginx.UriReference
open Nginx.UriBytes Nginx.ComplexUri Nginx.ComplexUriPath Nginx.DotSegments Nginx.SegmentRemoval

/-! ## The reference -/

def rawPath (raw : List UInt8) : List UInt8 :=
  raw.takeWhile fun ch => decide (ch ≠ question ∧ ch ≠ hash)

def hexValue (ch : UInt8) : Option ℕ :=
  if 48 ≤ ch ∧ ch ≤ 57 then some (ch.toNat-48)
  else if 65 ≤ ch ∧ ch ≤ 70 then some (ch.toNat-55)
  else if 97 ≤ ch ∧ ch ≤ 102 then some (ch.toNat-87)
  else none

@[grind =] def percentDecode : List UInt8 → Option (List UInt8)
  | [] => some []
  | ch::rest =>
    if ch = percent then
      match rest with
      | first::second::rest =>
        match hexValue first, hexValue second with
        | some high, some low =>
          if 16*high+low = 0 then none
          else (percentDecode rest).map (UInt8.ofNat (16*high+low)::·)
        | _, _ => none
      | _ => none
    else (percentDecode rest).map (ch::·)

def render (segs : List (List UInt8)) : List UInt8 := segs.flatMap (slash::·)

def pathSegments (mergeSlashes : Bool) (path : List UInt8) : List (List UInt8) :=
  ((if mergeSlashes then collapse slash false path else path).drop 1).splitOn slash

def reference (mergeSlashes : Bool) (raw : List UInt8) : Option (List UInt8) :=
  (percentDecode (rawPath raw)).bind fun path =>
    (remove dot (pathSegments mergeSlashes path)).map render

/-! ## Decoding -/

@[grind =] def cutOff : List UInt8 → Bool
  | [] => false
  | ch::rest =>
    if ch = question ∨ ch = hash then false
    else if ch = percent then
      match rest with
      | _::_::rest => cutOff rest
      | _ => true
    else cutOff rest

theorem hex_value : ∀ ch : UInt8, hexDigit ch = (hexValue ch).map UInt8.ofNat := by
  decide +kernel

theorem hex_value_lt : ∀ (ch : UInt8), ∀ n ∈ hexValue ch, n < 16 := by
  intro ch n hn
  rw [hexValue] at hn
  simp only [UInt8.le_iff_toNat_le, UInt8.reduceToNat] at hn
  split_ifs at hn with h1 h2 h3
  · obtain rfl := Option.some.inj hn
    omega
  · obtain rfl := Option.some.inj hn
    omega
  · obtain rfl := Option.some.inj hn
    omega
  · cases hn

theorem escape_value : ∀ high < 16, ∀ low < 16,
    (UInt8.ofNat high <<< 4)+UInt8.ofNat low = UInt8.ofNat (16*high+low) ∧
      (UInt8.ofNat (16*high+low) = nul ↔ 16*high+low = 0) := by
  intro high hhigh low hlow
  have hbyte (n : ℕ) (h : n < 256) : (UInt8.ofNat n).toNat = n := UInt8.toNat_ofNat_of_lt h
  have hshift : (UInt8.ofNat high <<< 4).toNat = 16*high := by
    rw [UInt8.toNat_shiftLeft, hbyte _ (by omega), Nat.shiftLeft_eq]
    change high*16%256 = 16*high
    omega
  refine ⟨UInt8.toNat_inj.mp ?_,?_⟩
  · rw [UInt8.toNat_add, hshift, hbyte _ (by omega), hbyte _ (by omega)]
    omega
  · rw [← UInt8.toNat_inj, hbyte _ (by omega)]
    rfl

theorem hex_value_end : hexValue question = none ∧ hexValue hash = none := by
  decide

theorem escape_byte_value (first second : UInt8) : escapeByte first second =
    match hexValue first, hexValue second with
    | some high, some low => if 16*high+low = 0 then none else some (UInt8.ofNat (16*high+low))
    | _, _ => none := by
  rw [escapeByte, hex_value, hex_value]
  cases h1 : hexValue first with
  | none => rfl
  | some high =>
    cases h2 : hexValue second with
    | none => rfl
    | some low =>
      obtain ⟨hvalue,hzero⟩ := escape_value high (hex_value_lt first high h1) low
        (hex_value_lt second low h2)
      simp only [Option.map_some, hvalue, hzero]

theorem raw_path_cons (ch : UInt8) (rest : List UInt8) (h : ¬(ch = question ∨ ch = hash)) :
    rawPath (ch::rest) = ch::rawPath rest := by
  rw [rawPath, List.takeWhile_cons_of_pos (by simpa [not_or] using h)]
  rfl

theorem raw_path_end (ch : UInt8) (rest : List UInt8) (h : ch = question ∨ ch = hash) :
    rawPath (ch::rest) = [] := by
  rw [rawPath, List.takeWhile_cons_of_neg]
  intro hc
  rw [decide_eq_true_eq] at hc
  exact h.elim hc.1 hc.2

theorem hex_value_not_end {ch : UInt8} (h : ch = question ∨ ch = hash) : hexValue ch = none := by
  rcases h with rfl | rfl
  · exact hex_value_end.1
  · exact hex_value_end.2

variable (rest : List UInt8)

theorem decode_short (h : rest.length < 2) : percentDecode (percent::rest) = none := by
  match rest, h with
  | [], _ => rfl
  | [_], _ => rfl
  | _::_::_, h =>
    simp only [List.length_cons] at h
    omega

theorem decode_escape (first second : UInt8) (rest : List UInt8) :
    percentDecode (percent::first::second::rest) =
      (escapeByte first second).bind fun byte => (percentDecode rest).map (byte::·) := by
  rw [percentDecode, if_pos rfl, escape_byte_value]
  cases hexValue first with
  | none => rfl
  | some high =>
    cases hexValue second with
    | none => rfl
    | some low =>
      simp only
      split_ifs
      · rfl
      · rfl

theorem decode_plain (ch : UInt8) (rest : List UInt8) (h : ch ≠ percent) :
    percentDecode (ch::rest) = (percentDecode rest).map (ch::·) := by
  rw [percentDecode.eq_def]
  simp only [if_neg h]

theorem percent_decode_path (raw : List UInt8) :
    percentDecode (rawPath raw) = if cutOff raw then none else pathBytes raw := by
  induction raw using pathBytes.induct with
  | case1 => rfl
  | case2 ch rest h =>
    rw [raw_path_end ch rest h, path_bytes_end ch rest h, cutOff.eq_def]
    simp only [if_pos h]
    rfl
  | case3 => rfl
  | case4 first hx =>
    rw [raw_path_cons percent [first] (by decide), decode_short]
    · rfl
    · exact lt_of_le_of_lt (List.takeWhile_prefix _).length_le Nat.one_lt_two
  | case5 first hx =>
    rw [raw_path_cons percent [first] (by decide), decode_short]
    · rfl
    · exact lt_of_le_of_lt (List.takeWhile_prefix _).length_le Nat.one_lt_two
  | case6 first second rest h ih =>
    have hcut : cutOff (percent::first::second::rest) = cutOff rest := rfl
    rw [raw_path_cons percent _ h, path_bytes_escape, hcut]
    by_cases hfirst : first = question ∨ first = UriBytes.hash
    · have hescape : escapeByte first second = none := by
        rw [escape_byte_value, hex_value_not_end hfirst]
      rw [raw_path_end first _ hfirst, hescape, Option.bind_none, ite_self]
      rfl
    rw [raw_path_cons first _ hfirst]
    by_cases hsecond : second = question ∨ second = UriBytes.hash
    · have hescape : escapeByte first second = none := by
        rw [escape_byte_value, hex_value_not_end hsecond]
        cases hexValue first <;> rfl
      rw [raw_path_end second _ hsecond, hescape, Option.bind_none, ite_self]
      rfl
    rw [raw_path_cons second _ hsecond, decode_escape, ih]
    by_cases hc : cutOff rest = true
    · rw [if_pos hc, if_pos hc]
      cases escapeByte first second <;> rfl
    · rw [if_neg hc, if_neg hc]
  | case7 ch rest h hp ih =>
    have hcut : cutOff (ch::rest) = cutOff rest := by
      rw [cutOff.eq_def]
      simp only [if_neg h, if_neg hp]
    rw [raw_path_cons ch rest h, decode_plain ch _ hp, path_bytes_plain ch rest h hp, ih, hcut]
    by_cases hc : cutOff rest = true
    · rw [if_pos hc, if_pos hc]
      rfl
    · rw [if_neg hc, if_neg hc]

/-! ## The written path -/

variable (segs : List (List UInt8))

theorem render_append (segs' : List (List UInt8)) :
    render (segs++segs') = render segs++render segs' := List.flatMap_append

theorem rev_path_render (stack : List (List UInt8)) (last : List UInt8) :
    (revPath slash stack).reverse++last = render (stack.reverse++[last]) := by
  induction stack generalizing last with
  | nil => simp [revPath, render]
  | cons seg stack ih =>
    rw [rev_path_cons, List.reverse_cons, List.reverse_append, List.reverse_reverse, ih,
      List.reverse_cons, render_append (stack.reverse++[seg])]
    simp [render]

theorem render_count (h : ∀ seg ∈ segs, slash ∉ seg) : (render segs).count slash = segs.length := by
  induction segs with
  | nil => rfl
  | cons seg segs ih =>
    have hseg := List.count_eq_zero_of_not_mem (h seg List.mem_cons_self)
    have hrest := ih fun s hs => h s (List.mem_cons_of_mem seg hs)
    rw [render] at hrest ⊢
    rw [List.flatMap_cons, List.count_append, List.count_cons_self, hseg, hrest,
      List.length_cons]
    omega

theorem render_last (last : List UInt8) :
    (render (segs++[last])).getLast? = some (last.getLast?.getD slash) := by
  rw [render_append]
  have hlast : render [last] = slash::last := by simp [render]
  rw [hlast]
  cases last with
  | nil => simp
  | cons x xs => simp [List.getLast?_cons]

variable (tail : List UInt8)

theorem segments_filled : pathSegments true (slash::tail) = filled (tail.splitOn slash) := by
  have h := @collapse_split UInt8 _ slash tail []
  have hid (l : List (List UInt8)) : l.modifyHead (fun x => x) = l := by
    cases l <;> rfl
  simp only [decide_true, List.nil_append, hid] at h
  rw [pathSegments, if_pos rfl, collapse, if_pos rfl]
  exact h

theorem segments_kept : pathSegments false (slash::tail) = tail.splitOn slash := rfl

variable (merge : Bool)

theorem resolve_segments (path : List UInt8) :
    resolve dot merge [] (path.splitOn slash) =
      resolve dot false [] (pathSegments merge (slash::path)) := by
  cases merge with
  | false => rw [segments_kept]
  | true => rw [segments_filled, resolve_merged]

theorem complex_uri_resolve (tail path : List UInt8) (hpath : pathBytes tail = some path) :
    (ngxHttpParseComplexUri (slash::tail) merge).map ParsedUri.uri =
      (resolve dot false [] (pathSegments merge (slash::path))).map
        fun r => render (r.closed.reverse++[r.last]) := by
  have hwalk := scan_walk merge (slash::tail) scanStart .swUsual rfl
  have hv : view .swUsual scanStart = ⟨.plain,[]⟩ := rfl
  have hroot := rooted_walk slash dot merge path
  rw [path_bytes_plain slash tail (by decide) (by decide), hpath, hv, Option.map_some,
    Option.bind_some] at hwalk
  rw [ngxHttpParseComplexUri, hwalk, ← resolve_segments]
  cases hres : resolve dot merge [] (path.splitOn slash) with
  | none =>
    rw [hres] at hroot
    rw [hroot]
    rfl
  | some r =>
    rw [hres] at hroot
    obtain ⟨w,hw,hrep⟩ := hroot
    rw [hw, Option.map_some, Option.map_some, ← rev_path_render, hrep.written,
      List.reverse_append, List.reverse_reverse]

theorem complex_uri_malformed (raw : List UInt8) (h : pathBytes raw = none) :
    ngxHttpParseComplexUri raw merge = none := by
  have hwalk := scan_walk merge raw scanStart .swUsual rfl
  rw [h] at hwalk
  exact Option.map_eq_none_iff.mp hwalk

/-! ## The comparison -/

variable {stack kept : List (List UInt8)}

theorem step_mem {seg s : List UInt8} (h : removeStep dot stack seg = some kept) (hs : s ∈ kept) :
    s ∈ stack ∨ s = seg := by
  rw [removeStep] at h
  split_ifs at h
  · cases h
    exact .inl hs
  · cases h
    exact .inl (List.mem_of_mem_tail hs)
  · cases h
    exact (List.mem_cons.mp hs).symm

variable {s : List UInt8}

theorem keep_mem {segs stack kept : List (List UInt8)} (h : keep dot stack segs = some kept)
    (hs : s ∈ kept) : s ∈ stack ∨ s ∈ segs := by
  induction segs generalizing stack with
  | nil =>
    cases h
    exact .inl hs
  | cons seg rest ih =>
    cases rest with
    | nil =>
      cases h
      exact .inl hs
    | cons next rest =>
      rw [keep] at h
      obtain ⟨kept',hstep,h⟩ := Option.bind_eq_some_iff.mp h
      rcases ih h with hs' | hs'
      · rcases step_mem hstep hs' with hs'' | rfl
        · exact .inl hs''
        · exact .inr List.mem_cons_self
      · exact .inr (List.mem_cons_of_mem seg hs')

theorem climb_mem (h : climb stack = some kept) (hs : s ∈ kept) : s ∈ stack := by
  match stack, h with
  | []::below::stack, h =>
    cases h
    exact List.mem_cons_of_mem _ (List.mem_cons_of_mem below hs)
  | (x::xs)::stack, h =>
    cases h
    exact List.mem_cons_of_mem _ hs

theorem close_mem {seg s : List UInt8} (h : close dot false stack seg = some kept) (hs : s ∈ kept) :
    s ∈ stack ∨ s = seg := by
  rw [close] at h
  simp only [Bool.false_eq_true, if_false] at h
  split_ifs at h with h0 h1 h2
  · cases h
    rw [h0]
    exact (List.mem_cons.mp hs).symm
  · cases h
    exact .inl hs
  · exact .inl (climb_mem h hs)
  · cases h
    exact (List.mem_cons.mp hs).symm

theorem resolve_mem {segs stack : List (List UInt8)} {r : Resolved UInt8}
    (h : resolve dot false stack segs = some r) (hs : s ∈ r.closed) : s ∈ stack ∨ s ∈ segs := by
  induction segs generalizing stack with
  | nil =>
    cases h
    exact .inl hs
  | cons seg rest ih =>
    cases rest with
    | nil =>
      cases h
      exact .inl hs
    | cons next rest =>
      rw [resolve] at h
      obtain ⟨kept',hclose,h⟩ := Option.bind_eq_some_iff.mp h
      rcases ih h with hs' | hs'
      · rcases close_mem hclose hs' with hs'' | rfl
        · exact .inl hs''
        · exact .inr List.mem_cons_self
      · exact .inr (List.mem_cons_of_mem seg hs')

def DotLast (last : List UInt8) : Prop := last = [dot] ∨ last = [dot, dot]

instance (last : List UInt8) : Decidable (DotLast last) := inferInstanceAs (Decidable (_ ∨ _))

theorem dot_last_not_removed {last : List UInt8} (hdot : DotLast last)
    (h : removeLast dot stack last = some kept) (segs : List (List UInt8)) :
    render (segs++[last]) ≠ render kept.reverse := by
  rw [removeLast] at h
  obtain ⟨kept',-,rfl⟩ := Option.map_eq_some_iff.mp h
  rw [if_pos (show last = [dot] ∨ last = [dot, dot] from hdot), List.reverse_cons]
  intro he
  have hlast := congrArg List.getLast? he
  rw [render_last, render_last] at hlast
  rcases hdot with rfl | rfl
  · exact absurd hlast (by decide)
  · exact absurd hlast (by decide)

theorem remove_last_plain (stack : List (List UInt8)) {last : List UInt8} (h : ¬DotLast last) :
    removeLast dot stack last = some (last::stack) := by
  have h1 : last ≠ [dot] := fun he => h (.inl he)
  have h2 : last ≠ [dot, dot] := fun he => h (.inr he)
  rw [removeLast, removeStep, if_neg h1, if_neg h2, Option.map_some,
    if_neg (show ¬(last = [dot] ∨ last = [dot, dot]) from h)]

theorem remove_last_none {last : List UInt8} :
    removeLast dot stack last = none ↔ stack = [] ∧ last = [dot, dot] := by
  rw [removeLast, Option.map_eq_none_iff, removeStep]
  split_ifs with h1 h2 h3
  · simp [h1]
  · simp [h2, h3]
  · simp [h3]
  · simp [h2]

theorem render_ne {segs segs' : List (List UInt8)} (h : ∀ seg ∈ segs, slash ∉ seg)
    (h' : ∀ seg ∈ segs', slash ∉ seg) (hlen : segs.length ≠ segs'.length) :
    render segs ≠ render segs' := by
  intro he
  have hcount := congrArg (List.count slash) he
  rw [render_count segs h, render_count segs' h'] at hcount
  exact hlen hcount

theorem resolve_remove (hne : segs ≠ []) (hfree : ∀ seg ∈ segs, slash ∉ seg) :
    (resolve dot false [] segs).map (fun r => render (r.closed.reverse++[r.last])) =
        (remove dot segs).map render ↔
      keep dot [] segs = none ∨ (¬OverEmpty dot [] segs ∧ ¬DotLast (segs.getLastD [])) ∨
        (OverEmpty dot [] segs ∧ keep dot [] segs = some [] ∧ segs.getLastD [] = [dot, dot]) := by
  have hlastfree : slash ∉ segs.getLastD [] := by
    rw [List.getLastD_eq_getLast?, List.getLast?_eq_some_getLast hne]
    exact hfree _ (List.getLast_mem hne)
  have hlast (r : Resolved UInt8) (h : resolve dot false [] segs = some r) :
      segs.getLastD [] = r.last := (resolve_closed dot false [] segs r h (by simp)).2
  have hsegs (kept : List (List UInt8)) (h : ∀ s ∈ kept, s ∈ [] ∨ s ∈ segs) :
      ∀ s ∈ kept.reverse++[segs.getLastD []], slash ∉ s := by
    intro s hs
    rcases List.mem_append.mp hs with hs | hs
    · rcases h s (List.mem_reverse.mp hs) with hs | hs
      · cases hs
      · exact hfree s hs
    · rw [List.mem_singleton.mp hs]
      exact hlastfree
  have hover_none (hover : OverEmpty dot [] segs) (h : keep dot [] segs = none) :
      resolve dot false [] segs = none := by
    cases hres : resolve dot false [] segs with
    | none => rfl
    | some r =>
      obtain ⟨kept,hk,-⟩ := over_shorter [] segs r hover hres
      rw [hk] at h
      cases h
  have hkept (hover : ¬OverEmpty dot [] segs) := @resolve_keep UInt8 _ dot [] segs hover
  rw [remove]
  generalize segs.getLastD [] = last at *
  cases hkeep : keep dot [] segs with
  | none =>
    have hres : resolve dot false [] segs = none := by
      by_cases hover : OverEmpty dot [] segs
      · exact hover_none hover hkeep
      · rw [hkept hover, hkeep]
        rfl
    rw [hres]
    simp
  | some kept =>
    rw [Option.bind_some]
    by_cases hover : OverEmpty dot [] segs
    · cases hres : resolve dot false [] segs with
      | none =>
        cases hl : removeLast dot kept last with
        | none =>
          obtain ⟨rfl,rfl⟩ := remove_last_none.mp hl
          simp [hover]
        | some kept' =>
          have hne : ¬(kept = [] ∧ last = [dot, dot]) := by
            intro hc
            rw [remove_last_none.mpr hc] at hl
            cases hl
          simpa [hover] using hne
      | some r =>
        obtain ⟨kept',hk,hlen⟩ := over_shorter [] segs r hover hres
        obtain rfl : kept = kept' := Option.some.inj (hkeep.symm.trans hk)
        have hpos : kept ≠ [] := List.ne_nil_of_length_pos (Nat.zero_lt_of_lt hlen)
        have hdiff : ∀ kept' ∈ removeLast dot kept last,
            render (r.closed.reverse++[r.last]) ≠ render kept'.reverse := by
          intro kept' hl
          rw [← hlast r hres]
          by_cases hdot : DotLast last
          · exact dot_last_not_removed hdot hl r.closed.reverse
          rw [remove_last_plain kept hdot] at hl
          cases hl
          rw [List.reverse_cons]
          refine render_ne (hsegs r.closed fun s => resolve_mem hres)
            (hsegs kept fun s => keep_mem hkeep) ?_
          simp only [List.length_append, List.length_reverse]
          omega
        simp only [Option.map_some, reduceCtorEq, hover, not_true_eq_false, false_and, false_or,
          Option.some.injEq, hpos, and_false, iff_false]
        intro he
        obtain ⟨kept',hl,he'⟩ := Option.map_eq_some_iff.mp he.symm
        obtain ⟨kept'',hl',rfl⟩ := Option.map_eq_some_iff.mp hl
        exact hdiff kept'' hl' he'.symm
    rw [hkept hover, hkeep]
    by_cases hdot : DotLast last
    · have hdiff := fun kept' (h : kept' ∈ removeLast dot kept last) =>
        dot_last_not_removed hdot h kept.reverse
      simp only [Option.map_some, reduceCtorEq, hover, hdot, not_true_eq_false, and_false,
        false_and, false_or, iff_false]
      intro he
      obtain ⟨kept',hl,he'⟩ := Option.map_eq_some_iff.mp he.symm
      obtain ⟨kept'',hl',rfl⟩ := Option.map_eq_some_iff.mp hl
      exact hdiff kept'' hl' he'.symm
    · rw [remove_last_plain kept hdot]
      simp [hover, hdot]

/-! ## The condition -/

/-- What makes the scanner differ from its reference: an escape that the end of the URI cuts
off, a dot segment at the end of the path, a double dot behind an empty segment. With the
last, what is refused may be the same. -/
structure AsReference (merge : Bool) (raw : List UInt8) : Prop where
  path : ∀ path, pathBytes raw = some path →
    keep dot [] (pathSegments merge path) = none ∨
      if cutOff raw then OverEmpty dot [] (pathSegments merge path) ∧
          resolve dot false [] (pathSegments merge path) = none
        else (¬OverEmpty dot [] (pathSegments merge path) ∧
            ¬DotLast ((pathSegments merge path).getLastD [])) ∨
          (OverEmpty dot [] (pathSegments merge path) ∧
            keep dot [] (pathSegments merge path) = some [] ∧
            (pathSegments merge path).getLastD [] = [dot, dot])

theorem merged_not_over : ¬OverEmpty dot [] (pathSegments true (slash::tail)) := by
  rw [segments_filled]
  exact filled_not_over [] _ List.not_mem_nil

theorem complex_uri_reference (raw : List UInt8) (h : raw.head? = some slash) :
    (ngxHttpParseComplexUri raw merge).map ParsedUri.uri = reference merge raw ↔
      AsReference merge raw := by
  obtain ⟨tail,rfl⟩ : ∃ tail, raw = slash::tail := by
    cases raw with
    | nil => simp at h
    | cons ch tail => exact ⟨tail,by simpa using h⟩
  have hraw := path_bytes_plain slash tail (by decide) (by decide)
  rw [reference, percent_decode_path, hraw]
  cases hpath : pathBytes tail with
  | none =>
    rw [hpath, Option.map_none] at hraw
    rw [complex_uri_malformed merge _ hraw]
    simp only [Option.map_none, ite_self, Option.bind_none]
    exact ⟨fun _ => ⟨fun path hp => by rw [hraw] at hp; cases hp⟩,fun _ => trivial⟩
  | some path =>
    rw [hpath, Option.map_some] at hraw
    have hcond : AsReference merge (slash::tail) ↔ _ :=
      ⟨fun hc => hc.path (slash::path) hraw,fun hc => ⟨fun path' hp => by
        rw [hraw] at hp
        cases hp
        exact hc⟩⟩
    rw [hcond, complex_uri_resolve merge tail path hpath, Option.map_some]
    have hkept (hover : ¬OverEmpty dot [] (pathSegments merge (slash::path))) :=
      @resolve_keep UInt8 _ dot [] (pathSegments merge (slash::path)) hover
    have hshort := @over_shorter UInt8 _ dot [] (pathSegments merge (slash::path))
    have hremove := resolve_remove (pathSegments merge (slash::path))
      (List.splitOn_ne_nil slash _) (split_free _)
    by_cases hcut : cutOff (slash::tail) = true
    · rw [if_pos hcut, if_pos hcut, Option.bind_none, Option.map_eq_none_iff]
      by_cases hover : OverEmpty dot [] (pathSegments merge (slash::path))
      · constructor
        · intro hnone
          exact .inr ⟨hover,hnone⟩
        · rintro (hkeep | ⟨-,hnone⟩)
          · cases hres : resolve dot false [] (pathSegments merge (slash::path)) with
            | none => rfl
            | some r =>
              obtain ⟨kept,hk,-⟩ := hshort r hover hres
              rw [hk] at hkeep
              cases hkeep
          · exact hnone
      · rw [hkept hover, Option.map_eq_none_iff]
        simp only [hover, false_and, or_false]
    · rw [if_neg hcut, if_neg hcut, Option.bind_some]
      exact hremove

end Nginx.UriReference
