import Nginx.UriReference

/-!
# The buffer of the complex URI scanner

The scanner again, with the memory around `r->uri.data` and the output pointer
as an offset from it. Every store and every load is logged, those of the debug
log too. The flags, the extension and the arguments do not touch the memory.
-/

set_option autoImplicit false

namespace Nginx.UriBuffer
open Nginx.UriBytes Nginx.ComplexUri Nginx.UriReference

structure Buffer where
  data : ℤ → UInt8
  u : ℤ
  stores : List ℤ
  loads : List ℤ

def Buffer.put (b : Buffer) (ch : UInt8) : Buffer :=
  { b with data := Function.update b.data b.u ch, u := b.u+1, stores := b.u::b.stores }

def Buffer.load (b : Buffer) : Buffer := { b with loads := b.u::b.loads }

/-- The loop behind `u -= 5`, and whether it has found a slash -/
@[grind =] def backToSlash (b : Buffer) : Bool × Buffer :=
  if b.u < 0 then (false, b)
  else if b.data b.u = slash then (true, { b.load with u := b.u+1 })
  else backToSlash { b.load with u := b.u-1 }
termination_by (b.u+1).toNat
decreasing_by omega

structure BufferScan where
  state : UriState
  quotedState : PlainState
  decoded : UInt8
  out : Buffer

inductive BufferTurn where
  | next (c : BufferScan)
  | args (c : BufferScan)
  | done (c : BufferScan)
  | invalid (c : BufferScan)

def BufferScan.put (c : BufferScan) (state : PlainState) (ch : UInt8) : BufferScan :=
  { c with state := .plain state, out := c.out.put ch }

/-- `ngx_log_debug4` shows the byte at the output pointer. -/
def BufferScan.logged (c : BufferScan) : BufferScan := { c with out := c.out.load }

def leaveBuffer (state : PlainState) (c : BufferScan) (ch : UInt8) : BufferTurn :=
  if ch = percent then .next { c with quotedState := state, state := .swQuoted }
  else if ch = question then .args c
  else if ch = hash then .done c
  else .next (c.put .swUsual ch)

def usualBuffer (c : BufferScan) (ch : UInt8) : BufferTurn :=
  if usual ch then .next (c.put .swUsual ch)
  else if ch = slash then .next (c.put .swSlash ch)
  else if ch = dot then .next (c.put .swUsual ch)
  else leaveBuffer .swUsual c ch

def slashBuffer (mergeSlashes : Bool) (c : BufferScan) (ch : UInt8) : BufferTurn :=
  if usual ch then .next (c.put .swUsual ch)
  else if ch = slash then
    .next (if mergeSlashes then { c with state := .plain .swSlash } else c.put .swSlash ch)
  else if ch = dot then .next (c.put .swDot ch)
  else leaveBuffer .swSlash c ch

def dotBuffer (c : BufferScan) (ch : UInt8) : BufferTurn :=
  if usual ch then .next (c.put .swUsual ch)
  else if ch = slash then
    .next { c with state := .plain .swSlash, out := { c.out with u := c.out.u-1 } }
  else if ch = dot then .next (c.put .swDotDot ch)
  else leaveBuffer .swDot c ch

def dotDotBuffer (c : BufferScan) (ch : UInt8) : BufferTurn :=
  if usual ch then .next (c.put .swUsual ch)
  else if ch = slash then
    let back := backToSlash { c.out with u := c.out.u-5 }
    if back.1 then .next { c with state := .plain .swSlash, out := back.2 }
    else .invalid { c with out := back.2 }
  else leaveBuffer .swDotDot c ch

def plainBuffer (mergeSlashes : Bool) (state : PlainState) (c : BufferScan) (ch : UInt8) :
    BufferTurn :=
  match state with
  | .swUsual => usualBuffer c ch
  | .swSlash => slashBuffer mergeSlashes c ch
  | .swDot => dotBuffer c ch
  | .swDotDot => dotDotBuffer c ch

def quotedBuffer (c : BufferScan) (ch : UInt8) : BufferTurn :=
  if isDigit ch then .next { c with decoded := ch - 48, state := .swQuotedSecond }
  else if 97 ≤ (ch ||| 0x20) ∧ (ch ||| 0x20) ≤ 102 then
    .next { c with decoded := (ch ||| 0x20) - 97 + 10, state := .swQuotedSecond }
  else .invalid c

def quotedSecondBuffer (mergeSlashes : Bool) (c : BufferScan) (ch : UInt8) : BufferTurn :=
  if isDigit ch then
    let ch := (c.decoded <<< 4) + (ch - 48)
    if ch = percent ∨ ch = hash then .next (c.put .swUsual ch)
    else if ch = nul then .invalid c
    else
      plainBuffer mergeSlashes c.quotedState { c with state := .plain c.quotedState }.logged ch
  else if 97 ≤ (ch ||| 0x20) ∧ (ch ||| 0x20) ≤ 102 then
    let ch := (c.decoded <<< 4) + ((ch ||| 0x20) - 97 + 10)
    if ch = question then .next (c.put .swUsual ch)
    else
      plainBuffer mergeSlashes c.quotedState { c with state := .plain c.quotedState }.logged ch
  else .invalid c

def turnBuffer (mergeSlashes : Bool) (c : BufferScan) (ch : UInt8) : BufferTurn :=
  match c.state with
  | .plain state => plainBuffer mergeSlashes state c.logged ch
  | .swQuoted => quotedBuffer c.logged ch
  | .swQuotedSecond => quotedSecondBuffer mergeSlashes c.logged ch

/-- `r->uri`, the bytes before the output pointer -/
def written (b : Buffer) : List UInt8 := (List.range b.u.toNat).map fun i : ℕ => b.data i

/-- `NGX_OK` with `r->uri`, or an invalid request; and the buffer -/
@[grind =] def scanBuffer (mergeSlashes : Bool) : BufferScan → List UInt8 → Option (List UInt8) × Buffer
  | c, [] => (some (written c.out), c.out)
  | c, ch::rest =>
    match turnBuffer mergeSlashes c ch with
    | .next d => scanBuffer mergeSlashes d rest
    | .args d => (some (written d.out), d.out)
    | .done d => (some (written d.out), d.out)
    | .invalid d => (none, d.out)

def bufferStart (data : ℤ → UInt8) : BufferScan where
  state := .plain .swUsual
  quotedState := .swUsual
  decoded := nul
  out := ⟨data,0,[],[]⟩

/-- `r->uri.len` as `ngx_http_process_request_line` sets it before the buffer is allocated;
`args_start` is an offset from `uri_start`. -/
def uriLen (raw : List UInt8) (argsStart : Option ℕ) : ℕ :=
  match argsStart with
  | some k => k-1
  | none => raw.length

/-! ## The buffer holds what is written -/

/-- The bytes from the one before the offset `xs.length` on down -/
def Holding (data : ℤ → UInt8) : List UInt8 → Prop
  | [] => True
  | x::xs => data xs.length = x ∧ Holding data xs

def plainOf (c : UriScan) : PlainState :=
  match c.state with
  | .plain state => state
  | _ => c.quotedState

structure Holds (b : BufferScan) (c : UriScan) : Prop where
  state : b.state = c.state
  quotedState : b.quotedState = c.quotedState
  decoded : b.decoded = c.decoded
  u : b.out.u = c.u.length
  data : Holding b.out.data c.u
  dot : plainOf c = .swDot → c.u ≠ []

/-- All accesses are to the first `n` bytes. -/
structure InBounds (n : ℤ) (b : Buffer) : Prop where
  stores : ∀ o ∈ b.stores, 0 ≤ o ∧ o < n
  loads : ∀ o ∈ b.loads, 0 ≤ o ∧ o < n

theorem holding_update {data : ℤ → UInt8} {xs : List UInt8} (h : Holding data xs) {o : ℤ}
    (ho : xs.length ≤ o) (ch : UInt8) : Holding (Function.update data o ch) xs := by
  induction xs with
  | nil => trivial
  | cons x xs ih =>
    rw [List.length_cons] at ho
    refine ⟨?_,ih h.2 (by omega)⟩
    rw [Function.update_of_ne (by omega)]
    exact h.1

theorem holding_suffix {data : ℤ → UInt8} {xs ys : List UInt8} (h : Holding data ys)
    (hs : xs <:+ ys) : Holding data xs := by
  obtain ⟨front,rfl⟩ := hs
  induction front with
  | nil => exact h
  | cons x front ih => exact ih h.2

theorem written_holding {b : Buffer} {xs : List UInt8} (h : Holding b.data xs)
    (hu : b.u = xs.length) : written b = xs.reverse := by
  have hbytes : (List.range xs.length).map (fun i : ℕ => b.data i) = xs.reverse := by
    clear hu
    induction xs with
    | nil => rfl
    | cons x xs ih =>
      rw [List.length_cons, List.range_succ, List.map_append, ih h.2, List.reverse_cons]
      simp only [List.map_cons, List.map_nil, h.1]
  rw [written, hu, Int.toNat_natCast]
  exact hbytes

/-- The loop stops behind the closest slash, or in front of the buffer; it loads nothing
that is not written. -/
theorem back_to_slash {data : ℤ → UInt8} (xs : List UInt8) (h : Holding data xs)
    (stores loads : List ℤ) : ∃ u more,
      backToSlash ⟨data,xs.length-1,stores,loads⟩ =
        (decide (xs.dropWhile (fun x => decide (x ≠ slash)) ≠ []),
          ⟨data,u,stores,more++loads⟩) ∧
      (∀ o ∈ more, 0 ≤ o ∧ o < xs.length) ∧
      (xs.dropWhile (fun x => decide (x ≠ slash)) ≠ [] →
        u = (xs.dropWhile fun x => decide (x ≠ slash)).length) := by
  induction xs generalizing loads with
  | nil =>
    rw [backToSlash, if_pos (by simp)]
    exact ⟨-1,[],rfl,fun o ho => absurd ho List.not_mem_nil,fun hn => absurd rfl hn⟩
  | cons x xs ih =>
    have hu : (((x::xs).length : ℕ) : ℤ)-1 = xs.length := by
      rw [List.length_cons]
      omega
    have hlast : ∀ o, o = (xs.length : ℤ) → 0 ≤ o ∧ o < (x::xs).length := by
      intro o ho
      rw [List.length_cons]
      omega
    rw [hu, backToSlash, if_neg (by simp)]
    simp only [Buffer.load, h.1]
    by_cases hx : x = slash
    · rw [if_pos hx, List.dropWhile_cons_of_neg (by simpa using hx)]
      refine ⟨xs.length+1,[(xs.length : ℤ)],rfl,?_,fun _ => by rw [List.length_cons]; rfl⟩
      intro o ho
      exact hlast o (List.mem_singleton.mp ho)
    rw [if_neg hx, List.dropWhile_cons_of_pos (by simpa using hx)]
    obtain ⟨u,more,heq,hmore,hfound⟩ := ih h.2 (xs.length::loads)
    refine ⟨u,more++[(xs.length : ℤ)],?_,?_,hfound⟩
    · rw [heq, List.append_assoc]
      rfl
    · intro o ho
      rcases List.mem_append.mp ho with ho | ho
      · have := hmore o ho
        rw [List.length_cons]
        omega
      · exact hlast o (List.mem_singleton.mp ho)

theorem holds_put {b : BufferScan} {c : UriScan} (h : Holds b c) (state : PlainState)
    (ch : UInt8) : Holds (b.put state ch) (put c state ch) where
  state := rfl
  quotedState := h.quotedState
  decoded := h.decoded
  u := by
    simp only [BufferScan.put, Buffer.put, put, h.u, List.length_cons]
    omega
  data := by
    refine ⟨?_,holding_update h.data (le_of_eq h.u.symm) ch⟩
    simp only [BufferScan.put, Buffer.put, h.u, Function.update_self]
  dot := fun _ => List.cons_ne_nil ch c.u

theorem bounds_put {n : ℤ} {b : Buffer} (h : InBounds n b) (hu : 0 ≤ b.u) (hn : b.u < n)
    (ch : UInt8) : InBounds n (b.put ch) := by
  refine ⟨fun o ho => ?_,h.loads⟩
  rcases List.mem_cons.mp ho with rfl | ho
  · exact ⟨hu,hn⟩
  · exact h.stores o ho

theorem bounds_load {n : ℤ} {b : Buffer} (h : InBounds n b) (hu : 0 ≤ b.u) (hn : b.u < n) :
    InBounds n b.load := by
  refine ⟨h.stores,fun o ho => ?_⟩
  rcases List.mem_cons.mp ho with rfl | ho
  · exact ⟨hu,hn⟩
  · exact h.loads o ho

/-! ## One turn -/

/-- The turns of both scanners agree, and the accesses are to the first `n` bytes. -/
inductive Agree (n : ℤ) (len : ℕ) : Turn → BufferTurn → Prop
  | next {d : UriScan} {b : BufferScan} (h : Holds b d) (hb : InBounds n b.out)
      (hlen : d.u.length ≤ len+1) : Agree n len (.next d) (.next b)
  | args {d : UriScan} {b : BufferScan} (h : Holds b d) (hb : InBounds n b.out) :
      Agree n len (.args d) (.args b)
  | done {d : UriScan} {b : BufferScan} (h : Holds b d) (hb : InBounds n b.out) :
      Agree n len (.done d) (.done b)
  | invalid {b : BufferScan} (hb : InBounds n b.out) : Agree n len .invalid (.invalid b)

variable {n : ℤ} {b : BufferScan} {c : UriScan}

theorem agree_put (h : Holds b c) (hb : InBounds n b.out) (hn : (c.u.length : ℤ) < n)
    (state : PlainState) (ch : UInt8) :
    Agree n c.u.length (.next (put c state ch)) (.next (b.put state ch)) := by
  refine .next (holds_put h state ch) ?_ le_rfl
  exact bounds_put hb (by rw [h.u]; omega) (by rw [h.u]; exact hn) ch

theorem agree_leave (h : Holds b c) (hb : InBounds n b.out) (hn : (c.u.length : ℤ) < n)
    (state : PlainState) (hdot : state = .swDot → c.u ≠ []) (ch : UInt8) :
    Agree n c.u.length (leaveTurn state c ch) (leaveBuffer state b ch) := by
  rw [leaveTurn, leaveBuffer]
  split_ifs
  · exact .next ⟨rfl,rfl,h.decoded,h.u,h.data,hdot⟩ hb (Nat.le_succ _)
  · exact .args h hb
  · exact .done h hb
  · obtain ⟨h1,h2,h3,h4,h5,h6⟩ := holds_put h .swUsual ch
    refine .next ⟨h1,h2,h3,h4,h5,h6⟩ ?_ le_rfl
    exact bounds_put hb (by rw [h.u]; omega) (by rw [h.u]; exact hn) ch
  · exact agree_put h hb hn .swUsual ch

theorem agree_usual (h : Holds b c) (hb : InBounds n b.out) (hn : (c.u.length : ℤ) < n)
    (ch : UInt8) : Agree n c.u.length (usualTurn c ch) (usualBuffer b ch) := by
  have hbounds := bounds_put hb (by rw [h.u]; omega) (by rw [h.u]; exact hn) ch
  rw [usualTurn, usualBuffer]
  split_ifs
  · exact agree_put h hb hn .swUsual ch
  · obtain ⟨h1,h2,h3,h4,h5,h6⟩ := holds_put h .swSlash ch
    exact .next ⟨h1,h2,h3,h4,h5,h6⟩ hbounds le_rfl
  · obtain ⟨h1,h2,h3,h4,h5,h6⟩ := holds_put h .swUsual ch
    exact .next ⟨h1,h2,h3,h4,h5,h6⟩ hbounds le_rfl
  · exact agree_leave h hb hn .swUsual (fun he => by cases he) ch

theorem agree_slash (h : Holds b c) (hb : InBounds n b.out) (hn : (c.u.length : ℤ) < n)
    (merge : Bool) (ch : UInt8) :
    Agree n c.u.length (slashTurn merge c ch) (slashBuffer merge b ch) := by
  rw [slashTurn, slashBuffer]
  split_ifs
  · exact agree_put h hb hn .swUsual ch
  · exact .next ⟨rfl,h.quotedState,h.decoded,h.u,h.data,fun he => by cases he⟩ hb
      (Nat.le_succ _)
  · exact agree_put h hb hn .swSlash ch
  · exact agree_put h hb hn .swDot ch
  · exact agree_leave h hb hn .swSlash (fun he => by cases he) ch

theorem agree_dot (h : Holds b c) (hb : InBounds n b.out) (hn : (c.u.length : ℤ) < n)
    (hne : c.u ≠ []) (ch : UInt8) :
    Agree n c.u.length (dotTurn c ch) (dotBuffer b ch) := by
  rw [dotTurn, dotBuffer]
  split_ifs
  · exact agree_put h hb hn .swUsual ch
  · have hpos := List.length_pos_of_ne_nil hne
    refine .next ⟨rfl,h.quotedState,h.decoded,?_,?_,fun he => by cases he⟩
      ⟨hb.stores,hb.loads⟩ ?_
    · simp only [h.u, List.length_tail]
      omega
    · exact holding_suffix h.data (List.tail_suffix c.u)
    · simp only [List.length_tail]
      omega
  · exact agree_put h hb hn .swDotDot ch
  · exact agree_leave h hb hn .swDot (fun _ => hne) ch

theorem agree_back (h : Holds b c) (hb : InBounds n b.out) (hn : (c.u.length : ℤ) < n) :
    Agree n c.u.length
      (match (c.u.drop 4).dropWhile (fun x => decide (x ≠ slash)) with
        | [] => .invalid
        | u => .next { c with state := .plain .swSlash, u := u })
      (if (backToSlash { b.out with u := b.out.u-5 }).1 then
        .next { b with state := .plain .swSlash
                       out := (backToSlash { b.out with u := b.out.u-5 }).2 }
      else .invalid { b with out := (backToSlash { b.out with u := b.out.u-5 }).2 }) := by
  by_cases hshort : c.u.length < 4
  · have hback : backToSlash { b.out with u := b.out.u-5 } =
        (false, { b.out with u := b.out.u-5 }) := by
      rw [backToSlash, if_pos]
      simp only [h.u]
      omega
    rw [hback, List.drop_eq_nil_of_le (by omega), if_neg (by simp)]
    exact .invalid ⟨hb.stores,hb.loads⟩
  have hsuffix := List.drop_suffix 4 c.u
  have hu : ({ b.out with u := b.out.u-5 } : Buffer) =
      ⟨b.out.data,(c.u.drop 4).length-1,b.out.stores,b.out.loads⟩ := by
    have hz : b.out.u-5 = ((c.u.drop 4).length : ℤ)-1 := by
      rw [h.u, List.length_drop]
      omega
    rw [hz]
  obtain ⟨u,more,heq,hmore,hfound⟩ := back_to_slash (c.u.drop 4)
    (holding_suffix h.data hsuffix) b.out.stores b.out.loads
  have hbounds : InBounds n ⟨b.out.data,u,b.out.stores,more++b.out.loads⟩ := by
    refine ⟨hb.stores,fun o ho => ?_⟩
    rcases List.mem_append.mp ho with ho | ho
    · have hlt := hmore o ho
      rw [List.length_drop] at hlt
      omega
    · exact hb.loads o ho
  rw [hu, heq]
  cases hkept : (c.u.drop 4).dropWhile (fun x => decide (x ≠ slash)) with
  | nil =>
    rw [if_neg (by simp)]
    exact .invalid hbounds
  | cons x kept =>
    rw [hkept] at hfound
    have hsub : x::kept <:+ c.u := by
      rw [← hkept]
      exact (List.dropWhile_suffix _).trans hsuffix
    rw [if_pos (by simp)]
    refine .next ⟨rfl,h.quotedState,h.decoded,hfound (List.cons_ne_nil x kept),
      holding_suffix h.data hsub,fun he => by cases he⟩ hbounds ?_
    exact hsub.length_le.trans (Nat.le_succ _)

theorem agree_dot_dot (h : Holds b c) (hb : InBounds n b.out) (hn : (c.u.length : ℤ) < n)
    (ch : UInt8) : Agree n c.u.length (dotDotTurn c ch) (dotDotBuffer b ch) := by
  rw [dotDotTurn, dotDotBuffer]
  by_cases hu : usual ch = true
  · rw [if_pos hu, if_pos hu]
    exact agree_put h hb hn .swUsual ch
  rw [if_neg hu, if_neg hu]
  by_cases hslash : ch = slash
  · rw [if_pos hslash, if_pos hslash]
    exact agree_back h hb hn
  · rw [if_neg hslash, if_neg hslash]
    exact agree_leave h hb hn .swDotDot (fun he => by cases he) ch

theorem agree_plain (h : Holds b c) (hb : InBounds n b.out) (hn : (c.u.length : ℤ) < n)
    (merge : Bool) (state : PlainState) (hdot : state = .swDot → c.u ≠ []) (ch : UInt8) :
    Agree n c.u.length (plainTurn merge state c ch) (plainBuffer merge state b ch) := by
  cases state with
  | swUsual => exact agree_usual h hb hn ch
  | swSlash => exact agree_slash h hb hn merge ch
  | swDot => exact agree_dot h hb hn (hdot rfl) ch
  | swDotDot => exact agree_dot_dot h hb hn ch

theorem holds_logged (h : Holds b c) : Holds b.logged c :=
  ⟨h.state,h.quotedState,h.decoded,h.u,h.data,h.dot⟩

theorem bounds_logged (h : Holds b c) (hb : InBounds n b.out) (hn : (c.u.length : ℤ) < n) :
    InBounds n b.logged.out :=
  bounds_load hb (by rw [h.u]; omega) (by rw [h.u]; exact hn)

theorem agree_quoted (h : Holds b c) (hb : InBounds n b.out) (hs : c.state = .swQuoted)
    (ch : UInt8) : Agree n c.u.length (quotedTurn c ch) (quotedBuffer b ch) := by
  have hdot : c.quotedState = .swDot → c.u ≠ [] := by
    have hd := h.dot
    rw [plainOf, hs] at hd
    exact hd
  rw [quotedTurn, quotedBuffer]
  split_ifs
  · exact .next ⟨rfl,h.quotedState,rfl,h.u,h.data,hdot⟩ hb (Nat.le_succ _)
  · exact .next ⟨rfl,h.quotedState,rfl,h.u,h.data,hdot⟩ hb (Nat.le_succ _)
  · exact .invalid hb

theorem agree_decoded (h : Holds b c) (hb : InBounds n b.out) (hn : (c.u.length : ℤ) < n)
    (hs : c.state = .swQuotedSecond) (merge plusInUri : Bool) (ch : UInt8) :
    Agree n c.u.length
      (plainTurn merge c.quotedState
        { c with state := .plain c.quotedState, plusInUri := plusInUri } ch)
      (plainBuffer merge b.quotedState { b with state := .plain b.quotedState }.logged ch) := by
  have hdot : c.quotedState = .swDot → c.u ≠ [] := by
    have hd := h.dot
    rw [plainOf, hs] at hd
    exact hd
  have hholds : Holds { b with state := .plain b.quotedState }
      { c with state := .plain c.quotedState, plusInUri := plusInUri } :=
    ⟨by rw [h.quotedState],h.quotedState,h.decoded,h.u,h.data,hdot⟩
  rw [h.quotedState] at hholds ⊢
  exact agree_plain (holds_logged hholds) (bounds_logged hholds hb hn) hn merge c.quotedState
    hdot ch

theorem agree_quoted_second (h : Holds b c) (hb : InBounds n b.out) (hn : (c.u.length : ℤ) < n)
    (hs : c.state = .swQuotedSecond) (merge : Bool) (ch : UInt8) :
    Agree n c.u.length (quotedSecondTurn merge c ch) (quotedSecondBuffer merge b ch) := by
  have hdecoded (plusInUri : Bool) := agree_decoded h hb hn hs merge plusInUri
  have hbyte (low : UInt8) : (b.decoded <<< 4)+low = (c.decoded <<< 4)+low := by
    rw [h.decoded]
  rw [quotedSecondTurn, quotedSecondBuffer]
  by_cases h1 : isDigit ch = true
  · rw [if_pos h1, if_pos h1]
    simp only [hbyte]
    generalize (c.decoded <<< 4)+(ch - 48) = x
    split_ifs
    · exact agree_put h hb hn .swUsual x
    · exact .invalid hb
    · exact hdecoded c.plusInUri x
  rw [if_neg h1, if_neg h1]
  by_cases h2 : 97 ≤ (ch ||| 0x20) ∧ (ch ||| 0x20) ≤ 102
  · rw [if_pos h2, if_pos h2]
    simp only [hbyte]
    generalize (c.decoded <<< 4)+((ch ||| 0x20) - 97+10) = x
    split_ifs
    · exact agree_put h hb hn .swUsual x
    · exact hdecoded true x
    · exact hdecoded c.plusInUri x
  · rw [if_neg h2, if_neg h2]
    exact .invalid hb

theorem agree_turn (h : Holds b c) (hb : InBounds n b.out) (hn : (c.u.length : ℤ) < n)
    (merge : Bool) (ch : UInt8) :
    Agree n c.u.length (turn merge c ch) (turnBuffer merge b ch) := by
  have hl := holds_logged h
  have hbl := bounds_logged h hb hn
  rw [turn, turnBuffer, h.state]
  cases hs : c.state with
  | plain state =>
    have hdot : state = .swDot → c.u ≠ [] := by
      have hd := h.dot
      rw [plainOf, hs] at hd
      exact hd
    exact agree_plain hl hbl hn merge state hdot ch
  | swQuoted => exact agree_quoted hl hbl hs ch
  | swQuotedSecond => exact agree_quoted_second hl hbl hn hs merge ch

/-! ## A run -/

theorem turn_question (merge : Bool) (c d : UriScan) : turn merge c question ≠ .next d := by
  intro h
  rw [turn] at h
  cases hs : c.state with
  | plain state =>
    rw [hs] at h
    have hturn := ComplexUriPath.plain_turn_leave merge state c question (by decide)
    simp only at h
    rw [hturn] at h
    cases h
  | swQuoted =>
    rw [hs] at h
    cases h
  | swQuotedSecond =>
    rw [hs] at h
    cases h

def front (raw : List UInt8) : List UInt8 := raw.takeWhile fun ch => decide (ch ≠ question)

theorem scan_buffer (merge : Bool) (raw : List UInt8) (h : Holds b c) (hb : InBounds n b.out)
    (hn : (c.u.length+(front raw).length : ℤ) < n) :
    (scanBuffer merge b raw).1 = (scan merge c raw).map ParsedUri.uri ∧
      InBounds n (scanBuffer merge b raw).2 := by
  induction raw generalizing b c with
  | nil =>
    rw [scanBuffer, scan, Option.map_some, written_holding h.data h.u]
    exact ⟨rfl,hb⟩
  | cons ch rest ih =>
    have hnow : (c.u.length : ℤ) < n := by omega
    have hagree := agree_turn h hb hnow merge ch
    have hquestion : ∀ d, turn merge c ch = .next d → ch ≠ question := by
      rintro d hturn rfl
      exact turn_question merge c d hturn
    rw [scanBuffer, scan]
    generalize turn merge c ch = t, turnBuffer merge b ch = t' at hagree hquestion
    cases hagree with
    | next hd hbd hlen =>
      have hfront : (front (ch::rest)).length = (front rest).length+1 := by
        rw [front, List.takeWhile_cons_of_pos (by simpa using hquestion _ rfl)]
        rfl
      rw [hfront] at hn
      exact ih hd hbd (by omega)
    | args hd hbd =>
      refine ⟨?_,hbd⟩
      rw [Option.map_some, ComplexUriPath.finish_args_uri]
      exact congrArg some (written_holding hd.data hd.u)
    | done hd hbd =>
      exact ⟨congrArg some (written_holding hd.data hd.u),hbd⟩
    | invalid hbd => exact ⟨rfl,hbd⟩

theorem front_le {raw : List UInt8} {k : ℕ} (h : raw[k]? = some question) :
    (front raw).length ≤ k := by
  induction raw generalizing k with
  | nil => cases h
  | cons ch rest ih =>
    rw [front]
    by_cases hch : ch = question
    · rw [List.takeWhile_cons_of_neg (by simpa using hch)]
      exact Nat.zero_le k
    rw [List.takeWhile_cons_of_pos (by simpa using hch)]
    cases k with
    | zero => exact absurd (Option.some.inj h) hch
    | succ k => exact Nat.succ_le_succ (ih h)

theorem start_holds (data : ℤ → UInt8) : Holds (bufferStart data) scanStart :=
  ⟨rfl,rfl,rfl,rfl,trivial,fun he => by cases he⟩

theorem start_bounds (n : ℤ) (data : ℤ → UInt8) : InBounds n (bufferStart data).out :=
  ⟨fun _ ho => absurd ho List.not_mem_nil,fun _ ho => absurd ho List.not_mem_nil⟩

theorem buffer_result (merge : Bool) (raw : List UInt8) (data : ℤ → UInt8) :
    (scanBuffer merge (bufferStart data) raw).1 =
      (ngxHttpParseComplexUri raw merge).map ParsedUri.uri := by
  have hzero : scanStart.u.length = 0 := rfl
  exact (scan_buffer merge raw (start_holds data) (start_bounds ((front raw).length+1) data)
    (by rw [hzero]; omega)).1

/-- For a raw URI that begins with a slash, whatever is in the memory: all accesses are to the
bytes allocated, and what is returned is that of the reference exactly under the condition. -/
theorem parse_complex_uri_reference (merge : Bool) (raw : List UInt8) (argsStart : Option ℕ)
    (data : ℤ → UInt8) (h : raw.head? = some slash)
    (hargs : ∀ k, argsStart = some k → 0 < k ∧ raw[k-1]? = some question) :
    InBounds (uriLen raw argsStart+1) (scanBuffer merge (bufferStart data) raw).2 ∧
      ((scanBuffer merge (bufferStart data) raw).1 = reference merge raw ↔
        AsReference merge raw) := by
  have hlen : (front raw).length ≤ uriLen raw argsStart := by
    cases argsStart with
    | none => exact (List.takeWhile_prefix _).length_le
    | some k => exact front_le (hargs k rfl).2
  have hzero : scanStart.u.length = 0 := rfl
  have hbounds := (scan_buffer merge raw (start_holds data)
    (start_bounds (uriLen raw argsStart+1) data) (by rw [hzero]; omega)).2
  refine ⟨hbounds,?_⟩
  rw [buffer_result]
  exact complex_uri_reference merge raw h

def climbing : List UInt8 := [slash, 97, slash, dot, dot, slash, 98, question, 99]

theorem parse_complex_uri_reference_climbing :
    InBounds 8 (scanBuffer true (bufferStart fun _ => 0) climbing).2 ∧
      (scanBuffer true (bufferStart fun _ => 0) climbing).1 = some [slash, 98] := by
  obtain ⟨hbounds,hresult⟩ := parse_complex_uri_reference true climbing (some 8) (fun _ => 0) rfl
    (fun k hk => by cases hk; decide)
  refine ⟨hbounds,hresult.mpr ⟨fun path hpath => .inr ?_⟩⟩
  have hp : ComplexUriPath.pathBytes climbing = some [slash, 97, slash, dot, dot, slash, 98] := by
    decide
  obtain rfl := Option.some.inj (hp.symm.trans hpath)
  rw [if_neg (by decide)]
  exact .inl ⟨merged_not_over _,by decide⟩

/-- `/a//../b`, with slashes that are not merged -/
theorem empty_segment_taken : ¬∀ (merge : Bool) (raw : List UInt8) (data : ℤ → UInt8),
    raw.head? = some slash → (scanBuffer merge (bufferStart data) raw).1 = reference merge raw := by
  intro h
  have ht := h false [slash, 97, slash, slash, dot, dot, slash, 98] (fun _ => 0) rfl
  rw [buffer_result] at ht
  exact absurd ht (by decide)

end Nginx.UriBuffer
