import Nginx.CharsetRecode
import Mathlib.Data.List.Infix
import Mathlib.Data.List.TakeWhile

/-!
# When recoding does not depend on the buffers

In front of every buffer the saved bytes and the bytes still to come are the rest of
the text, and what is saved is a part of its first character, or all of it. The loop
keeps this, and fresh buffers do. A buffer that completes a saved character, or goes on
behind it, is recoded as it should be, and so is one that only adds to a single saved
byte. With more bytes saved, a buffer that does not go on behind the character is read
beyond its end. A character that ends with its buffer behind one saved byte is written
when the next buffer comes.
-/

set_option autoImplicit false

namespace Nginx.CharsetRecodeLaw
open Nginx.CharsetRecode

/-! ## Characters -/

variable (c : Char)

theorem char_bound : c.toNat < 0x110000 := by
  rcases c.valid with h | ⟨-,h⟩
  · exact Nat.lt_trans h (by decide)
  · exact h

theorem encode_ascii (h : c.toNat < 0x80) : String.utf8EncodeChar c = [UInt8.ofNat c.toNat] := by
  have hle : c.val.toNat ≤ 0x7f := Nat.le_of_lt_succ h
  rw [String.utf8EncodeChar, if_pos hle]
  rfl

variable (n : ℕ)

theorem toNat_ofNat (h : n < 256) : (UInt8.ofNat n).toNat = n := by
  rw [UInt8.toNat_ofNat']
  exact Nat.mod_eq_of_lt h

abbrev width (c : Char) : ℕ := (String.utf8EncodeChar c).length

theorem width_bounds : 1 ≤ width c ∧ width c ≤ 4 := by
  unfold width String.utf8EncodeChar
  simp only
  split_ifs <;> simp

variable (u : UInt8)

theorem decode_two (v : UInt8) (xs : List UInt8) (n : ℕ) (hu : 0xc2 ≤ u.toNat)
    (hu' : u.toNat < 0xe0) (hv : 0x80 ≤ v.toNat) (hn : 2 ≤ n) (hn' : n < 2^64)
    (hvalid : u.toNat % 32*64+v.toNat % 64 > 0x7f) :
    ngxUtf8Decode (u::v::xs) n = .ok (u.toNat % 32*64+v.toNat % 64, 2) := by
  have hlen : ¬ (n+(2^64-1)) % 2^64 < 1 := by omega
  rw [ngxUtf8Decode]
  simp only [ge_iff_le, Nat.not_le.mpr (show u.toNat < 0xf0 by omega), Nat.not_le.mpr hu', hu,
    if_false, if_true, if_neg hlen, decodeTail, Nat.not_lt.mpr hv, if_pos hvalid]

theorem decode_three (v w : UInt8) (xs : List UInt8) (n : ℕ) (hu : 0xe0 ≤ u.toNat)
    (hu' : u.toNat < 0xf0) (hv : 0x80 ≤ v.toNat) (hw : 0x80 ≤ w.toNat) (hn : 3 ≤ n) (hn' : n < 2^64)
    (hvalid : (u.toNat % 16*64+v.toNat % 64)*64+w.toNat % 64 > 0x7ff) :
    ngxUtf8Decode (u::v::w::xs) n = .ok ((u.toNat % 16*64+v.toNat % 64)*64+w.toNat % 64, 3) := by
  have hlen : ¬ (n+(2^64-1)) % 2^64 < 2 := by omega
  rw [ngxUtf8Decode]
  simp only [ge_iff_le, Nat.not_le.mpr hu', hu, if_false, if_true, if_neg hlen, decodeTail,
    Nat.not_lt.mpr hv, Nat.not_lt.mpr hw, if_pos hvalid]

theorem decode_four (v w x : UInt8) (xs : List UInt8) (n : ℕ) (hu : 0xf0 ≤ u.toNat)
    (hv : 0x80 ≤ v.toNat) (hw : 0x80 ≤ w.toNat) (hx : 0x80 ≤ x.toNat) (hn : 4 ≤ n) (hn' : n < 2^64)
    (hvalid : ((u.toNat % 8*64+v.toNat % 64)*64+w.toNat % 64)*64+x.toNat % 64 > 0xffff) :
    ngxUtf8Decode (u::v::w::x::xs) n =
      .ok (((u.toNat % 8*64+v.toNat % 64)*64+w.toNat % 64)*64+x.toNat % 64, 4) := by
  have hlen : ¬ (n+(2^64-1)) % 2^64 < 3 := by omega
  rw [ngxUtf8Decode]
  simp only [ge_iff_le, hu, if_false, if_true, if_neg hlen, decodeTail,
    Nat.not_lt.mpr hv, Nat.not_lt.mpr hw, Nat.not_lt.mpr hx, if_pos hvalid]

variable (xs : List UInt8)

theorem decode_char (n : ℕ) (hc : 0x80 ≤ c.toNat) (hn : width c ≤ n) (hn' : n < 2^64) :
    ngxUtf8Decode (String.utf8EncodeChar c++xs) n = .ok (c.toNat, width c) := by
  have hbound := char_bound c
  have hnat : c.val.toNat = c.toNat := rfl
  unfold width String.utf8EncodeChar at *
  simp only [hnat] at *
  split_ifs at hn ⊢ with h1 h2 h3
  · omega
  · have e1 := toNat_ofNat (c.toNat/64 % 0x20+0xc0) (by omega)
    have e2 := toNat_ofNat (c.toNat % 0x40+0x80) (by omega)
    rw [List.cons_append, List.cons_append, decode_two _ _ _ n (by omega) (by omega) (by omega) hn hn'
      (by omega), e1, e2]
    simp only [List.length_cons, List.length_nil, Except.ok.injEq, Prod.mk.injEq, and_true]
    omega
  · have e1 := toNat_ofNat (c.toNat/4096 % 0x10+0xe0) (by omega)
    have e2 := toNat_ofNat (c.toNat/64 % 0x40+0x80) (by omega)
    have e3 := toNat_ofNat (c.toNat % 0x40+0x80) (by omega)
    rw [List.cons_append, List.cons_append, List.cons_append, decode_three _ _ _ _ n (by omega)
      (by omega) (by omega) (by omega) hn hn' (by omega), e1, e2, e3]
    simp only [List.length_cons, List.length_nil, Except.ok.injEq, Prod.mk.injEq, and_true]
    omega
  · have e1 := toNat_ofNat (c.toNat/262144 % 0x08+0xf0) (by omega)
    have e2 := toNat_ofNat (c.toNat/4096 % 0x40+0x80) (by omega)
    have e3 := toNat_ofNat (c.toNat/64 % 0x40+0x80) (by omega)
    have e4 := toNat_ofNat (c.toNat % 0x40+0x80) (by omega)
    rw [List.cons_append, List.cons_append, List.cons_append, List.cons_append,
      decode_four _ _ _ _ _ n (by omega) (by omega) (by omega) (by omega) hn hn' (by omega), e1, e2, e3, e4]
    simp only [List.length_cons, List.length_nil, Except.ok.injEq, Prod.mk.injEq, and_true]
    omega

theorem decode_part (p xs : List UInt8) (n : ℕ) (hp : String.utf8EncodeChar c = u::p) (hn : 1 ≤ n)
    (hn' : n < width c) : ngxUtf8Decode (u::xs) n = .ok (incomplete, 0) := by
  have hbound := char_bound c
  have hnat : c.val.toNat = c.toNat := rfl
  unfold width String.utf8EncodeChar at *
  simp only [hnat] at *
  split_ifs at hp hn' with h1 h2 h3
  · simp at hn'
    omega
  · have e1 := toNat_ofNat (c.toNat/64 % 0x20+0xc0) (by omega)
    rw [(List.cons.inj hp).1] at e1
    simp only [List.length_cons, List.length_nil] at hn'
    rw [ngxUtf8Decode]
    simp only [ge_iff_le]
    rw [if_neg (by omega), if_neg (by omega), if_pos (by omega), if_pos (by omega)]
  · have e1 := toNat_ofNat (c.toNat/4096 % 0x10+0xe0) (by omega)
    rw [(List.cons.inj hp).1] at e1
    simp only [List.length_cons, List.length_nil] at hn'
    rw [ngxUtf8Decode]
    simp only [ge_iff_le]
    rw [if_neg (by omega), if_pos (by omega), if_pos (by omega)]
  · have e1 := toNat_ofNat (c.toNat/262144 % 0x08+0xf0) (by omega)
    rw [(List.cons.inj hp).1] at e1
    simp only [List.length_cons, List.length_nil] at hn'
    rw [ngxUtf8Decode]
    simp only [ge_iff_le]
    rw [if_pos (by omega), if_pos (by omega)]

theorem first_byte (p : List UInt8) (hp : String.utf8EncodeChar c = u::p) :
    u.toNat < 0x80 ↔ c.toNat < 0x80 := by
  have hbound := char_bound c
  have hnat : c.val.toNat = c.toNat := rfl
  unfold String.utf8EncodeChar at hp
  simp only [hnat] at hp
  split_ifs at hp with h1 h2 h3
  · have e1 := toNat_ofNat c.toNat (by omega)
    rw [(List.cons.inj hp).1] at e1
    omega
  · have e1 := toNat_ofNat (c.toNat/64 % 0x20+0xc0) (by omega)
    rw [(List.cons.inj hp).1] at e1
    omega
  · have e1 := toNat_ofNat (c.toNat/4096 % 0x10+0xe0) (by omega)
    rw [(List.cons.inj hp).1] at e1
    omega
  · have e1 := toNat_ofNat (c.toNat/262144 % 0x08+0xf0) (by omega)
    rw [(List.cons.inj hp).1] at e1
    omega

theorem entity_length (h : n < 0x110000) : (entity n).length ≤ 10 := by
  have hdigits : (Nat.digits 10 n).length ≤ 7 :=
    (Nat.digits_length_le_iff (by decide) n).mpr (Nat.lt_trans h (by decide))
  simp only [entity, List.length_append, List.length_map, List.length_reverse, List.length_cons,
    List.length_nil]
  omega

variable (t : CharsetTable)

theorem translate_length (c : Char) :
    0 < (translateChar t c).length ∧ (translateChar t c).length ≤ 10 := by
  unfold translateChar
  split_ifs
  · exact ⟨Nat.one_pos,by rw [List.length_singleton]; decide⟩
  · exact ⟨Nat.one_pos,by rw [List.length_singleton]; decide⟩
  · refine ⟨?_,entity_length _ (char_bound c)⟩
    simp [entity]

theorem written_char (c : Char) (hc : 0x80 ≤ c.toNat) : written t c.toNat = translateChar t c := by
  have hbound := char_bound c
  rw [translateChar, if_neg (by omega), written]
  split_ifs with h1 h2 h3 h4 h5 h6 <;> first | rfl | omega | simp_all

theorem completed_char (c : Char) (hc : 0x80 ≤ c.toNat) :
    completed t c.toNat = translateChar t c := by
  have hbound := char_bound c
  have hinc : c.toNat ≠ incomplete := by
    unfold incomplete
    omega
  rw [translateChar, if_neg (by omega), completed]
  by_cases h1 : c.toNat < 0x10000
  · simp only [h1, if_true, true_and]
    split_ifs with h2 h3
    · rfl
    · omega
    · rfl
  · simp only [h1, if_false, false_and]
    rw [if_neg (by decide), if_neg hinc, if_neg (by omega)]

/-! ## Texts -/

variable (cs : List Char)

theorem encode_cons : encode (c::cs) = String.utf8EncodeChar c++encode cs := List.flatMap_cons

theorem translate_cons (c : Char) (cs : List Char) :
    translate t (c::cs) = translateChar t c++translate t cs := List.flatMap_cons

variable (ds : List Char)

theorem translate_append :
    translate t (cs++ds) = translate t cs++translate t ds := List.flatMap_append

theorem encode_append : encode (cs++ds) = encode cs++encode ds :=
  List.flatMap_append

theorem char_cons : ∃ u p, String.utf8EncodeChar c = u::p := by
  cases h : String.utf8EncodeChar c with
  | nil => exact absurd h String.utf8EncodeChar_ne_nil
  | cons u p => exact ⟨u,p,rfl⟩

theorem produced_append (xs ys : List OutBuf) : produced (xs++ys) = produced xs++produced ys :=
  List.flatMap_append

variable (b : OutBuf)

theorem produced_singleton : produced [b] = b.produced := by
  rw [produced, List.flatMap_singleton]

/-! ## Output buffers -/

variable (size : ℕ)

theorem take_free_size (bs : List OutBuf) (b : OutBuf) (rest : List OutBuf)
    (h : takeFree size bs = some (b, rest)) : size ≤ b.size := by
  induction bs generalizing b rest with
  | nil => cases h
  | cons x bs ih =>
    rw [takeFree] at h
    split_ifs at h with hx
    · cases h
      exact hx
    · obtain ⟨⟨y,ys⟩,hfree,heq⟩ := Option.map_eq_some_iff.mp h
      cases heq
      exact ih y ys hfree

variable (ctx : Ctx)

theorem get_buffer_spec (size : ℕ) :
    (ngxHttpCharsetGetBuffer ctx size).1.data = [] ∧
    (ngxHttpCharsetGetBuffer ctx size).1.temporary = true ∧
    size ≤ (ngxHttpCharsetGetBuffer ctx size).1.size ∧
    (ngxHttpCharsetGetBuffer ctx size).2.saved = ctx.saved ∧
    (ngxHttpCharsetGetBuffer ctx size).2.savedLen = ctx.savedLen := by
  unfold ngxHttpCharsetGetBuffer
  cases hfree : takeFree size ctx.freeBuffers with
  | none => exact ⟨rfl,rfl,Nat.le_refl _,rfl,rfl⟩
  | some r => exact ⟨rfl,rfl,take_free_size size _ r.1 r.2 hfree,rfl,rfl⟩

theorem room_for : 10 ≤ roomFor size := by
  unfold roomFor ngxHtmlEntityLen
  split_ifs <;> omega

theorem put_ok (xs : List UInt8) (h : b.data.length+xs.length ≤ b.size) :
    b.put xs = .ok { b with data := b.data++xs } := if_pos h

/-- What the loop keeps of the buffer it writes to and of the context. -/
structure Open (d : Dst) : Prop where
  temporary : d.b.temporary = true
  saved : d.ctx.saved.length = 4
  none : d.ctx.savedLen = 0

def soFar (d : Dst) : List UInt8 := produced d.done++d.b.produced

theorem open_produced (h : b.temporary = true) : b.produced = b.data := by
  rw [OutBuf.produced, h, Bool.true_or, Bool.true_or, if_pos rfl]

def Dst.add (d : Dst) (xs : List UInt8) : Dst := { d with b := { d.b with data := d.b.data++xs } }

variable (d : Dst)

theorem open_add (xs : List UInt8) (h : Open d) : Open (Dst.add d xs) :=
  ⟨h.temporary,h.saved,h.none⟩

theorem so_far_add (xs : List UInt8) (h : Open d) : soFar (Dst.add d xs) = soFar d++xs := by
  rw [soFar, soFar, open_produced _ h.temporary, open_produced _ (open_add d xs h).temporary]
  exact (List.append_assoc _ _ _).symm

variable (src : List UInt8)

theorem make_room_spec (h : Open d) :
    Open (makeRoom d src) ∧ soFar (makeRoom d src) = soFar d ∧
    (makeRoom d src).b.data.length+10 ≤ (makeRoom d src).b.size := by
  unfold makeRoom
  split_ifs with hroom
  · obtain ⟨hdata,htemporary,hsize,hsaved,hlen⟩ :=
      get_buffer_spec d.ctx (src.length+ngxHtmlEntityLen)
    refine ⟨⟨htemporary,hsaved ▸ h.saved,hlen ▸ h.none⟩,?_,?_⟩
    · rw [soFar, open_produced _ htemporary, hdata, List.append_nil, produced_append,
        produced_singleton, soFar]
    · change (ngxHttpCharsetGetBuffer d.ctx (src.length+ngxHtmlEntityLen)).1.data.length+10 ≤
        (ngxHttpCharsetGetBuffer d.ctx (src.length+ngxHtmlEntityLen)).1.size
      rw [hdata, List.length_nil]
      unfold ngxHtmlEntityLen at hsize ⊢
      omega
  · refine ⟨h,rfl,?_⟩
    unfold ngxHtmlEntityLen at hroom
    omega

theorem memcpy_front (dst src : List UInt8) (h : src.length ≤ dst.length) :
    ngxMemcpy dst 0 src src.length = .ok (src++dst.drop src.length) := by
  rw [ngxMemcpy, if_neg (Nat.lt_irrefl _), if_neg (by omega), List.take_zero, List.nil_append,
    List.take_length, Nat.zero_add]

def Within (pend : List UInt8) (rest : List Char) : Prop :=
  pend = [] ∨ ∃ c cs, rest = c::cs ∧ pend.length < width c

variable (rest : List Char)

/-- What the loop comes to on bytes that start a text: the characters that are there are
translated, and a part of one behind them is saved. -/
theorem recode_spec (src tail : List UInt8) (fuel : ℕ) (d : Dst) (h : Open d)
    (htext : src++tail = encode rest) (hfuel : src.length ≤ fuel) (hfits : src.length < 2^64) :
    ∃ d' cs rest' pend, recode t fuel src d = .ok d' ∧ rest = cs++rest' ∧
      pend++tail = encode rest' ∧ Within pend rest' ∧ src = encode cs++pend ∧
      soFar d' = soFar d++translate t cs ∧ d'.ctx.saved.length = 4 ∧
      d'.ctx.savedLen = pend.length ∧ d'.ctx.saved.take pend.length = pend := by
  induction rest generalizing src fuel d with
  | nil =>
    have hnil : src = [] := (List.append_eq_nil_iff.mp htext).1
    subst hnil
    refine ⟨d,[],[],[],?_,rfl,htext,Or.inl rfl,rfl,(List.append_nil _).symm,h.saved,h.none,
      rfl⟩
    rw [recode]
  | cons c rest ih =>
    cases src with
    | nil =>
      refine ⟨d,[],c::rest,[],?_,rfl,htext,Or.inl rfl,rfl,(List.append_nil _).symm,h.saved,
        h.none,rfl⟩
      rw [recode]
    | cons x src =>
      cases fuel with
      | zero => exact absurd hfuel (by simp)
      | succ fuel =>
        obtain ⟨hopen,hsame,hroom⟩ := make_room_spec d (x::src) h
        obtain ⟨u,p,hchar⟩ := char_cons c
        have hwidth : width c = p.length+1 := by rw [width, hchar, List.length_cons]
        rw [encode_cons, hchar, List.cons_append, List.cons_append] at htext
        obtain ⟨rfl,hmore⟩ := List.cons.inj htext
        have hlength := translate_length t c
        rw [recode]
        generalize makeRoom d (x::src) = e at hopen hsame hroom ⊢
        by_cases hascii : x.toNat < 0x80
        · have hc := (first_byte c x p hchar).mp hascii
          have hone := encode_ascii c hc
          rw [hchar] at hone
          obtain ⟨hx,rfl⟩ := List.cons.inj hone
          rw [if_pos hascii, put_ok e.b [x] (by simp only [List.length_cons, List.length_nil]; omega)]
          obtain ⟨d',cs,rest',pend,hrun,hrest,hpend,hwithin,hsrc,hproduced,hsaved⟩ :=
            ih src fuel (Dst.add e [x]) (open_add e _ hopen) hmore (by simpa using hfuel)
              (by simp only [List.length_cons] at hfits; omega)
          refine ⟨d',c::cs,rest',pend,hrun,by rw [hrest, List.cons_append],hpend,hwithin,?_,?_,
            hsaved⟩
          · rw [encode_cons, hchar, hsrc, List.cons_append, List.cons_append, List.nil_append]
          · rw [hproduced, so_far_add e _ hopen, hsame, translate_cons, translateChar, if_pos hc, ← hx,
              List.append_assoc]
        have hc : 0x80 ≤ c.toNat := Nat.le_of_not_lt (fun hlt =>
          hascii ((first_byte c x p hchar).mpr hlt))
        rw [if_neg hascii]
        by_cases hthere : width c ≤ (x::src).length
        · have hfront : src = p++src.drop p.length := by
            have hle : p.length ≤ src.length := by
              simp only [List.length_cons] at hthere
              omega
            have := congrArg (List.take p.length) hmore
            rw [List.take_append_of_le_length hle, List.take_append_of_le_length (Nat.le_refl _),
              List.take_length] at this
            rw [← this, List.length_take, Nat.min_eq_left hle]
            exact (List.take_append_drop p.length src).symm
          have hdecode := decode_char c (src.drop p.length) (x::src).length hc hthere hfits
          rw [hchar, List.cons_append, ← hfront] at hdecode
          rw [hdecode]
          change ∃ d' cs rest' pend, (if c.toNat = incomplete then _ else _) = Except.ok d' ∧ _
          have hinc : c.toNat ≠ incomplete := by
            have := char_bound c
            unfold incomplete
            omega
          rw [if_neg hinc, written_char t c hc, put_ok e.b _ (by omega)]
          have hdrop : (x::src).drop (width c) = src.drop p.length := by
            rw [hwidth, List.drop_succ_cons]
          obtain ⟨d',cs,rest',pend,hrun,hrest,hpend,hwithin,hsrc,hproduced,hsaved⟩ :=
            ih (src.drop p.length) fuel (Dst.add e (translateChar t c)) (open_add e _ hopen) (by
                rw [hfront, List.append_assoc] at hmore
                exact List.append_cancel_left hmore)
              (by simp only [List.length_cons] at hfuel; rw [List.length_drop]; omega)
              (by simp only [List.length_cons] at hfits; rw [List.length_drop]; omega)
          refine ⟨d',c::cs,rest',pend,?_,by rw [hrest, List.cons_append],hpend,hwithin,?_,?_,
            hsaved⟩
          · change recode t fuel ((x::src).drop (width c)) _ = _
            rw [hdrop]
            exact hrun
          · rw [encode_cons, hchar, List.append_assoc, ← hsrc, List.cons_append, ← hfront]
          · rw [hproduced, so_far_add e _ hopen, hsame, translate_cons, List.append_assoc]
        have hlt := Nat.lt_of_not_le hthere
        have hdecode := decode_part c x p src (x::src).length hchar (by simp) hlt
        have hfour := (width_bounds c).2
        have hle : (x::src).length ≤ e.ctx.saved.length := by
          rw [hopen.saved]
          omega
        refine ⟨⟨e.done,if e.b.data = [] then { e.b with sync := true, temporary := false } else e.b,
          { e.ctx with saved := (x::src)++e.ctx.saved.drop (x::src).length,
                       savedLen := (x::src).length }⟩,
          [],c::rest,x::src,?_,rfl,?_,Or.inr ⟨c,rest,rfl,hlt⟩,rfl,?_,?_,rfl,?_⟩
        · rw [hdecode]
          simp only [bind, Except.bind, if_true, memcpy_front _ _ hle]
        · rw [encode_cons, hchar, List.cons_append, List.cons_append, hmore]
        · rw [← hsame, CharsetRecode.translate, List.flatMap_nil, List.append_nil, soFar, soFar]
          refine congrArg (fun xs => _++xs) ?_
          split_ifs with hnil
          · rw [open_produced _ hopen.temporary, OutBuf.produced]
            simp only [hnil, ite_self]
          · rfl
        · simp only [List.length_append, List.length_drop, hopen.saved] at hle ⊢
          omega
        · exact List.take_left' rfl

/-! ## One buffer -/

/-- What is saved is a part of the first character of the rest, or all of it. -/
structure Pending (ctx : Ctx) (rest : List Char) (tail : List UInt8) : Prop where
  saved : ctx.saved.length = 4
  text : ctx.saved.take ctx.savedLen++tail = encode rest
  part : ctx.savedLen = 0 ∨ ∃ c cs, rest = c::cs ∧ ctx.savedLen ≤ width c ∧ 2 ≤ width c

def Whole (ctx : Ctx) (rest : List Char) : Prop :=
  ctx.savedLen ≠ 0 ∧ ∃ c cs, rest = c::cs ∧ ctx.savedLen = width c

/-- A buffer behind what was saved is recoded: the characters `cs` have been translated. -/
structure Recoded (t : CharsetTable) (ctx ctx' : Ctx) (data tail : List UInt8) (rest cs rest' : List Char)
    (out : List OutBuf) : Prop where
  rest : rest = cs++rest'
  produced : produced out = translate t cs
  pending : Pending ctx' rest' tail
  bytes : ctx.saved.take ctx.savedLen++data = encode cs++ctx'.saved.take ctx'.savedLen

variable (tail : List UInt8)

theorem front_char (more : List UInt8) (h : src++tail = String.utf8EncodeChar c++more)
    (hthere : width c ≤ src.length) :
    ∃ src', src = String.utf8EncodeChar c++src' ∧ src'++tail = more := by
  obtain ⟨src',hsrc⟩ := List.prefix_of_prefix_length_le ⟨more,h.symm⟩ ⟨tail,rfl⟩ hthere
  refine ⟨src',hsrc.symm,?_⟩
  rw [← hsrc, List.append_assoc] at h
  exact List.append_cancel_left h

theorem width_ascii (hc : 0x80 ≤ c.toNat) : 2 ≤ width c := by
  have hnat : c.val.toNat = c.toNat := rfl
  unfold width String.utf8EncodeChar
  simp only [hnat]
  split_ifs <;> simp only [List.length_cons, List.length_nil] <;> omega

theorem within_part (pend : List UInt8) (rest : List Char) (h : Within pend rest) (hne : pend ≠ []) :
    ∃ c cs, rest = c::cs ∧ pend.length < width c ∧ 2 ≤ width c := by
  rcases h with hnil | ⟨c,cs,hrest,hlt⟩
  · exact absurd hnil hne
  refine ⟨c,cs,hrest,hlt,?_⟩
  have := List.length_pos_iff.mpr hne
  omega

theorem ascii_front (front more : List UInt8) (htext : front++more = encode rest)
    (hascii : ∀ x ∈ front, x.toNat < 0x80) :
    ∃ cs rest', rest = cs++rest' ∧ front = encode cs ∧ more = encode rest' ∧ translate t cs = front := by
  induction front generalizing rest with
  | nil => exact ⟨[],rest,rfl,rfl,htext,rfl⟩
  | cons x front ih =>
    cases rest with
    | nil => exact absurd htext (by simp [encode])
    | cons c rest =>
      obtain ⟨u,p,hchar⟩ := char_cons c
      rw [encode_cons, hchar, List.cons_append, List.cons_append] at htext
      obtain ⟨rfl,hmore⟩ := List.cons.inj htext
      have hc := (first_byte c x p hchar).mp (hascii x List.mem_cons_self)
      have hone := encode_ascii c hc
      rw [hchar] at hone
      obtain ⟨hx,rfl⟩ := List.cons.inj hone
      obtain ⟨cs,rest',hrest,hfront,hmore',htranslate⟩ :=
        ih rest hmore (fun y hy => hascii y (List.mem_cons_of_mem x hy))
      refine ⟨c::cs,rest',by rw [hrest, List.cons_append],?_,hmore',?_⟩
      · rw [encode_cons, hchar, hfront, List.singleton_append]
      · rw [translate_cons, htranslate, translateChar, if_pos hc, ← hx, List.singleton_append]

theorem take_while_ascii (data : List UInt8) :
    ∀ x ∈ data.takeWhile (fun x => x.toNat < 0x80), x.toNat < 0x80 :=
  fun x hx => by simpa using List.mem_takeWhile_imp hx

variable (buf : Buf)

theorem finish_recoded (ctx : Ctx) (before src tail : List UInt8) (cs rest : List Char) (d : Dst)
    (hd : Open d) (hbefore : before = encode cs) (hso : soFar d = translate t cs)
    (htext : src++tail = encode rest) (hbytes : ctx.saved.take ctx.savedLen++buf.data = before++src)
    (fuel : ℕ) (hfuel : src.length ≤ fuel) (hfits : src.length < 2^64) :
    ∃ out ctx' cs' rest', (do return finish buf (← recode t fuel src d)) =
        (.ok (out, ctx') : Except Fault (List OutBuf × Ctx)) ∧
      Recoded t ctx ctx' buf.data tail (cs++rest) cs' rest' out ∧ ¬ Whole ctx' rest' := by
  obtain ⟨d',cs',rest',pend,hrun,hrest,hpend,hwithin,hsrc,hproduced,hsaved,hlen,htake⟩ :=
    recode_spec t rest src tail fuel d hd htext hfuel hfits
  refine ⟨_,_,cs++cs',rest',by rw [hrun]; rfl,⟨by rw [hrest, List.append_assoc],?_,?_,?_⟩,?_⟩
  · rw [produced_append, produced_singleton, translate_append, ← hso, ← hproduced]
    rfl
  · refine ⟨hsaved,by rw [hlen, htake, hpend],?_⟩
    rw [hlen]
    by_cases hnil : pend = []
    · exact Or.inl (by rw [hnil, List.length_nil])
    · obtain ⟨c,cs,hc,hlt,htwo⟩ := within_part pend rest' hwithin hnil
      exact Or.inr ⟨c,cs,hc,Nat.le_of_lt hlt,htwo⟩
  · rw [hbytes, hbefore, hsrc, encode_append, List.append_assoc, hlen, htake]
  · rintro ⟨hne,c,ds,hc,hwhole⟩
    rw [hlen] at hne hwhole
    obtain ⟨c',cs',hc',hlt,-⟩ := within_part pend rest' hwithin
      (fun hnil => hne (by rw [hnil, List.length_nil]))
    rw [hc] at hc'
    obtain ⟨rfl,-⟩ := List.cons.inj hc'
    omega

theorem open_taken (size : ℕ) (done : List OutBuf) (hsaved : ctx.saved.length = 4)
    (hnone : ctx.savedLen = 0) :
    Open ⟨done,(ngxHttpCharsetGetBuffer ctx size).1,(ngxHttpCharsetGetBuffer ctx size).2⟩ ∧
    soFar ⟨done,(ngxHttpCharsetGetBuffer ctx size).1,(ngxHttpCharsetGetBuffer ctx size).2⟩ =
      produced done := by
  obtain ⟨hdata,htemporary,-,hsame,hlen⟩ := get_buffer_spec ctx size
  refine ⟨⟨htemporary,hsame ▸ hsaved,hlen ▸ hnone⟩,?_⟩
  rw [soFar, open_produced _ htemporary, hdata, List.append_nil]

theorem fresh_recoded (tail : List UInt8) (rest : List Char) (h : Pending ctx rest (buf.data++tail))
    (hnone : ctx.savedLen = 0) :
    ∃ out ctx' cs rest', recodeFresh t ctx buf = .ok (out, ctx') ∧
      Recoded t ctx ctx' buf.data tail rest cs rest' out ∧ ¬ Whole ctx' rest' := by
  have htext := h.text
  rw [hnone, List.take_zero, List.nil_append] at htext
  have hbytes : ctx.saved.take ctx.savedLen++buf.data = buf.data := by
    rw [hnone, List.take_zero, List.nil_append]
  have hsplit := List.takeWhile_append_dropWhile (p := fun x : UInt8 => decide (x.toNat < 0x80))
    (l := buf.data)
  have hascii := take_while_ascii buf.data
  have hhead := List.head?_dropWhile_not (fun x : UInt8 => decide (x.toNat < 0x80)) buf.data
  unfold recodeFresh
  simp only
  generalize buf.data.takeWhile (fun x : UInt8 => decide (x.toNat < 0x80)) = front at *
  generalize buf.data.dropWhile (fun x : UInt8 => decide (x.toNat < 0x80)) = src at *
  rw [← hsplit, List.append_assoc] at htext
  obtain ⟨cs,rest',hrest,hfront,hmore,htranslate⟩ := ascii_front t rest front _ htext hascii
  by_cases hall : src = []
  · rw [if_pos hall]
    rw [hall, List.append_nil] at hsplit
    rw [hall, List.nil_append] at hmore
    refine ⟨_,_,cs,rest',rfl,⟨hrest,?_,⟨h.saved,?_,Or.inl hnone⟩,?_⟩,fun hw => hw.1 hnone⟩
    · rw [produced_singleton, OutBuf.produced, htranslate, hsplit]
      exact if_pos buf.inMemory
    · rw [hnone, List.take_zero, List.nil_append, hmore]
    · rw [hbytes, ← hsplit, hfront, hnone, List.take_zero, List.append_nil]
  rw [if_neg hall]
  by_cases hlong : front.length > 512
  · rw [if_pos hlong]
    obtain ⟨x,src,rfl⟩ := List.exists_cons_of_ne_nil hall
    have hx : ¬ x.toNat < 0x80 := by simpa using hhead
    have hpart : produced [(⟨0,front,buf.temporary,buf.memory,buf.mmap,buf.flush,false,false,
        false⟩ : OutBuf)] = translate t cs := by
      rw [produced_singleton, OutBuf.produced, htranslate]
      exact if_pos buf.inMemory
    have hfits : (x::src).length < 2^64 := by
      have := buf.fits
      rw [← hsplit, List.length_append] at this
      omega
    cases rest' with
    | nil => exact absurd hmore (by simp [encode])
    | cons c rest' =>
      obtain ⟨u,p,hchar⟩ := char_cons c
      have hfirst := hmore
      rw [encode_cons, hchar, List.cons_append, List.cons_append] at hfirst
      obtain ⟨rfl,-⟩ := List.cons.inj hfirst
      have hc : 0x80 ≤ c.toNat := Nat.le_of_not_lt (fun hlt => hx ((first_byte c x p hchar).mpr hlt))
      by_cases hthere : width c ≤ (x::src).length
      · obtain ⟨src',hsrc,-⟩ := front_char c (x::src) tail (encode rest') (by rw [← encode_cons, hmore])
          hthere
        have hdecode := decode_char c src' (x::src).length hc hthere hfits
        rw [← hsrc] at hdecode
        have hinc : c.toNat ≠ incomplete := by
          have := char_bound c
          unfold incomplete
          omega
        obtain ⟨hopen,hso⟩ := open_taken ctx (roomFor (x::src).length)
          [⟨0,front,buf.temporary,buf.memory,buf.mmap,buf.flush,false,false,false⟩] h.saved hnone
        obtain ⟨out,ctx',cs',rest'',hrun,hrec,hnot⟩ := finish_recoded t buf ctx front (x::src) tail
          cs (c::rest') _ hopen hfront (hso.trans hpart) hmore (by rw [hbytes, hsplit]) (x::src).length
          (Nat.le_refl _) hfits
        refine ⟨out,ctx',cs',rest'',?_,by rwa [← hrest] at hrec,hnot⟩
        rw [hdecode]
        simp only [bind, Except.bind, hinc, if_false] at hrun ⊢
        exact hrun
      have hlt := Nat.lt_of_not_le hthere
      have hdecode := decode_part c x p src (x::src).length hchar (by simp) hlt
      have hfour := (width_bounds c).2
      have hle : (x::src).length ≤ ctx.saved.length := by
        rw [h.saved]
        omega
      have htake : ((x::src)++ctx.saved.drop (x::src).length).take (x::src).length = x::src :=
        List.take_left' rfl
      refine ⟨_,{ ctx with saved := (x::src)++ctx.saved.drop (x::src).length,
                            savedLen := (x::src).length },
        cs,c::rest',?_,⟨hrest,hpart,⟨?_,?_,?_⟩,?_⟩,?_⟩
      · rw [hdecode]
        simp only [bind, Except.bind, if_true, memcpy_front _ _ hle]
      · simp only [List.length_append, List.length_drop, h.saved] at hle ⊢
        omega
      · rw [htake, hmore]
      · exact Or.inr ⟨c,rest',rfl,Nat.le_of_lt hlt,width_ascii c hc⟩
      · rw [htake, hbytes, ← hsplit, hfront]
      · rintro ⟨-,c',ds,hc',hwhole⟩
        obtain ⟨rfl,-⟩ := List.cons.inj hc'
        change (x::src).length = width c at hwhole
        omega
  rw [if_neg hlong]
  obtain ⟨hopen,hso⟩ := open_taken ctx (roomFor buf.data.length) [] h.saved hnone
  obtain ⟨out,ctx',cs',rest'',hrun,hrec,hnot⟩ := finish_recoded t buf ctx [] buf.data tail [] rest _
    hopen rfl hso (by rw [← hsplit, List.append_assoc, htext]) hbytes buf.data.length (Nat.le_refl _)
    buf.fits
  exact ⟨out,ctx',cs',rest'',hrun,hrec,hnot⟩

theorem take_set (saved : List UInt8) (i : ℕ) (x : UInt8) (h : i < saved.length) :
    (saved.set i x).take (i+1) = saved.take i++[x] := by
  rw [List.set_eq_take_append_cons_drop, if_pos h, List.take_append, List.length_take,
    Nat.min_eq_left (Nat.le_of_lt h), List.take_take, Nat.min_eq_right (Nat.le_succ i),
    Nat.add_sub_cancel_left]
  rfl

theorem fill_saved (room i : ℕ) (saved p : List UInt8) (hi : i+room = 4) (hs : saved.length = 4)
    (hp : p ≠ []) :
    ∃ saved' i', fillSaved room i saved p = .ok (saved', i') ∧ saved'.length = 4 ∧
      saved'.take (min 4 (i+p.length)) = saved.take i++p.take room ∧
      (p.length ≤ room → i'+1 = i+p.length) ∧ (room < p.length → i' = 4) := by
  induction room generalizing i saved p with
  | zero =>
    have hpos := List.length_pos_iff.mpr hp
    refine ⟨saved,i,rfl,hs,?_,fun hle => by omega,fun _ => by omega⟩
    rw [List.take_zero, List.append_nil, List.take_of_length_le (by omega),
      List.take_of_length_le (by omega)]
  | succ room ih =>
    match p, hp with
    | [x], _ =>
      refine ⟨saved.set i x,i,rfl,by rw [List.length_set, hs],?_,fun _ => rfl,fun hlt => ?_⟩
      · rw [List.length_singleton, Nat.min_eq_right (by omega), take_set saved i x (by omega),
          List.take_succ_cons, List.take_nil]
      · simp only [List.length_singleton] at hlt
        omega
    | x::y::p, _ =>
      obtain ⟨saved',i',hrun,hlen,htake,hshort,hlong⟩ := ih (i+1) (saved.set i x) (y::p)
        (by omega) (by rw [List.length_set, hs]) (List.cons_ne_nil y p)
      refine ⟨saved',i',hrun,hlen,?_,fun hle => ?_,fun hlt => hlong ?_⟩
      · have hsum : i+(x::y::p).length = i+1+(y::p).length := by
          simp only [List.length_cons]
          omega
        rw [hsum, htake, take_set saved i x (by omega), List.take_succ_cons, List.append_assoc,
          List.singleton_append]
      · have := hshort (Nat.le_of_succ_le_succ hle)
        simp only [List.length_cons] at this ⊢
        omega
      · exact Nat.lt_of_succ_lt_succ hlt

theorem ascii_of_width (h : 2 ≤ width c) : 0x80 ≤ c.toNat := by
  refine Nat.le_of_not_lt (fun hlt => ?_)
  rw [width, encode_ascii c hlt, List.length_singleton] at h
  omega

theorem completed_recoded (tail saved more : List UInt8) (c : Char) (cs : List Char) (i : ℕ)
    (hpend : Pending ctx (c::cs) (buf.data++tail)) (hk : ctx.savedLen ≤ width c)
    (hc : 0x80 ≤ c.toNat)
    (hfill : fillSaved (ngxUtfLen-ctx.savedLen) ctx.savedLen ctx.saved buf.data = .ok (saved, i))
    (hlen : saved.length = 4) (hsaved : saved = String.utf8EncodeChar c++more) (hi : width c ≤ i)
    (hi' : i ≤ 4) (hm : width c ≤ ctx.savedLen+buf.data.length) :
    ∃ out ctx' cs' rest', recodeSaved t ctx buf = .ok (out, ctx') ∧
      Recoded t ctx ctx' buf.data tail (c::cs) cs' rest' out ∧ ¬ Whole ctx' rest' := by
  have hdecode := decode_char c more i hc hi (by omega)
  rw [← hsaved] at hdecode
  have hinc : c.toNat ≠ incomplete := by
    have := char_bound c
    unfold incomplete
    omega
  have htake : (ctx.saved.take ctx.savedLen).length = ctx.savedLen := by
    have := (width_bounds c).2
    rw [List.length_take, hpend.saved]
    omega
  have htext := hpend.text
  rw [encode_cons, ← List.append_assoc] at htext
  obtain ⟨src,hsrc,hmore⟩ := front_char c _ tail (encode cs) htext
    (by rw [List.length_append, htake]; exact hm)
  have hdrop : buf.data.drop (width c-ctx.savedLen) = src := by
    have := congrArg (List.drop (width c)) hsrc
    rwa [List.drop_append, htake, List.drop_of_length_le (by omega), List.nil_append,
      List.drop_left' rfl] at this
  obtain ⟨hdata,htemporary,hsize,hsame,hnone⟩ :=
    get_buffer_spec { ctx with saved := saved, savedLen := 0 } (roomFor buf.data.length)
  obtain ⟨hopen,hso⟩ := open_taken { ctx with saved := saved, savedLen := 0 } (roomFor buf.data.length) []
    hlen rfl
  have hroom := room_for buf.data.length
  have hten := (translate_length t c).2
  have hput := put_ok (ngxHttpCharsetGetBuffer { ctx with saved := saved, savedLen := 0 }
    (roomFor buf.data.length)).1 (translateChar t c) (by rw [hdata, List.length_nil]; omega)
  obtain ⟨out,ctx',cs',rest',hrun,hrec,hnot⟩ := finish_recoded t buf ctx
    (String.utf8EncodeChar c) src tail [c] cs (Dst.add _ (translateChar t c)) (open_add _ _ hopen)
    (by rw [encode_cons]; exact (List.append_nil _).symm)
    (by rw [so_far_add _ _ hopen, hso, translate_cons]; exact (List.append_nil _).symm) hmore hsrc
    buf.data.length (by rw [← hdrop, List.length_drop]; omega)
    (by have := buf.fits; rw [← hdrop, List.length_drop]; omega)
  refine ⟨out,ctx',cs',rest',?_,hrec,hnot⟩
  rw [recodeSaved, hfill]
  simp only [bind, Except.bind, hdecode, hinc, false_and, if_false, completed_char t c hc, hput,
    Nat.not_lt.mpr hk, hdrop] at hrun ⊢
  exact hrun

/-- What the buffers may do to a character of which `k` bytes are saved. -/
def Served (k m : ℕ) (c : Char) : Prop := k = 1 ∨ k = width c ∨ width c < k+m

theorem saved_recoded (tail : List UInt8) (c : Char) (cs : List Char)
    (h : Pending ctx (c::cs) (buf.data++tail)) (hne : buf.data ≠ []) (hk0 : ctx.savedLen ≠ 0)
    (hk : ctx.savedLen ≤ width c) (htwo : 2 ≤ width c) :
    (Served ctx.savedLen buf.data.length c →
      ∃ out ctx' cs' rest', recodeSaved t ctx buf = .ok (out, ctx') ∧
        Recoded t ctx ctx' buf.data tail (c::cs) cs' rest' out ∧
        (Whole ctx' rest' → ctx.savedLen = 1 ∧ 1+buf.data.length = width c) ∧
        (ctx.savedLen = 1 → 1+buf.data.length = width c → cs' = [])) ∧
    (¬ Served ctx.savedLen buf.data.length c → recodeSaved t ctx buf = .error .overread) := by
  have hc := ascii_of_width c htwo
  have hfour := (width_bounds c).2
  have hpos := List.length_pos_iff.mpr hne
  obtain ⟨saved,i,hfill,hlen,htake,hshort,hlong⟩ := fill_saved (ngxUtfLen-ctx.savedLen) ctx.savedLen
    ctx.saved buf.data (by unfold ngxUtfLen; omega) h.saved hne
  have hroom : ngxUtfLen-ctx.savedLen = 4-ctx.savedLen := rfl
  have hkept : (ctx.saved.take ctx.savedLen).length = ctx.savedLen := by
    rw [List.length_take, h.saved]
    omega
  have htext := h.text
  rw [encode_cons] at htext
  have hfront : saved.take (min 4 (ctx.savedLen+buf.data.length))++
      (buf.data.drop (ngxUtfLen-ctx.savedLen)++tail) = String.utf8EncodeChar c++encode cs := by
    rw [htake, List.append_assoc, ← List.append_assoc (buf.data.take _), List.take_append_drop, htext]
  have hcount : (saved.take (min 4 (ctx.savedLen+buf.data.length))).length =
      min 4 (ctx.savedLen+buf.data.length) := by
    rw [List.length_take, hlen]
    omega
  have hi : width c ≤ i ∨ i < width c := Nat.lt_or_ge i (width c) |>.symm.imp_left id
  have hcases : buf.data.length ≤ 4-ctx.savedLen ∧ i+1 = ctx.savedLen+buf.data.length ∨
      4-ctx.savedLen < buf.data.length ∧ i = 4 := by
    rcases Nat.lt_or_ge (4-ctx.savedLen) buf.data.length with hlt | hge
    · exact Or.inr ⟨hlt,hlong hlt⟩
    · exact Or.inl ⟨hge,hshort hge⟩
  rcases hi with hi | hi
  · -- The whole character is counted.
    have hserved : Served ctx.savedLen buf.data.length c := by
      unfold Served
      omega
    obtain ⟨more,hmore,-⟩ := front_char c _ _ (encode cs) hfront (by rw [hcount]; omega)
    have hsaved : saved = String.utf8EncodeChar c++
        (more++saved.drop (min 4 (ctx.savedLen+buf.data.length))) := by
      rw [← List.append_assoc, ← hmore, List.take_append_drop]
    obtain ⟨out,ctx',cs',rest',hrun,hrec,hnot⟩ := completed_recoded t ctx buf tail saved _ c cs i h hk
      hc hfill hlen hsaved hi (by omega) (by omega)
    exact ⟨fun _ => ⟨out,ctx',cs',rest',hrun,hrec,fun hw => absurd hw hnot,fun _ _ => by omega⟩,
      fun hno => absurd hserved hno⟩
  obtain ⟨u,p,hchar⟩ := char_cons c
  have hhead : ∃ q, saved = u::q := by
    cases saved with
    | nil => simp at hlen
    | cons x q =>
      have hpos4 : 0 < min 4 (ctx.savedLen+buf.data.length) := by omega
      obtain ⟨n,hn⟩ := Nat.exists_eq_succ_of_ne_zero (Nat.pos_iff_ne_zero.mp hpos4)
      rw [hn, List.take_succ_cons, hchar, List.cons_append, List.cons_append] at hfront
      exact ⟨q,by rw [(List.cons.inj hfront).1]⟩
  obtain ⟨q,rfl⟩ := hhead
  have hdecode := decode_part c u p q i hchar (by omega) hi
  have hi4 : i < ngxUtfLen := Nat.lt_of_lt_of_le hi hfour
  have hmlt : buf.data.length ≤ 4-ctx.savedLen ∧ i+1 = ctx.savedLen+buf.data.length := by
    unfold ngxUtfLen at hi4
    omega
  constructor
  · intro hserved
    have hone : ctx.savedLen = 1 := by
      unfold Served at hserved
      omega
    have hlast : i = buf.data.length := by omega
    rw [hone, Nat.min_eq_right (by omega), List.take_of_length_le (show buf.data.length ≤ ngxUtfLen-1 by
      unfold ngxUtfLen; omega)] at htake
    have hcopied : ngxMemcpy (u::q) 1 buf.data i =
        .ok ((u::q).take 1++buf.data++(u::q).drop (1+buf.data.length)) := by
      rw [ngxMemcpy, if_neg (by omega), if_neg (by rw [hlen]; omega), hlast, List.take_length]
    have hback : ((u::q).take 1++buf.data++(u::q).drop (1+buf.data.length)).take (1+buf.data.length) =
        ctx.saved.take 1++buf.data := by
      rw [List.take_left' (by rw [List.length_append, List.length_take, hlen]; omega)]
      have := congrArg (List.take 1) htake
      rw [List.take_take, Nat.min_eq_left (by omega), List.take_left' (by
        rw [List.length_take, h.saved]; rfl)] at this
      rw [this]
    refine ⟨[⟨0,buf.data,false,false,false,false,false,false,true⟩],
      { ctx with saved := (u::q).take 1++buf.data++(u::q).drop (1+buf.data.length),
                 savedLen := 1+buf.data.length },[],c::cs,?_,⟨rfl,rfl,⟨?_,?_,?_⟩,?_⟩,?_,
      fun _ _ => rfl⟩
    · rw [recodeSaved, hfill]
      simp only [bind, Except.bind, hdecode, true_and, if_pos hi4, hone, hcopied]
      rw [hlast]
    · simp only [List.length_append, List.length_take, List.length_drop, hlen]
      omega
    · rw [hback, List.append_assoc, encode_cons, ← htext, hone]
    · exact Or.inr ⟨c,cs,rfl,by change 1+buf.data.length ≤ _; omega,htwo⟩
    · rw [hback, hone]
      rfl
    · rintro ⟨-,c',ds,hc',hwhole⟩
      obtain ⟨rfl,-⟩ := List.cons.inj hc'
      exact ⟨hone,hwhole⟩
  · intro hno
    rw [recodeSaved, hfill]
    simp only [bind, Except.bind, hdecode, true_and, if_pos hi4]
    rw [ngxMemcpy, if_pos (by unfold Served at hno; omega)]

/-! ## All buffers -/

/-- For an offset in a text, how many bytes of the character there stand in front of it, and
how many the character has. -/
@[grind =] def inside : List Char → ℕ → ℕ × ℕ
  | [], _ => (0, 0)
  | c::cs, o => if o < width c then (o, width c) else inside cs (o-width c)

/-- Cuts with which recoding does as it should, from an offset on: a buffer that starts within
a character goes on behind it, or has one byte of it in front and, if the character ends with
it, another buffer behind it. -/
@[grind =] def Safe (cs : List Char) : ℕ → List ℕ → Prop
  | _, [] => True
  | o, m::ms => ((inside cs o).1 = 0 ∨ (inside cs o).2 < (inside cs o).1+m ∨
      ((inside cs o).1 = 1 ∧ (1+m ≠ (inside cs o).2 ∨ ms ≠ []))) ∧ Safe cs (o+m) ms

theorem inside_append (o : ℕ) : inside (cs++ds) ((encode cs).length+o) = inside ds o := by
  induction cs with
  | nil => rw [encode, List.flatMap_nil, List.length_nil, Nat.zero_add, List.nil_append]
  | cons c cs ih =>
    rw [encode_cons, List.length_append, List.cons_append, inside, if_neg (by unfold width; omega)]
    rw [show (String.utf8EncodeChar c).length+(encode cs).length+o-width c = (encode cs).length+o by
      unfold width; omega]
    exact ih

theorem inside_start : (inside cs 0).1 = 0 := by
  cases cs with
  | nil => rfl
  | cons c cs =>
    have := (width_bounds c).1
    rw [inside, if_pos (by omega)]

theorem safe_append (o : ℕ) (ms : List ℕ) :
    Safe (cs++ds) ((encode cs).length+o) ms ↔ Safe ds o ms := by
  induction ms generalizing o with
  | nil => exact Iff.rfl
  | cons m ms ih => rw [Safe, Safe, inside_append, Nat.add_assoc, ih]

def cuts (bufs : List (Buf × List OutBuf)) : List ℕ := bufs.map (fun b => b.1.data.length)

def bytesOf (bufs : List (Buf × List OutBuf)) : List UInt8 := bufs.flatMap (fun b => b.1.data)

/-- All that is produced for the rest of a text is its translation. -/
def Translates (t : CharsetTable) (ctx : Ctx) (bufs : List (Buf × List OutBuf)) (rest : List Char) : Prop :=
  ∃ out ctx', recodeAll t ctx bufs = .ok (out, ctx') ∧ produced out = translate t rest

theorem translates_cons (ctx1 : Ctx) (buf : Buf) (free : List OutBuf)
    (bufs : List (Buf × List OutBuf)) (rest cs rest' : List Char) (out : List OutBuf)
    (hrun : ngxHttpCharsetRecodeFromUtf8 t { ctx with freeBuffers := free } buf = .ok (out, ctx1))
    (hrest : rest = cs++rest') (hproduced : produced out = translate t cs) :
    Translates t ctx ((buf, free)::bufs) rest ↔ Translates t ctx1 bufs rest' := by
  constructor
  · rintro ⟨all,ctx',hall,heq⟩
    rw [recodeAll, hrun] at hall
    simp only [bind, Except.bind] at hall
    cases hmore : recodeAll t ctx1 bufs with
    | error e => rw [hmore] at hall; cases hall
    | ok r =>
      rw [hmore] at hall
      cases hall
      refine ⟨r.1,r.2,hmore,?_⟩
      rw [produced_append, hproduced, hrest, translate_append] at heq
      exact List.append_cancel_left heq
  · rintro ⟨more,ctx',hmore,heq⟩
    refine ⟨out++more,ctx',?_,by rw [produced_append, hproduced, heq, hrest, translate_append]⟩
    rw [recodeAll, hrun]
    simp only [bind, Except.bind, hmore]
    rfl

theorem recoded_safe (ctx1 : Ctx) (buf : Buf) (tail : List UInt8) (rest cs rest' : List Char)
    (out : List OutBuf) (ms : List ℕ) (hlen : (ctx.saved.take ctx.savedLen).length = ctx.savedLen)
    (h : Recoded t ctx ctx1 buf.data tail rest cs rest' out) :
    Safe rest (ctx.savedLen+buf.data.length) ms ↔ Safe rest' ctx1.savedLen ms := by
  have hlen1 : (ctx1.saved.take ctx1.savedLen).length = ctx1.savedLen := by
    have := h.pending.saved
    rcases h.pending.part with hzero | ⟨c,cs,-,hle,-⟩
    · rw [hzero, List.take_zero, List.length_nil]
    have := (width_bounds c).2
    rw [List.length_take]
    omega
  have hcount := congrArg List.length h.bytes
  rw [List.length_append, List.length_append, hlen, hlen1] at hcount
  rw [hcount, h.rest]
  exact safe_append cs rest' _ ms

theorem pending_length (h : Pending ctx rest tail) :
    (ctx.saved.take ctx.savedLen).length = ctx.savedLen := by
  have := h.saved
  rcases h.part with hzero | ⟨c,cs,-,hle,-⟩
  · rw [hzero, List.take_zero, List.length_nil]
  have := (width_bounds c).2
  rw [List.length_take]
  omega

/-- By induction over the buffers: what is saved and the buffers to come are the rest. -/
theorem recode_all_spec (bufs : List (Buf × List OutBuf)) (ctx : Ctx) (rest : List Char)
    (h : Pending ctx rest (bytesOf bufs)) (hne : ∀ b ∈ bufs, b.1.data ≠ [])
    (hwhole : Whole ctx rest → bufs ≠ []) :
    Translates t ctx bufs rest ↔ Safe rest ctx.savedLen (cuts bufs) := by
  induction bufs generalizing ctx rest with
  | nil =>
    refine ⟨fun _ => trivial,fun _ => ⟨[],ctx,rfl,?_⟩⟩
    have htext := h.text
    rw [bytesOf, List.flatMap_nil, List.append_nil] at htext
    cases rest with
    | nil => rfl
    | cons c cs =>
      have hcount := congrArg List.length htext
      have hpos := (width_bounds c).1
      rw [pending_length ctx _ _ h, encode_cons, List.length_append] at hcount
      rcases h.part with hzero | ⟨c',cs',hc',hle,-⟩
      · unfold width at hpos
        omega
      obtain ⟨rfl,rfl⟩ := List.cons.inj hc'
      refine absurd rfl (hwhole ⟨?_,c,cs,rfl,?_⟩)
      · unfold width at hpos
        omega
      · unfold width at hle ⊢
        omega
  | cons b bufs ih =>
    obtain ⟨buf,free⟩ := b
    have hdata := hne (buf, free) List.mem_cons_self
    have hlater := fun b hb => hne b (List.mem_cons_of_mem _ hb)
    have hpend : Pending { ctx with freeBuffers := free } rest (buf.data++bytesOf bufs) :=
      ⟨h.saved,h.text,h.part⟩
    have hlength := pending_length _ _ _ hpend
    have hcuts : cuts ((buf, free)::bufs) = buf.data.length::cuts bufs := rfl
    have hnil : cuts bufs ≠ [] ↔ bufs ≠ [] := by
      rw [cuts, ne_eq, List.map_eq_nil_iff]
    rw [hcuts, Safe]
    by_cases hnone : ctx.savedLen = 0
    · obtain ⟨out,ctx1,cs,rest',hrun,hrec,hnot⟩ := fresh_recoded t _ buf _ rest hpend hnone
      have hcall : ngxHttpCharsetRecodeFromUtf8 t { ctx with freeBuffers := free } buf = .ok (out, ctx1) := by
        rw [ngxHttpCharsetRecodeFromUtf8, if_pos hnone, hrun]
      have hstart : (inside rest ctx.savedLen).1 = 0 := by rw [hnone, inside_start]
      rw [translates_cons t ctx ctx1 buf free bufs rest cs rest' out hcall hrec.rest hrec.produced,
        ih ctx1 rest' hrec.pending hlater (fun hw => absurd hw hnot),
        ← recoded_safe t _ ctx1 buf _ rest cs rest' out _ hlength hrec]
      exact (and_iff_right (Or.inl hstart)).symm
    obtain ⟨c,cs,rfl,hle,htwo⟩ := h.part.resolve_left hnone
    have hcall : ngxHttpCharsetRecodeFromUtf8 t { ctx with freeBuffers := free } buf =
        recodeSaved t { ctx with freeBuffers := free } buf := by
      rw [ngxHttpCharsetRecodeFromUtf8, if_neg hnone]
    obtain ⟨hserved,hfault⟩ := saved_recoded t _ buf _ c cs hpend hdata hnone hle htwo
    have hinside : ctx.savedLen < width c → inside (c::cs) ctx.savedLen = (ctx.savedLen, width c) :=
      fun hlt => by rw [inside, if_pos hlt]
    have hbehind : ctx.savedLen = width c → (inside (c::cs) ctx.savedLen).1 = 0 := by
      intro heq
      rw [inside, if_neg (by omega), heq, Nat.sub_self, inside_start]
    by_cases hs : Served ctx.savedLen buf.data.length c
    · obtain ⟨out,ctx1,cs',rest',hrun,hrec,hnot,hempty⟩ := hserved hs
      rw [translates_cons t ctx ctx1 buf free bufs _ cs' rest' out (hcall.trans hrun) hrec.rest
        hrec.produced]
      by_cases hheld : ctx.savedLen = 1 ∧ 1+buf.data.length = width c ∧ bufs = []
      · -- The last character is saved as a whole, and no buffer brings it out.
        obtain ⟨hone,hends,hlast⟩ := hheld
        have hcs := hempty hone hends
        have hrest := hrec.rest
        rw [hcs, List.nil_append] at hrest
        rw [hinside (by omega)]
        refine iff_of_false ?_ ?_
        · rintro ⟨out',ctx',hall,heq⟩
          rw [hlast, recodeAll] at hall
          cases hall
          have := (translate_length t c).1
          rw [← hrest, translate_cons] at heq
          have hzero := congrArg List.length heq
          rw [List.length_append, produced, List.flatMap_nil, List.length_nil] at hzero
          omega
        · rintro ⟨hfirst | hfirst | ⟨-,hfirst | hfirst⟩,-⟩
          · exact hnone hfirst
          · simp only at hfirst
            omega
          · exact hfirst hends
          · exact hnil.mp hfirst hlast
      rw [ih ctx1 rest' hrec.pending hlater (fun hw hb => hheld ⟨(hnot hw).1,(hnot hw).2,hb⟩),
        ← recoded_safe t _ ctx1 buf _ _ cs' rest' out _ hlength hrec]
      refine (and_iff_right ?_).symm
      rcases Nat.lt_or_ge ctx.savedLen (width c) with hlt | hge
      · rw [hinside hlt]
        rcases hs with hone | heq | hmore
        · refine Or.inr (Or.inr ⟨hone,?_⟩)
          by_cases hends : 1+buf.data.length = width c
          · exact Or.inr (hnil.mpr (fun hb => hheld ⟨hone,hends,hb⟩))
          · exact Or.inl hends
        · omega
        · exact Or.inr (Or.inl hmore)
      · exact Or.inl (hbehind (Nat.le_antisymm hle hge))
    have hlt : ctx.savedLen < width c := by
      unfold Served at hs
      omega
    rw [hinside hlt]
    refine iff_of_false ?_ ?_
    · rintro ⟨out,ctx',hall,-⟩
      rw [recodeAll, hcall, hfault hs] at hall
      cases hall
    · rintro ⟨hfirst | hfirst | ⟨hfirst,-⟩,-⟩
      · exact hnone hfirst
      · exact hs (Or.inr (Or.inr hfirst))
      · exact hs (Or.inl hfirst)

/-- For a UTF-8 document in non-empty buffers, recoding reads and writes within its buffers and
produces the translation of the characters exactly when the cuts are safe. -/
theorem charset_recode (t : CharsetTable) (cs : List Char) (bufs : List (Buf × List OutBuf))
    (hsplit : bytesOf bufs = encode cs) (hne : ∀ b ∈ bufs, b.1.data ≠ []) :
    Translates t newCtx bufs cs ↔ Safe cs 0 (cuts bufs) :=
  recode_all_spec t bufs newCtx cs ⟨rfl,hsplit,Or.inl rfl⟩ hne (fun hw => absurd rfl hw.1)

def asciiTable : CharsetTable :=
  ⟨fun i => if i = 0 then some (fun n => if n < 128 then UInt8.ofNat n else 0) else none,
    _,rfl,fun _ hn => if_pos hn⟩

def bufOf (data : List UInt8) (h : data.length < 2^64) : Buf :=
  ⟨data,true,false,false,false,false,false,rfl,h⟩

/-- U+00E9 is cut between its bytes, and "a" follows in the second buffer. -/
theorem charset_recode_cut : Translates asciiTable newCtx
    [(bufOf [0xc3] (by decide), []), (bufOf [0xa9, 0x61] (by decide), [])] ['\u00e9', 'a'] :=
  (charset_recode asciiTable ['\u00e9', 'a']
    [(bufOf [0xc3] (by decide), []), (bufOf [0xa9, 0x61] (by decide), [])] (by decide)
    (by decide)).mpr ⟨Or.inl rfl,Or.inr (Or.inl (by decide)),trivial⟩

/-- U+4E2D comes in three buffers of one byte: the second byte is saved, and for the third two
bytes are copied. -/
theorem read_behind : ¬ ∀ (t : CharsetTable) (cs : List Char) (bufs : List (Buf × List OutBuf)),
    bytesOf bufs = encode cs → (∀ b ∈ bufs, b.1.data ≠ []) → Translates t newCtx bufs cs := by
  intro h
  obtain ⟨out,ctx,hrun,-⟩ := h asciiTable ['\u4e2d'] [(bufOf [0xe4] (by decide), []),
    (bufOf [0xb8] (by decide), []), (bufOf [0xad] (by decide), [])] (by decide) (by decide)
  have hfault : recodeAll asciiTable newCtx [(bufOf [0xe4] (by decide), []),
      (bufOf [0xb8] (by decide), []), (bufOf [0xad] (by decide), [])] = .error .overread := by
    decide
  rw [hfault] at hrun
  cases hrun

end Nginx.CharsetRecodeLaw
