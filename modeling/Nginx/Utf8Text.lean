import Nginx.CharsetRecodeLaw
import Nginx.MemoryRange

/-!
# Texts of UTF-8

The decoder takes one sequence of two bytes or more. Two functions call it on the bytes of a string
that are not ASCII: one counts the characters, the other copies some of them with a zero byte behind.
-/

set_option autoImplicit false

namespace Nginx.Utf8Text
open Nginx.CharsetRecode Nginx.CharsetRecodeLaw Nginx.MemoryRange

/-- The loop over the `n` bytes of a string, the pointer having passed `i` of them. The decoder is
told of `n` bytes each time. -/
@[grind =] def lengthLoop (n : ℕ) : ℕ → List UInt8 → ℕ → ℕ → Except Fault ℕ
  | 0, _, _, _ => .error .endless
  | fuel+1, p, i, len =>
    if i < n then
      match p with
      | [] => .error .overread
      | c::p =>
        if c.toNat < 0x80 then lengthLoop n fuel p (i+1) (len+1)
        else
          match ngxUtf8Decode (c::p) n with
          | .error fault => .error fault
          | .ok (v,k) =>
            if v > 0x10ffff then .ok n else lengthLoop n fuel ((c::p).drop k) (i+k) (len+1)
    else .ok len

/-- `ngx_utf8_length` on the memory from the pointer on -/
def ngxUtf8Length (p : List UInt8) (n : ℕ) : Except Fault ℕ := lengthLoop n (n+1) p 0 0

/-- The loop that is left after `--n`. The first byte of a sequence is stored before it is decoded,
and written over. -/
@[grind =] def cpystrnLoop : ℕ → (ℕ → UInt8) → ℕ → List UInt8 → ℕ → Except Fault ((ℕ → UInt8)×ℕ)
  | 0, mem, dst, _, _ => .ok (writeRange mem dst [0],dst)
  | _+1, _, _, [], _ => .error .overread
  | n+1, mem, dst, c::src, len =>
    let mem := writeRange mem dst [c]
    if c.toNat < 0x80 then
      if c ≠ 0 then cpystrnLoop n mem (dst+1) src ((len+(2^64-1))%2^64) else .ok (mem,dst)
    else
      match ngxUtf8Decode (c::src) len with
      | .error fault => .error fault
      | .ok (v,k) =>
        if v > 0x10ffff then .ok (writeRange mem dst [0],dst)
        else
          cpystrnLoop n (writeRange mem dst ((c::src).take k)) (dst+k) ((c::src).drop k)
            ((len+(2^64-k))%2^64)

/-- `ngx_utf8_cpystrn`: the memory afterwards and the pointer returned -/
def ngxUtf8Cpystrn (mem : ℕ → UInt8) (dst : ℕ) (src : List UInt8) (n len : ℕ) :
    Except Fault ((ℕ → UInt8)×ℕ) :=
  match n with
  | 0 => .ok (mem,dst)
  | n+1 => cpystrnLoop n mem dst src len

def need (u : UInt8) : ℕ :=
  if u.toNat ≥ 0xf0 then 3 else if u.toNat ≥ 0xe0 then 2 else if u.toNat ≥ 0xc2 then 1 else 0

/-- A sequence that the decoder takes and that is none: the first byte has too many bits set, or one
behind it has two, or both are those of a surrogate. -/
def Slip (x : List UInt8) : Prop :=
  ∃ u b, x = u::b ∧ (0xf8 ≤ u.toNat ∨ (∃ ch ∈ b.take (need u), 0xc0 ≤ ch.toNat) ∨
    u.toNat = 0xed ∧ ∃ ch ∈ b.head?, 0xa0 ≤ ch.toNat)

def Truncated (x : List UInt8) : Prop := ∃ u b, x = u::b ∧ b.length < need u

/-! Characters -/

variable {v : ℕ}

theorem char_of (h : v.isValidChar) : ∃ c : Char, c.toNat = v :=
  ⟨Char.ofNatAux v h,rfl⟩

variable {n : ℕ} {u : UInt8}

theorem byte_of (h : n = u.toNat) : UInt8.ofNat n = u := by
  rw [h, UInt8.ofNat_toNat]

theorem encode_two {u v : UInt8} (hu : 0xc2 ≤ u.toNat) (hu' : u.toNat < 0xe0)
    (hv : 0x80 ≤ v.toNat) (hv' : v.toNat < 0xc0) : ∃ c : Char,
    c.toNat = u.toNat%32*64+v.toNat%64 ∧ String.utf8EncodeChar c = [u, v] := by
  obtain ⟨c,hc⟩ : ∃ c : Char, c.toNat = u.toNat%32*64+v.toNat%64 := char_of (Or.inl (by omega))
  have hval : c.val.toNat = u.toNat%32*64+v.toNat%64 := hc
  refine ⟨c,hc,?_⟩
  rw [String.utf8EncodeChar, hval, if_neg (by omega), if_pos (by omega), byte_of (u := u) (by omega),
    byte_of (u := v) (by omega)]

theorem encode_three {u v w : UInt8} (hu : 0xe0 ≤ u.toNat) (hu' : u.toNat < 0xf0)
    (hv : 0x80 ≤ v.toNat) (hv' : v.toNat < 0xc0) (hw : 0x80 ≤ w.toNat) (hw' : w.toNat < 0xc0)
    (hvalid : (u.toNat%16*64+v.toNat%64)*64+w.toNat%64 > 0x7ff)
    (hsurrogate : ¬(u.toNat = 0xed ∧ 0xa0 ≤ v.toNat)) : ∃ c : Char,
    c.toNat = (u.toNat%16*64+v.toNat%64)*64+w.toNat%64 ∧ String.utf8EncodeChar c = [u, v, w] := by
  obtain ⟨c,hc⟩ : ∃ c : Char, c.toNat = (u.toNat%16*64+v.toNat%64)*64+w.toNat%64 := by
    refine char_of ?_
    by_cases hlow : (u.toNat%16*64+v.toNat%64)*64+w.toNat%64 < 0xd800
    · exact Or.inl hlow
    · exact Or.inr (by omega)
  have hval : c.val.toNat = (u.toNat%16*64+v.toNat%64)*64+w.toNat%64 := hc
  refine ⟨c,hc,?_⟩
  rw [String.utf8EncodeChar, hval, if_neg (by omega), if_neg (by omega), if_pos (by omega), byte_of (u := u) (by omega),
    byte_of (u := v) (by omega), byte_of (u := w) (by omega)]

theorem encode_four {u v w x : UInt8} (hu : 0xf0 ≤ u.toNat) (hu' : u.toNat < 0xf8)
    (hv : 0x80 ≤ v.toNat) (hv' : v.toNat < 0xc0) (hw : 0x80 ≤ w.toNat) (hw' : w.toNat < 0xc0)
    (hx : 0x80 ≤ x.toNat) (hx' : x.toNat < 0xc0)
    (hvalid : ((u.toNat%8*64+v.toNat%64)*64+w.toNat%64)*64+x.toNat%64 > 0xffff)
    (hbound : ((u.toNat%8*64+v.toNat%64)*64+w.toNat%64)*64+x.toNat%64 ≤ 0x10ffff) : ∃ c : Char,
    c.toNat = ((u.toNat%8*64+v.toNat%64)*64+w.toNat%64)*64+x.toNat%64 ∧
      String.utf8EncodeChar c = [u, v, w, x] := by
  obtain ⟨c,hc⟩ : ∃ c : Char,
      c.toNat = ((u.toNat%8*64+v.toNat%64)*64+w.toNat%64)*64+x.toNat%64 :=
    char_of (Or.inr (by omega))
  have hval : c.val.toNat = ((u.toNat%8*64+v.toNat%64)*64+w.toNat%64)*64+x.toNat%64 := hc
  refine ⟨c,hc,?_⟩
  rw [String.utf8EncodeChar, hval, if_neg (by omega), if_neg (by omega), if_neg (by omega), byte_of (u := u) (by omega),
    byte_of (u := v) (by omega), byte_of (u := w) (by omega), byte_of (u := x) (by omega)]

/-! The decoder -/

def lead (u : UInt8) : ℕ :=
  if u.toNat ≥ 0xf0 then u.toNat%8 else if u.toNat ≥ 0xe0 then u.toNat%16 else u.toNat%32

def shorter (u : UInt8) : ℕ :=
  if u.toNat ≥ 0xf0 then 0xffff else if u.toNat ≥ 0xe0 then 0x7ff else 0x7f

variable (b : List UInt8)

theorem decode_lead (n : ℕ) (hu : 0xc2 ≤ u.toNat) :
    ngxUtf8Decode (u::b) n = if (n+(2^64-1))%2^64 < need u then .ok (incomplete,0)
      else decodeTail (shorter u) (need u) (lead u) 1 b := by
  rw [ngxUtf8Decode, need, shorter, lead]
  simp only [ge_iff_le]
  by_cases hfour : 0xf0 ≤ u.toNat
  · simp only [if_pos hfour]
  by_cases hthree : 0xe0 ≤ u.toNat
  · simp only [if_neg hfour, if_pos hthree]
  · simp only [if_neg hfour, if_neg hthree, if_pos hu]

theorem decode_low (n : ℕ) (hu : u.toNat < 0xc2) : ngxUtf8Decode (u::b) n = .ok (invalid,1) := by
  rw [ngxUtf8Decode]
  simp only [ge_iff_le]
  rw [if_neg (by omega), if_neg (by omega), if_neg (by omega)]

theorem tail_reads (valid len u at' : ℕ) (b : List UInt8) (h : len ≤ b.length) :
    ∃ v k, at' ≤ k ∧ k ≤ at'+len ∧ ∀ x, decodeTail valid len u at' (b++x) = .ok (v,k) := by
  induction len generalizing u at' b with
  | zero => exact ⟨_,at',le_rfl,le_rfl,fun _ => rfl⟩
  | succ len ih =>
    cases b with
    | nil => exact absurd h (by simp)
    | cons i b =>
      by_cases hi : i.toNat < 0x80
      · refine ⟨invalid,at'+1,by omega,by omega,fun x => ?_⟩
        rw [List.cons_append, decodeTail, if_pos hi]
      obtain ⟨v,k,hl,hr,heq⟩ := ih (u*64+i.toNat%64) (at'+1) b (by simpa using h)
      refine ⟨v,k,by omega,by omega,fun x => ?_⟩
      rw [List.cons_append, decodeTail, if_neg hi, heq]

theorem need_le (u : UInt8) : need u ≤ 3 := by
  rw [need]
  split_ifs <;> omega

theorem decode_reads {b : List UInt8} (hn : b.length < n) (hn' : n < 2^64)
    (h : need u ≤ b.length ∨ n = b.length+1) :
    ∃ v k, k ≤ b.length+1 ∧ (v ≤ 0x10ffff → 0 < k) ∧
      ∀ x, ngxUtf8Decode (u::b++x) n = .ok (v,k) := by
  by_cases hu : 0xc2 ≤ u.toNat
  · have hless : (n+(2^64-1))%2^64 = n-1 := by omega
    by_cases hneed : need u ≤ b.length
    · obtain ⟨v,k,hl,hr,heq⟩ := tail_reads (shorter u) (need u) (lead u) 1 b hneed
      refine ⟨v,k,by omega,fun _ => hl,fun x => ?_⟩
      rw [List.cons_append, decode_lead _ n hu, hless, if_neg (by omega), heq]
    · refine ⟨incomplete,0,by omega,fun hv => absurd hv (by decide),fun x => ?_⟩
      rw [List.cons_append, decode_lead _ n hu, hless, if_pos (by omega)]
  · refine ⟨invalid,1,by omega,fun _ => one_pos,fun x => ?_⟩
    rw [List.cons_append, decode_low _ n (by omega)]

theorem bytes_of {b : List UInt8} (h : n+1 ≤ b.length) : ∃ ch b', b = ch::b' ∧ n ≤ b'.length := by
  cases b with
  | nil => exact absurd h (by simp)
  | cons ch b' => exact ⟨ch,b',rfl,by simpa using h⟩

theorem tail_next {valid len u at' k v : ℕ} {ch : UInt8} {b : List UInt8} (hv : v ≤ 0x10ffff)
    (h : decodeTail valid (len+1) u at' (ch::b) = .ok (v,k)) : 0x80 ≤ ch.toNat ∧
      decodeTail valid len (u*64+ch.toNat%64) (at'+1) b = .ok (v,k) := by
  rw [decodeTail] at h
  split_ifs at h with hch
  · obtain ⟨rfl,rfl⟩ := Prod.mk.inj (Except.ok.inj h)
    exact absurd hv (by decide)
  · exact ⟨by omega,h⟩

theorem tail_last {valid u at' k v : ℕ} {b : List UInt8} (hv : v ≤ 0x10ffff)
    (h : decodeTail valid 0 u at' b = .ok (v,k)) : v = u ∧ k = at' ∧ valid < u := by
  rw [decodeTail] at h
  obtain ⟨hu,rfl⟩ := Prod.mk.inj (Except.ok.inj h)
  split_ifs at hu with hvalid
  · exact ⟨hu.symm,rfl,hvalid⟩
  · rw [← hu] at hv
    exact absurd hv (by decide)

def Taken (u : UInt8) (b : List UInt8) (v k : ℕ) : Prop :=
  0x80 ≤ v ∧ (¬Slip (u::b) →
    ∃ c : Char, c.toNat = v ∧ String.utf8EncodeChar c <+: u::b ∧ k = width c)

variable {c : Char}

theorem char_taken {b t : List UInt8} {v k : ℕ} (hc : c.toNat = v)
    (hencode : String.utf8EncodeChar c = u::t) (ht : t <+: b) (hk : k = t.length+1) :
    ∃ c : Char, c.toNat = v ∧ String.utf8EncodeChar c <+: u::b ∧ k = width c := by
  refine ⟨c,hc,?_,?_⟩
  · rw [hencode]
    exact List.cons_prefix_cons.mpr ⟨rfl,ht⟩
  · rw [width, hencode, hk, List.length_cons]

theorem no_slip {b : List UInt8} (h : ¬Slip (u::b)) :
    u.toNat < 0xf8 ∧
    (∀ ch ∈ b.take (need u), ch.toNat < 0xc0) ∧
      (u.toNat = 0xed → ∀ ch ∈ b.head?, ch.toNat < 0xa0) := by
  refine ⟨?_,fun ch hch => ?_,fun hu ch hch => ?_⟩
  · by_contra hlarge
    exact h ⟨u,b,rfl,Or.inl (by omega)⟩
  · by_contra hlarge
    exact h ⟨u,b,rfl,Or.inr (Or.inl ⟨ch,hch,by omega⟩)⟩
  · by_contra hlarge
    exact h ⟨u,b,rfl,Or.inr (Or.inr ⟨hu,ch,hch,by omega⟩)⟩

theorem two_sound {b : List UInt8} {v k : ℕ} (hu : 0xc2 ≤ u.toNat) (hu' : u.toNat < 0xe0)
    (hv : v ≤ 0x10ffff) (hlength : 1 ≤ b.length)
    (h : decodeTail 0x7f 1 (u.toNat%32) 1 b = .ok (v,k)) : Taken u b v k := by
  obtain ⟨b1,b',rfl,-⟩ := bytes_of hlength
  obtain ⟨h1,h⟩ := tail_next hv h
  obtain ⟨rfl,rfl,hvalid⟩ := tail_last hv h
  refine ⟨by omega,fun hslip => ?_⟩
  obtain ⟨-,htake,-⟩ := no_slip hslip
  have hneed : need u = 1 := by
    rw [need, if_neg (by omega), if_neg (by omega), if_pos hu]
  rw [hneed] at htake
  obtain ⟨c,hc,hencode⟩ := encode_two hu hu' h1 (htake b1 (by simp))
  exact char_taken hc hencode ⟨b',rfl⟩ rfl

theorem three_sound {b : List UInt8} {v k : ℕ} (hu : 0xe0 ≤ u.toNat) (hu' : u.toNat < 0xf0)
    (hv : v ≤ 0x10ffff) (hlength : 2 ≤ b.length)
    (h : decodeTail 0x7ff 2 (u.toNat%16) 1 b = .ok (v,k)) : Taken u b v k := by
  obtain ⟨b1,b',rfl,hb⟩ := bytes_of hlength
  obtain ⟨b2,b',rfl,-⟩ := bytes_of hb
  obtain ⟨h1,h⟩ := tail_next hv h
  obtain ⟨h2,h⟩ := tail_next hv h
  obtain ⟨rfl,rfl,hvalid⟩ := tail_last hv h
  refine ⟨by omega,fun hslip => ?_⟩
  obtain ⟨-,htake,hsurrogate⟩ := no_slip hslip
  have hneed : need u = 2 := by
    rw [need, if_neg (by omega), if_pos hu]
  rw [hneed] at htake
  obtain ⟨c,hc,hencode⟩ := encode_three hu hu' h1 (htake b1 (by simp)) h2 (htake b2 (by simp))
    hvalid fun h => absurd (hsurrogate h.1 b1 rfl) (by omega)
  exact char_taken hc hencode ⟨b',rfl⟩ rfl

theorem four_sound {b : List UInt8} {v k : ℕ} (hu : 0xf0 ≤ u.toNat) (hv : v ≤ 0x10ffff)
    (hlength : 3 ≤ b.length) (h : decodeTail 0xffff 3 (u.toNat%8) 1 b = .ok (v,k)) :
    Taken u b v k := by
  obtain ⟨b1,b',rfl,hb⟩ := bytes_of hlength
  obtain ⟨b2,b',rfl,hb'⟩ := bytes_of hb
  obtain ⟨b3,b',rfl,-⟩ := bytes_of hb'
  obtain ⟨h1,h⟩ := tail_next hv h
  obtain ⟨h2,h⟩ := tail_next hv h
  obtain ⟨h3,h⟩ := tail_next hv h
  obtain ⟨rfl,rfl,hvalid⟩ := tail_last hv h
  refine ⟨by omega,fun hslip => ?_⟩
  obtain ⟨hu',htake,-⟩ := no_slip hslip
  have hneed : need u = 3 := if_pos hu
  rw [hneed] at htake
  obtain ⟨c,hc,hencode⟩ := encode_four hu hu' h1 (htake b1 (by simp)) h2 (htake b2 (by simp)) h3
    (htake b3 (by simp)) hvalid hv
  exact char_taken hc hencode ⟨b',rfl⟩ rfl

theorem decode_sound {b : List UInt8} {n v k : ℕ} (hn : b.length < n) (hn' : n < 2^64)
    (h : ngxUtf8Decode (u::b) n = .ok (v,k)) (hv : v ≤ 0x10ffff)
    (hneed : need u ≤ b.length ∨ n = b.length+1) : Taken u b v k := by
  have herror {e i j : ℕ} (he : e > 0x10ffff)
      (h : (Except.ok (e,i) : Except Fault (ℕ×ℕ)) = .ok (v,j)) : False := by
    obtain ⟨rfl,-⟩ := Prod.mk.inj (Except.ok.inj h)
    omega
  by_cases hu : 0xc2 ≤ u.toNat
  · rw [decode_lead b n hu, show (n+(2^64-1))%2^64 = n-1 by omega] at h
    by_cases hless : n-1 < need u
    · rw [if_pos hless] at h
      exact (herror (by decide) h).elim
    rw [if_neg hless] at h
    have hlength : need u ≤ b.length := by omega
    rw [shorter, lead] at h
    by_cases hfour : u.toNat ≥ 0xf0
    · rw [need, if_pos hfour] at h hlength
      rw [if_pos hfour, if_pos hfour] at h
      exact four_sound hfour hv hlength h
    by_cases hthree : u.toNat ≥ 0xe0
    · rw [need, if_neg hfour, if_pos hthree] at h hlength
      rw [if_neg hfour, if_neg hfour, if_pos hthree, if_pos hthree] at h
      exact three_sound hthree (by omega) hv hlength h
    rw [need, if_neg hfour, if_neg hthree, if_pos hu] at h hlength
    rw [if_neg hfour, if_neg hfour, if_neg hthree, if_neg hthree] at h
    exact two_sound hu (by omega) hv hlength h
  · rw [decode_low b n (by omega)] at h
    exact (herror (by decide) h).elim

/-! The characters of a string -/

theorem decode_first {b rest : List UInt8} (h : u::b = String.utf8EncodeChar c++rest)
    (hu : 0x80 ≤ u.toNat) (hn : b.length < n) (hn' : n < 2^64) :
    ngxUtf8Decode (u::b) n = .ok (c.toNat,width c) := by
  obtain ⟨u',p,hp⟩ := char_cons c
  have hfirst : u = u' := by
    rw [hp] at h
    exact (List.cons.inj h).1
  have hc : ¬c.toNat < 0x80 := fun hc =>
    absurd ((first_byte c u' p hp).mpr hc) (by rw [← hfirst]; omega)
  have hlength := congrArg List.length h
  rw [List.length_append, List.length_cons] at hlength
  rw [h]
  refine decode_char c rest n (by omega) ?_ hn'
  rw [width]
  omega

/-! Counting -/

structure First (u : UInt8) (b : List UInt8) (k : ℕ) (c : Char) : Prop where
  split : u::b = String.utf8EncodeChar c++(u::b).drop k
  width : k = width c

variable {k : ℕ}

theorem first_take {b : List UInt8} (h : First u b k c) :
    (u::b).take k = String.utf8EncodeChar c := by
  have hsplit := h.split
  nth_rewrite 1 [hsplit]
  rw [h.width]
  exact List.take_left

theorem taken_first {b : List UInt8} (h : Taken u b v k) (hslip : ¬Slip (u::b)) :
    ∃ c, First u b k c ∧ c.toNat = v := by
  obtain ⟨c,hc,⟨rest,hrest⟩,hk⟩ := h.2 hslip
  refine ⟨c,⟨?_,hk⟩,hc⟩
  rw [← hrest, hk, width, List.drop_left]

theorem ascii_char (hu : u.toNat < 0x80) (b : List UInt8) :
    ∃ c, First u b 1 c ∧ c.toNat = u.toNat := by
  obtain ⟨c,hc⟩ : ∃ c : Char, c.toNat = u.toNat := char_of (Or.inl (by omega))
  have hencode : String.utf8EncodeChar c = [u] := by
    rw [encode_ascii c (by omega), hc, UInt8.ofNat_toNat]
  exact ⟨c,⟨by rw [hencode]; rfl,by rw [width, hencode]; rfl⟩,hc⟩

theorem first_text {b : List UInt8} {cs : List Char} (h : First u b k c)
    (hcs : (u::b).drop k = encode cs) : u::b = encode (c::cs) := by
  rw [encode_cons, ← hcs, ← h.split]

theorem suffix_drop {x y : List UInt8} (h : y <:+ x.drop k) : y <:+ x :=
  h.trans (List.drop_suffix k x)

variable {x : List UInt8}

theorem length_loop (hn : n < 2^64) (fuel i len : ℕ) (hi : i+x.length = n) (hfuel : x.length < fuel)
    (htruncated : ∀ y, y <:+ x → ¬Truncated y) :
    ∃ r, lengthLoop n fuel x i len = .ok r ∧
      ((∀ y, y <:+ x → ¬Slip y) → (∀ cs, x ≠ encode cs) → r = n) := by
  induction fuel generalizing x i len with
  | zero => exact absurd hfuel (Nat.not_lt_zero _)
  | succ fuel ih =>
    cases x with
    | nil =>
      rw [List.length_nil, Nat.add_zero] at hi
      rw [lengthLoop, if_neg (by omega)]
      exact ⟨len,rfl,fun _ hno => absurd rfl (hno [])⟩
    | cons u b =>
      rw [List.length_cons] at hi hfuel
      rw [lengthLoop, if_pos (by omega)]
      by_cases hu : u.toNat < 0x80
      · rw [if_pos hu]
        obtain ⟨c,hfirst,-⟩ := ascii_char hu b
        have hdrop {y : List UInt8} (hy : y <:+ b) : y <:+ u::b := suffix_drop (k := 1) hy
        obtain ⟨r,hr,hlast⟩ := ih (i+1) (len+1) (x := b) (by omega) (by omega)
          fun y hy => htruncated y (hdrop hy)
        refine ⟨r,hr,fun hslip hno => hlast (fun y hy => hslip y (hdrop hy)) fun cs hcs => ?_⟩
        exact hno _ (first_text hfirst hcs)
      rw [if_neg hu]
      have hneed : need u ≤ b.length := by
        by_contra hless
        exact htruncated _ List.suffix_rfl ⟨u,b,rfl,by omega⟩
      obtain ⟨v,k,hk,hpos,hdecode⟩ := decode_reads (n := n) (by omega) hn (Or.inl hneed)
      have hhere := hdecode []
      rw [List.append_nil] at hhere
      rw [hhere]
      simp only
      by_cases hv : v > 0x10ffff
      · rw [if_pos hv]
        exact ⟨n,rfl,fun _ _ => rfl⟩
      rw [if_neg hv]
      have hk0 := hpos (by omega)
      have hlength : ((u::b).drop k).length = b.length+1-k := by
        rw [List.length_drop, List.length_cons]
      obtain ⟨r,hr,hlast⟩ := ih (i+k) (len+1) (x := (u::b).drop k) (by omega) (by omega)
        fun y hy => htruncated y (suffix_drop hy)
      refine ⟨r,hr,fun hslip hno => ?_⟩
      obtain ⟨c,hfirst,-⟩ := taken_first
        (decode_sound (by omega) hn hhere (by omega) (Or.inl hneed))
        (hslip _ List.suffix_rfl)
      exact hlast (fun y hy => hslip y (suffix_drop hy)) fun cs hcs =>
        hno _ (first_text hfirst hcs)

theorem count_loop (hn : n < 2^64) (fuel i len : ℕ) {cs : List Char} (hi : i+(encode cs).length = n)
    (hfuel : (encode cs).length < fuel) :
    lengthLoop n fuel (encode cs) i len = .ok (len+cs.length) := by
  induction cs generalizing fuel i len with
  | nil =>
    obtain ⟨fuel,rfl⟩ : ∃ f, fuel = f+1 := ⟨fuel-1,by omega⟩
    have hi : i = n := hi
    rw [show encode [] = [] from rfl, lengthLoop, if_neg (by omega)]
    rfl
  | cons c cs ih =>
    obtain ⟨fuel,rfl⟩ : ∃ f, fuel = f+1 := ⟨fuel-1,by omega⟩
    obtain ⟨u,p,hp⟩ := char_cons c
    have hlength : (encode (c::cs)).length = p.length+1+(encode cs).length := by
      rw [encode_cons, hp, List.length_append, List.length_cons]
    have hcons : encode (c::cs) = u::(p++encode cs) := by
      rw [encode_cons, hp, List.cons_append]
    have hsum : len+1+cs.length = len+(c::cs).length := by
      rw [List.length_cons]
      omega
    rw [hlength] at hi hfuel
    rw [hcons, lengthLoop, if_pos (by omega), ← hsum]
    by_cases hc : c.toNat < 0x80
    · have hnil : p = [] := by
        rw [encode_ascii c hc] at hp
        exact (List.cons.inj hp).2.symm
      subst hnil
      rw [if_pos ((first_byte c u [] hp).mpr hc)]
      exact ih fuel _ _ (by simpa [Nat.add_assoc] using hi) (by omega)
    have hu : ¬u.toNat < 0x80 := fun hu => hc ((first_byte c u p hp).mp hu)
    have hdecode : ngxUtf8Decode (u::(p++encode cs)) n = .ok (c.toNat,width c) := by
      have hsplit : u::(p++encode cs) = String.utf8EncodeChar c++encode cs := by
        rw [hp, List.cons_append]
      refine decode_first hsplit (by omega) ?_ hn
      rw [List.length_append]
      omega
    have hbound := char_bound c
    have hdrop : (u::(p++encode cs)).drop (width c) = encode cs := by
      rw [← List.cons_append, ← hp, width, List.drop_left]
    have hwidth : width c = p.length+1 := by
      rw [width, hp, List.length_cons]
    rw [if_neg hu, hdecode]
    simp only
    rw [if_neg (by omega), hdrop]
    exact ih fuel _ _ (by omega) (by omega)

/-! Copying -/

def Stops (x : List UInt8) : Prop :=
  x.head? = some 0 ∨ ∀ c : Char, ¬String.utf8EncodeChar c <+: x

/-- As many characters as are wanted, or up to where the text ends -/
def Copied (x t : List UInt8) (n : ℕ) : Prop :=
  ∃ cs rest, x = encode cs++rest ∧ t = encode cs ∧ cs.length ≤ n ∧ (∀ c ∈ cs, c.toNat ≠ 0) ∧
    (cs.length = n ∨ Stops rest)

theorem copied_none (h : n = 0 ∨ Stops x) : Copied x [] n :=
  ⟨[],x,rfl,rfl,Nat.zero_le n,by simp,h.imp_left Eq.symm⟩

theorem copied_next {b t : List UInt8} (h : First u b k c) (hc : c.toNat ≠ 0)
    (hcopied : Copied ((u::b).drop k) t n) : Copied (u::b) ((u::b).take k++t) (n+1) := by
  obtain ⟨cs,rest,hrest,rfl,hlength,hzero,hend⟩ := hcopied
  refine ⟨c::cs,rest,?_,?_,by simpa using hlength,List.forall_mem_cons.mpr ⟨hc,hzero⟩,?_⟩
  · rw [encode_cons, List.append_assoc, ← hrest, ← h.split]
  · rw [encode_cons, first_take h]
  · exact hend.imp_left fun h => by rw [List.length_cons, h]

theorem write_next (mem : ℕ → UInt8) (dst : ℕ) (w t : List UInt8) :
    writeRange (writeRange mem dst w) (dst+w.length) (t++[0]) =
      writeRange mem dst (w++t++[0]) := by
  rw [write_append, List.append_assoc]

theorem copy_loop (n : ℕ) (mem : ℕ → UInt8) (dst : ℕ) (hlength : x.length < 2^64) :
    ∃ t, t <+: x ∧
      cpystrnLoop n mem dst (x++[0]) x.length = .ok (writeRange mem dst (t++[0]),dst+t.length) ∧
      ((∀ y, y <:+ x → ¬Slip y) → Copied x t n) := by
  induction n generalizing mem dst x with
  | zero => exact ⟨[],List.nil_prefix,rfl,fun _ => copied_none (Or.inl rfl)⟩
  | succ n ih =>
    cases x with
    | nil =>
      refine ⟨[],List.nil_prefix,rfl,fun _ => copied_none (Or.inr (Or.inr fun c hc => ?_))⟩
      exact String.utf8EncodeChar_ne_nil (List.prefix_nil.mp hc)
    | cons u b =>
      have hall : (u::b).length = b.length+1 := List.length_cons
      rw [hall] at hlength ⊢
      rw [List.cons_append, cpystrnLoop]
      by_cases hu : u.toNat < 0x80
      · rw [if_pos hu]
        by_cases hzero : u = 0
        · rw [if_neg (not_not.mpr hzero)]
          subst hzero
          exact ⟨[],List.nil_prefix,rfl,fun _ => copied_none (Or.inr (Or.inl rfl))⟩
        rw [if_pos hzero, show (b.length+1+(2^64-1))%2^64 = b.length by omega]
        obtain ⟨t,ht,hloop,hcopied⟩ := ih (writeRange mem dst [u]) (dst+1) (x := b) (by omega)
        obtain ⟨c,hfirst,hc⟩ := ascii_char hu b
        refine ⟨u::t,List.cons_prefix_cons.mpr ⟨rfl,ht⟩,?_,fun hslip => ?_⟩
        · rw [hloop, List.length_cons, show dst+1+t.length = dst+(t.length+1) by omega]
          exact congrArg (fun m => Except.ok (m,dst+(t.length+1))) (write_next mem dst [u] t)
        · refine copied_next hfirst ?_ (hcopied fun y hy => hslip y (suffix_drop (k := 1) hy))
          rw [hc]
          exact fun h => hzero (UInt8.toNat_inj.mp h)
      rw [if_neg hu]
      obtain ⟨v,k,hk,hpos,hdecode⟩ :=
        decode_reads (u := u) (n := b.length+1) (Nat.lt_succ_self _) hlength (Or.inr rfl)
      have hhere := hdecode []
      rw [List.append_nil] at hhere
      rw [← List.cons_append, hdecode [0]]
      simp only
      by_cases hv : v > 0x10ffff
      · have hover : writeRange (writeRange mem dst [u]) dst [0] = writeRange mem dst [0] :=
          write_over mem dst le_rfl
        rw [if_pos hv, hover]
        refine ⟨[],List.nil_prefix,rfl,fun _ => copied_none (Or.inr (Or.inr fun c hc => ?_))⟩
        obtain ⟨rest,hrest⟩ := hc
        rw [decode_first hrest.symm (by omega) (Nat.lt_succ_self _) hlength] at hhere
        have hbound := char_bound c
        have hvalue := (Prod.mk.inj (Except.ok.inj hhere)).1
        omega
      rw [if_neg hv]
      have hk0 := hpos (by omega)
      have htake : (u::b++[0]).take k = (u::b).take k := List.take_append_of_le_length (by omega)
      have hdrop : (u::b++[0]).drop k = (u::b).drop k++[0] :=
        List.drop_append_of_le_length (by omega)
      have hlen : ((u::b).take k).length = k := by
        rw [List.length_take]
        omega
      have hleft : ((u::b).drop k).length = b.length+1-k := by
        rw [List.length_drop, hall]
      have hover : writeRange (writeRange mem dst [u]) dst ((u::b).take k) =
          writeRange mem dst ((u::b).take k) :=
        write_over mem dst (by rw [hlen, List.length_singleton]; omega)
      obtain ⟨t,ht,hloop,hcopied⟩ := ih (writeRange mem dst ((u::b).take k)) (dst+k)
        (x := (u::b).drop k) (by omega)
      refine ⟨(u::b).take k++t,?_,?_,fun hslip => ?_⟩
      · obtain ⟨rest,hrest⟩ := ht
        exact ⟨rest,by rw [List.append_assoc, hrest, List.take_append_drop]⟩
      · have hwrite := write_next mem dst ((u::b).take k) t
        rw [hlen] at hwrite
        rw [htake, hdrop, hover, show (b.length+1+(2^64-k))%2^64 = b.length+1-k by omega,
          ← hleft, hloop, hwrite, List.length_append, hlen, Nat.add_assoc]
      · obtain ⟨c,hfirst,hc⟩ := taken_first
          (decode_sound (Nat.lt_succ_self _) hlength hhere (by omega) (Or.inr rfl))
          (hslip _ List.suffix_rfl)
        have hlow := (decode_sound (Nat.lt_succ_self _) hlength hhere (by omega)
          (Or.inr rfl)).1
        exact copied_next hfirst (by omega) (hcopied fun y hy => hslip y (suffix_drop hy))

/-! The laws -/

structure DecodeLaw (x : List UInt8) : Prop where
  reads : ∃ v k, k ≤ x.length ∧ ∀ y, ngxUtf8Decode (x++y) x.length = .ok (v,k)
  character : ∀ c : Char, 0x80 ≤ c.toNat → String.utf8EncodeChar c <+: x →
    ngxUtf8Decode x x.length = .ok (c.toNat,width c)
  sound : ∀ v k, ngxUtf8Decode x x.length = .ok (v,k) → v ≤ 0x10ffff → 0x80 ≤ v ∧
    (¬Slip x → ∃ c : Char, c.toNat = v ∧ String.utf8EncodeChar c <+: x ∧ k = width c)
  ascii : (∃ u ∈ x.head?, u.toNat < 0x80) → ngxUtf8Decode x x.length = .ok (invalid,1)

structure LengthLaw (s : List UInt8) : Prop where
  text : ∀ cs, s = encode cs → ngxUtf8Length s s.length = .ok cs.length
  reads : (∀ y, y <:+ s → ¬Truncated y) → ∃ r, ngxUtf8Length s s.length = .ok r
  noText : (∀ y, y <:+ s → ¬Truncated y ∧ ¬Slip y) → (∀ cs, s ≠ encode cs) →
    ngxUtf8Length s s.length = .ok s.length

/-- What is stored for a string with a zero byte behind it, `n` being one more than the characters
that are wanted -/
def CopyLaw (s : List UInt8) : Prop :=
  ∀ mem dst n, ∃ t, t <+: s ∧
    ngxUtf8Cpystrn mem dst (s++[0]) (n+1) s.length =
      .ok (writeRange mem dst (t++[0]),dst+t.length) ∧
    ((∀ y, y <:+ s → ¬Slip y) → Copied s t n)

theorem decode_law (hx : x ≠ []) (hlength : x.length < 2^64) : DecodeLaw x := by
  obtain ⟨u,b,rfl⟩ := List.exists_cons_of_ne_nil hx
  have hall : (u::b).length = b.length+1 := List.length_cons
  refine ⟨?_,fun c hc hprefix => ?_,fun v k hdecode hv => ?_,?_⟩
  · obtain ⟨v,k,hk,-,hdecode⟩ := decode_reads (u := u) (b := b) (n := (u::b).length) (by omega)
      hlength (Or.inr hall)
    exact ⟨v,k,by omega,hdecode⟩
  · obtain ⟨rest,hrest⟩ := hprefix
    have hsplit := congrArg List.length hrest
    rw [List.length_append] at hsplit
    rw [← hrest]
    refine decode_char c rest _ hc ?_ (by rwa [hrest])
    rw [width, List.length_append]
    omega
  · exact decode_sound (by omega) hlength hdecode hv (Or.inr hall)
  · rintro ⟨_,⟨⟩,hu⟩
    exact decode_low b _ (by omega)

/-- The decoder, the count of characters and the copy, for strings of every length -/
theorem utf8_law {s : List UInt8} (hlength : s.length < 2^64) :
    (s ≠ [] → DecodeLaw s) ∧ LengthLaw s ∧ CopyLaw s := by
  refine ⟨fun hs => decode_law hs hlength,⟨fun cs hcs => ?_,fun htruncated => ?_,?_⟩,?_⟩
  · subst hcs
    have hcount := count_loop hlength _ 0 0 (Nat.zero_add _) (Nat.lt_succ_self _)
    rwa [Nat.zero_add] at hcount
  · obtain ⟨r,hr,-⟩ := length_loop hlength _ 0 0 (Nat.zero_add _) (Nat.lt_succ_self _) htruncated
    exact ⟨r,hr⟩
  · intro hgood hno
    obtain ⟨r,hr,hlast⟩ := length_loop hlength _ 0 0 (Nat.zero_add _) (Nat.lt_succ_self _)
      fun y hy => (hgood y hy).1
    rw [ngxUtf8Length, hr, hlast (fun y hy => (hgood y hy).2) hno]
  · intro mem dst n
    exact copy_loop n mem dst hlength

/-- One character of two bytes -/
theorem utf8_law_two : ngxUtf8Length [0xc3, 0xa9] 2 = .ok 1 ∧
    ngxUtf8Decode [0xc3, 0xa9] 2 = .ok (0xe9,2) := by
  obtain ⟨hdecode,hcount,-⟩ := utf8_law (s := [0xc3, 0xa9]) (by decide)
  have hencode : String.utf8EncodeChar 'é' = [0xc3, 0xa9] := by decide
  refine ⟨hcount.text ['é'] (by rw [encode_cons, hencode]; rfl),?_⟩
  have hchar := (hdecode (by decide)).character 'é' (by decide) (by rw [hencode])
  rwa [width, hencode] at hchar

/-- A character of ASCII is no sequence for the decoder. -/
theorem ascii_refused : String.utf8EncodeChar 'A' = [65] ∧
    ngxUtf8Decode [65] 1 = .ok (invalid,1) ∧ ngxUtf8Decode [65] 1 ≠ .ok ('A'.toNat,1) := by
  have hrefused : ngxUtf8Decode [65] 1 = .ok (invalid,1) := decode_low [] 1 (by decide)
  refine ⟨by decide,hrefused,?_⟩
  rw [hrefused]
  intro h
  exact absurd (Prod.mk.inj (Except.ok.inj h)).1 (by decide)

end Nginx.Utf8Text
