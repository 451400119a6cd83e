import Nginx.UriBytes

/-!
# Escaping of a URI

A table of a bit for each byte says what is escaped, one table for each use. The same loop counts
and, given a place to write to, writes. The reader of escapes is a machine of three states; a `?`
ends what it reads where the escapes of a URI or of a redirect are read.
-/

set_option autoImplicit false

namespace Nginx.UriEscape
open Nginx.UriBytes

inductive EscapeType where
  | uri
  | args
  | uriComponent
  | html
  | refresh
  | memcached
  | mailAuth
  deriving DecidableEq, Repr

def uriTable : List UInt32 :=
  [0xffffffff, 0x80000029, 0x00000000, 0x80000000,
   0xffffffff, 0xffffffff, 0xffffffff, 0xffffffff]

def argsTable : List UInt32 :=
  [0xffffffff, 0x88000869, 0x00000000, 0x80000000,
   0xffffffff, 0xffffffff, 0xffffffff, 0xffffffff]

def uriComponentTable : List UInt32 :=
  [0xffffffff, 0xfc009fff, 0x78000001, 0xb8000001,
   0xffffffff, 0xffffffff, 0xffffffff, 0xffffffff]

def htmlTable : List UInt32 :=
  [0xffffffff, 0x000000ad, 0x00000000, 0x80000000,
   0xffffffff, 0xffffffff, 0xffffffff, 0xffffffff]

def refreshTable : List UInt32 :=
  [0xffffffff, 0x00000085, 0x00000000, 0x80000000,
   0xffffffff, 0xffffffff, 0xffffffff, 0xffffffff]

def memcachedTable : List UInt32 :=
  [0xffffffff, 0x00000021, 0x00000000, 0x00000000,
   0x00000000, 0x00000000, 0x00000000, 0x00000000]

/-- The table `map`; the one for the mail server is that for memcached. -/
def map : EscapeType → List UInt32
  | .uri => uriTable
  | .args => argsTable
  | .uriComponent => uriComponentTable
  | .html => htmlTable
  | .refresh => refreshTable
  | .memcached => memcachedTable
  | .mailAuth => memcachedTable

def escapes (type : EscapeType) (ch : UInt8) : Bool :=
  ((map type).getD (ch >>> 5).toNat 0 &&& (1 <<< (ch &&& 0x1f).toUInt32)) != 0

def hex : List UInt8 := [48,49,50,51,52,53,54,55,56,57,97,98,99,100,101,102]

@[grind =] def ngxEscapeUriCount (type : EscapeType) : List UInt8 → ℕ
  | [] => 0
  | ch::src => (if escapes type ch then 1 else 0)+ngxEscapeUriCount type src

@[grind =] def ngxEscapeUri (type : EscapeType) : List UInt8 → List UInt8
  | [] => []
  | ch::src =>
    if escapes type ch then
      [percent, hex.getD (ch >>> 4).toNat 0, hex.getD (ch &&& 0xf).toNat 0]++ngxEscapeUri type src
    else ch::ngxEscapeUri type src

/-- In the last state, the value of the first digit and the digit itself -/
inductive QuotedState where
  | usual
  | quoted
  | quotedSecond (decoded first : UInt8)
  deriving DecidableEq, Repr

/-- The two flags of the type, `NGX_UNESCAPE_URI` and `NGX_UNESCAPE_REDIRECT` -/
structure UnescapeType where
  uri : Bool
  redirect : Bool
  deriving DecidableEq, Repr

def written (bs : List UInt8) (rest : List UInt8×List UInt8) : List UInt8×List UInt8 :=
  (bs++rest.1,rest.2)

/-- An escape in a redirect stays one unless it is of a printing character behind `%`. -/
def redirectBytes (ch first second : UInt8) : List UInt8 :=
  if percent < ch ∧ ch < 0x7f then [ch] else [percent, first, second]

@[grind =] def unescapeLoop (type : UnescapeType) : QuotedState → List UInt8 → List UInt8×List UInt8
  | _, [] => ([],[])
  | .usual, ch::s =>
    if ch = question ∧ (type.uri ∨ type.redirect) then ([ch],s)
    else if ch = percent then unescapeLoop type .quoted s
    else written [ch] (unescapeLoop type .usual s)
  | .quoted, ch::s =>
    match hexDigit ch with
    | some decoded => unescapeLoop type (.quotedSecond decoded ch) s
    | none => written [ch] (unescapeLoop type .usual s)
  | .quotedSecond decoded first, ch::s =>
    if isDigit ch then
      let byte := (decoded <<< 4)+ch-48
      written (if type.redirect then redirectBytes byte first ch else [byte])
        (unescapeLoop type .usual s)
    else if 97 ≤ (ch ||| 0x20) ∧ (ch ||| 0x20) ≤ 102 then
      let byte := (decoded <<< 4)+(ch ||| 0x20)-97+10
      if type.uri then
        if byte = question then ([byte],s) else written [byte] (unescapeLoop type .usual s)
      else if type.redirect then
        if byte = question then ([byte],s)
        else written (redirectBytes byte first ch) (unescapeLoop type .usual s)
      else written [byte] (unescapeLoop type .usual s)
    else unescapeLoop type .usual s

def ngxUnescapeUri (type : UnescapeType) (src : List UInt8) : List UInt8×List UInt8 :=
  unescapeLoop type .usual src

abbrev plainType : UnescapeType := ⟨false,false⟩

variable {ch : UInt8} (s : List UInt8)

theorem unescape_plain (h : ch ≠ percent) :
    unescapeLoop plainType .usual (ch::s) = written [ch] (unescapeLoop plainType .usual s) := by
  rw [unescapeLoop, if_neg (by simp), if_neg h]

theorem unescape_percent :
    unescapeLoop plainType .usual (percent::s) = unescapeLoop plainType .quoted s := rfl

theorem unescape_quoted (ch : UInt8) (s : List UInt8) :
    unescapeLoop plainType .quoted (ch::s) =
      match hexDigit ch with
      | some v => unescapeLoop plainType (.quotedSecond v ch) s
      | none => written [ch] (unescapeLoop plainType .usual s) := rfl

theorem unescape_second (d f ch : UInt8) (s : List UInt8) :
    unescapeLoop plainType (.quotedSecond d f) (ch::s) =
      match hexDigit ch with
      | some v => written [(d <<< 4)+v] (unescapeLoop plainType .usual s)
      | none => unescapeLoop plainType .usual s := by
  have hsub (x y c : UInt8) : x+y-c = x+(y-c) := by grind
  rw [unescapeLoop, hexDigit]
  simp only [Bool.false_eq_true, if_false, hsub, UInt8.add_assoc]
  split_ifs <;> rfl

theorem quoted_digit {ch v : UInt8} (h : hexDigit ch = some v) :
    unescapeLoop plainType .quoted (ch::s) = unescapeLoop plainType (.quotedSecond v ch) s := by
  rw [unescape_quoted, h]

theorem quoted_other (h : hexDigit ch = none) :
    unescapeLoop plainType .quoted (ch::s) = written [ch] (unescapeLoop plainType .usual s) := by
  rw [unescape_quoted, h]

theorem second_digit {ch v : UInt8} (d f : UInt8) (s : List UInt8) (h : hexDigit ch = some v) :
    unescapeLoop plainType (.quotedSecond d f) (ch::s) =
      written [(d <<< 4)+v] (unescapeLoop plainType .usual s) := by
  rw [unescape_second, h]

theorem second_other (d f : UInt8) (s : List UInt8) (h : hexDigit ch = none) :
    unescapeLoop plainType (.quotedSecond d f) (ch::s) = unescapeLoop plainType .usual s := by
  rw [unescape_second, h]

theorem hex_nibble : ∀ n < 16, hexDigit (hex.getD n 0) = some (UInt8.ofNat n) ∧
    hex.getD n 0 ∈ hex ∧ hex.getD n 0 ≠ percent := by
  decide

theorem nibbles (ch : UInt8) : (ch >>> 4).toNat < 16 ∧ (ch &&& 0xf).toNat < 16 ∧
    ((ch >>> 4) <<< 4)+(ch &&& 0xf) = ch := by
  have hch := ch.toNat_lt
  have hhigh : (ch >>> 4).toNat = ch.toNat/16 := by
    rw [UInt8.toNat_shiftRight, Nat.shiftRight_eq_div_pow]
    rfl
  have hlow : (ch &&& 0xf).toNat = ch.toNat%16 := by
    rw [UInt8.toNat_and]
    exact Nat.and_two_pow_sub_one_eq_mod _ 4
  have hshift : ((ch >>> 4) <<< 4).toNat = ch.toNat/16*16 := by
    rw [UInt8.toNat_shiftLeft, hhigh, Nat.shiftLeft_eq]
    exact Nat.mod_eq_of_lt (show ch.toNat/16*16 < 256 by omega)
  refine ⟨by omega,by omega,UInt8.toNat_inj.mp ?_⟩
  rw [UInt8.toNat_add, hshift, hlow]
  omega

theorem nibble_digit {x : UInt8} (h : x.toNat < 16) : hexDigit (hex.getD x.toNat 0) = some x := by
  have hx := (hex_nibble _ h).1
  rwa [UInt8.ofNat_toNat] at hx

variable (src : List UInt8)

theorem unescape_escape {type : EscapeType} (h : escapes type ch = true) :
    unescapeLoop plainType .usual (ngxEscapeUri type (ch::src)) =
      written [ch] (unescapeLoop plainType .usual (ngxEscapeUri type src)) := by
  obtain ⟨hhigh,hlow,hbyte⟩ := nibbles ch
  rw [ngxEscapeUri, if_pos h]
  simp only [List.cons_append, List.nil_append]
  rw [unescape_percent, quoted_digit _ (nibble_digit hhigh), second_digit _ _ _ (nibble_digit hlow),
    hbyte]

theorem unescape_kept {type : EscapeType} (h : escapes type ch ≠ true) (hpercent : ch ≠ percent) :
    unescapeLoop plainType .usual (ngxEscapeUri type (ch::src)) =
      written [ch] (unescapeLoop plainType .usual (ngxEscapeUri type src)) := by
  rw [ngxEscapeUri, if_neg h, unescape_plain _ hpercent]

variable (type : EscapeType)

theorem escape_length (src : List UInt8) :
    (ngxEscapeUri type src).length = src.length+2*ngxEscapeUriCount type src := by
  induction src with
  | nil => rfl
  | cons ch src ih =>
    rw [ngxEscapeUri, ngxEscapeUriCount]
    split_ifs <;> simp only [List.length_append, List.length_cons, List.length_nil, ih] <;> omega

theorem unescape_back {type : EscapeType} (h : percent ∈ src → escapes type percent = true) :
    ngxUnescapeUri plainType (ngxEscapeUri type src) = (src,[]) := by
  induction src with
  | nil => rfl
  | cons ch src ih =>
    have hrest := ih fun hin => h (List.mem_cons_of_mem ch hin)
    rw [ngxUnescapeUri] at hrest ⊢
    by_cases hescape : escapes type ch = true
    · rw [unescape_escape src hescape, hrest]
      rfl
    have hpercent : ch ≠ percent := by
      rintro rfl
      exact hescape (h List.mem_cons_self)
    rw [unescape_kept src hescape hpercent, hrest]
    rfl

theorem percent_escaped : ∀ type, escapes type percent = true ↔ type ≠ .refresh := by
  intro type
  cases type <;> decide

/-! A type that leaves `%` as it is -/

theorem escape_append (a b : List UInt8) :
    ngxEscapeUri type (a++b) = ngxEscapeUri type a++ngxEscapeUri type b := by
  induction a with
  | nil => rfl
  | cons ch a ih =>
    rw [List.cons_append, ngxEscapeUri, ngxEscapeUri, ih]
    split_ifs <;> simp only [List.append_assoc, List.cons_append]

theorem escape_one (ch : UInt8) :
    0 < (ngxEscapeUri type [ch]).length ∧ (ngxEscapeUri type [ch]).length ≤ 3 ∧
      (escapes type ch = false → (ngxEscapeUri type [ch]).length = 1) := by
  rw [ngxEscapeUri]
  cases escapes type ch <;> simp [ngxEscapeUri]

theorem escape_cons (ch : UInt8) (src : List UInt8) :
    (ngxEscapeUri type (ch::src)).length =
      (ngxEscapeUri type [ch]).length+(ngxEscapeUri type src).length := by
  rw [← List.singleton_append, escape_append, List.length_append]

def pending : QuotedState → ℕ
  | .usual => 0
  | .quoted => 1
  | .quotedSecond _ _ => 2

/-- What is read from a text without a byte to escape takes no more room than the text when it is
escaped: an escape has three bytes. -/
theorem unescape_weight (text : List UInt8) (state : QuotedState)
    (h : ∀ ch ∈ text, escapes type ch = false) :
    (ngxEscapeUri type (unescapeLoop plainType state text).1).length ≤
      text.length+pending state := by
  induction text generalizing state with
  | nil =>
    rw [unescapeLoop]
    exact Nat.zero_le _
  | cons ch text ih =>
    have hch := (escape_one type ch).2.2 (h ch List.mem_cons_self)
    have hrest (state : QuotedState) := ih state fun x hx => h x (List.mem_cons_of_mem ch hx)
    have husual := hrest .usual
    rw [List.length_cons]
    cases state with
    | usual =>
      by_cases hpercent : ch = percent
      · have hquoted := hrest .quoted
        rw [hpercent, unescape_percent]
        simp only [pending] at hquoted ⊢
        omega
      rw [unescape_plain _ hpercent, written, List.singleton_append, escape_cons]
      simp only [pending] at husual ⊢
      omega
    | quoted =>
      cases hv : hexDigit ch with
      | some v =>
        have hsecond := hrest (.quotedSecond v ch)
        rw [quoted_digit _ hv]
        simp only [pending] at hsecond ⊢
        omega
      | none =>
        rw [quoted_other _ hv, written, List.singleton_append, escape_cons]
        simp only [pending] at husual ⊢
        omega
    | quotedSecond d f =>
      simp only [pending] at husual ⊢
      cases hv : hexDigit ch with
      | some v =>
        have hbyte := (escape_one type ((d <<< 4)+v)).2.1
        rw [second_digit _ _ _ hv, written, List.singleton_append, escape_cons]
        omega
      | none =>
        rw [second_other _ _ _ hv]
        omega

variable {type : EscapeType}

theorem hex_kept (hpercent : escapes type percent = false) (h : ch ∈ hex) :
    escapes type ch = false := by
  have htype : type = .refresh := by
    by_contra hne
    rw [(percent_escaped type).mpr hne] at hpercent
    cases hpercent
  have hrefresh : (hex.all fun ch => !escapes .refresh ch) = true := rfl
  have hch := List.all_eq_true.mp hrefresh ch h
  exact htype ▸ by simpa using hch

theorem hex_written (ch : UInt8) : hex.getD (ch >>> 4).toNat 0 ∈ hex ∧
    hex.getD (ch &&& 0xf).toNat 0 ∈ hex :=
  ⟨(hex_nibble _ (nibbles ch).1).2.1,(hex_nibble _ (nibbles ch).2.1).2.1⟩

theorem hex_not_percent (ch : UInt8) : hex.getD (ch >>> 4).toNat 0 ≠ percent :=
  (hex_nibble _ (nibbles ch).1).2.2

theorem escape_clean (hpercent : escapes type percent = false) (src : List UInt8) :
    ∀ ch ∈ ngxEscapeUri type src, escapes type ch = false := by
  induction src with
  | nil => exact fun ch h => absurd h List.not_mem_nil
  | cons x src ih =>
    intro ch h
    rw [ngxEscapeUri] at h
    by_cases hx : escapes type x = true
    · rw [if_pos hx] at h
      obtain ⟨hhigh,hlow⟩ := hex_written x
      simp only [List.cons_append, List.nil_append, List.mem_cons] at h
      rcases h with rfl|rfl|rfl|h
      · exact hpercent
      · exact hex_kept hpercent hhigh
      · exact hex_kept hpercent hlow
      · exact ih ch h
    rw [if_neg hx] at h
    rcases List.mem_cons.mp h with rfl|h
    · exact Bool.eq_false_of_not_eq_true hx
    · exact ih ch h

theorem not_longer (hpercent : escapes type percent = false) (x : UInt8) (front src : List UInt8) :
    (unescapeLoop plainType .usual (ngxEscapeUri type src)).1 ≠ x::(front++src) := by
  intro h
  have hw := unescape_weight type _ .usual (escape_clean hpercent src)
  have hx := (escape_one type x).1
  rw [h, escape_cons, escape_append, List.length_append, pending] at hw
  omega

theorem escaped_head (h : escapes type ch = true) :
    ∃ rest, ngxEscapeUri type (ch::src) = percent::hex.getD (ch >>> 4).toNat 0::rest := by
  rw [ngxEscapeUri, if_pos h]
  exact ⟨_,rfl⟩

theorem second_lost (hpercent : escapes type percent = false) (v first : UInt8)
    (src : List UInt8) :
    (unescapeLoop plainType (.quotedSecond v first) (ngxEscapeUri type src)).1 ≠
      percent::first::src := by
  have hnone : hexDigit percent = none := by decide
  cases src with
  | nil => exact List.cons_ne_nil _ _ ∘ Eq.symm
  | cons ch src =>
    by_cases hescape : escapes type ch = true
    · obtain ⟨rest,hrest⟩ := escaped_head src hescape
      rw [hrest, second_other _ _ _ hnone, unescape_plain _ (hex_not_percent ch)]
      exact fun h => hex_not_percent ch (List.cons.inj h).1
    rw [ngxEscapeUri, if_neg hescape]
    cases hv : hexDigit ch with
    | none =>
      rw [second_other _ _ _ hv]
      exact not_longer hpercent percent [first,ch] src
    | some w =>
      rw [second_digit _ _ _ hv]
      exact fun h => not_longer hpercent first [ch] src (List.cons.inj h).2

theorem quoted_lost (hpercent : escapes type percent = false) (src : List UInt8) :
    (unescapeLoop plainType .quoted (ngxEscapeUri type src)).1 ≠ percent::src := by
  have hnone : hexDigit percent = none := by decide
  cases src with
  | nil => exact List.cons_ne_nil _ _ ∘ Eq.symm
  | cons ch src =>
    by_cases hescape : escapes type ch = true
    · obtain ⟨rest,hrest⟩ := escaped_head src hescape
      rw [hrest, quoted_other _ hnone, unescape_plain _ (hex_not_percent ch)]
      intro h
      have hch : hex.getD (ch >>> 4).toNat 0 = ch := (List.cons.inj (List.cons.inj h).2).1
      have hkept := hex_kept hpercent (hex_written ch).1
      rw [hch, hescape] at hkept
      cases hkept
    rw [ngxEscapeUri, if_neg hescape]
    cases hv : hexDigit ch with
    | none =>
      rw [quoted_other _ hv]
      intro h
      obtain ⟨rfl,h⟩ := List.cons.inj h
      exact not_longer hpercent _ [] src h
    | some v =>
      rw [quoted_digit _ hv]
      exact second_lost hpercent v ch src

theorem unescape_lost (hpercent : escapes type percent = false) {src : List UInt8}
    (h : percent ∈ src) : (ngxUnescapeUri plainType (ngxEscapeUri type src)).1 ≠ src := by
  induction src with
  | nil => exact absurd h List.not_mem_nil
  | cons ch src ih =>
    rw [ngxUnescapeUri] at ih ⊢
    by_cases hescape : escapes type ch = true
    · have hne : percent ≠ ch := by
        rintro rfl
        rw [hpercent] at hescape
        cases hescape
      rw [unescape_escape src hescape]
      exact fun heq => ih ((List.mem_cons.mp h).resolve_left hne) (List.cons.inj heq).2
    by_cases hch : ch = percent
    · rw [ngxEscapeUri, if_neg hescape, hch, unescape_percent]
      exact quoted_lost hpercent src
    rw [unescape_kept src hescape hch]
    exact fun heq =>
      ih ((List.mem_cons.mp h).resolve_left (Ne.symm hch)) (List.cons.inj heq).2

/-- The length is what the count says, and what is written is read as the source unless a `%` of the
source stays: in the table of `refresh` it has no bit. -/
theorem escape_round_trip (type : EscapeType) (src : List UInt8) :
    ((ngxEscapeUri type src).length = src.length+2*ngxEscapeUriCount type src ∧
        (ngxUnescapeUri plainType (ngxEscapeUri type src)).1 = src ↔
      type ≠ .refresh ∨ percent ∉ src) ∧
      (Function.Injective (ngxEscapeUri type) ↔ type ≠ .refresh) := by
  have hback (h : type ≠ .refresh) (src : List UInt8) :
      (ngxUnescapeUri plainType (ngxEscapeUri type src)).1 = src :=
    congrArg Prod.fst (unescape_back src fun _ => (percent_escaped type).mpr h)
  refine ⟨⟨fun h => ?_,fun h => ⟨escape_length type src,?_⟩⟩,fun h => ?_,fun h => ?_⟩
  · by_cases htype : type = .refresh
    · subst htype
      exact Or.inr fun hin => unescape_lost (by decide) hin h.2
    · exact Or.inl htype
  · rcases h with h|h
    · exact hback h src
    · exact congrArg Prod.fst (unescape_back src fun hin => absurd hin h)
  · rintro rfl
    -- a space and its escape
    exact absurd (@h [space] [percent, 50,48] (by decide)) (by decide)
  · exact Function.LeftInverse.injective (g := fun text => (ngxUnescapeUri plainType text).1)
      (hback h)

/-- `%41`, which is not escaped and is read as `A` -/
theorem refresh_percent_lost :
    (ngxUnescapeUri plainType (ngxEscapeUri .refresh [percent, 52,49])).1 = [65] ∧
      ngxEscapeUri .refresh [percent, 50,48] = ngxEscapeUri .refresh [space] := by decide

end Nginx.UriEscape
