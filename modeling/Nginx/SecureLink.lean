import Nginx.Atoi
import Nginx.Base64
import Nginx.Md5Law

/-!
# Signed links

The value is a hash as base64url text and, behind a comma, the time when the link expires.
The hash is decoded into an array of 16 bytes and compared with a digest.
-/

set_option autoImplicit false

namespace Nginx.SecureLink
open Nginx.OffT Nginx.Numeral Nginx.Atoi Nginx.Base64 Nginx.Md5

/-! The code -/

inductive Answer where
  | notFound
  | zero
  | one
  deriving DecidableEq, Repr

/-- `written` are the bytes that have been stored from the address of `hash_buf` on, and
`compared` is how many bytes of it are compared. -/
structure Run where
  answer : Answer
  written : List UInt8
  compared : ℕ
  deriving DecidableEq, Repr

def hashPart (val : List UInt8) : List UInt8 := val.takeWhile (· ≠ 44)

def timePart (val : List UInt8) : Option (List UInt8) :=
  if 44 ∈ val then some (val.dropWhile (· ≠ 44)).tail else none

/-- `ngx_md5_init`, `ngx_md5_update` and `ngx_md5_final` with a context on the stack -/
def md5 (stack secret : List UInt8) : List UInt8 :=
  ngxMd5Final (ngxMd5Update (ngxMd5Init stack) secret)

/-- The part of `ngx_http_secure_link_variable` behind the time -/
def checkHash (stack hash secret : List UInt8) (expires now : ℤ) : Run :=
  if 24 < hash.length then ⟨.notFound,[],0⟩
  else
    match ngxDecodeBase64Url (fun i => hash.getD i 0) 0 hash.length with
    | none => ⟨.notFound,[],0⟩
    | some written =>
      if written.length ≠ 16 then ⟨.notFound,written,0⟩
      else if written ≠ md5 stack secret then ⟨.notFound,written,16⟩
      else ⟨if expires ≠ 0 ∧ expires < now then .zero else .one,written,16⟩

/-- `val` and `secret` are the values of the two expressions. -/
def ngxHttpSecureLinkVariable (stack val secret : List UInt8) (now : ℤ) : Run :=
  match timePart val with
  | none => checkHash stack (hashPart val) secret 0 now
  | some time =>
    let expires := ngxAtotm time
    if expires ≤ 0 then ⟨.notFound,[],0⟩ else checkHash stack (hashPart val) secret expires now

/-! What a link says -/

/-- `A` to `Z`, `a` to `z`, `0` to `9`, `-` and `_` -/
def urlDigit (ch : UInt8) : Option ℕ :=
  if 65 ≤ ch ∧ ch ≤ 90 then some (ch.toNat-65)
  else if 97 ≤ ch ∧ ch ≤ 122 then some (ch.toNat-71)
  else if 48 ≤ ch ∧ ch ≤ 57 then some (ch.toNat+4)
  else if ch = 45 then some 62
  else if ch = 95 then some 63
  else none

def front (s : List UInt8) : List UInt8 := s.takeWhile (· ≠ pad)

def back (s : List UInt8) : List UInt8 := s.dropWhile (· ≠ pad)

/-- The digits in front of the first `=` are six bits each, and are the bytes with less than
eight bits behind them. -/
def Spells (s bytes : List UInt8) : Prop :=
  ∃ ds, digits urlDigit (front s) = some ds ∧ ds.length%4 ≠ 1 ∧ 6*ds.length/8 = bytes.length ∧
    value 64 ds / 2^(6*ds.length%8) = value 256 (bytes.map UInt8.toNat)

/-- Behind the digits there is nothing, or what fills a group of four. -/
def Text (s bytes : List UInt8) : Prop :=
  Spells s bytes ∧ (back s = [] ∨ back s = List.replicate (3-((front s).length+3)%4) pad)

def denoted (time : List UInt8) : Option ℕ := Reader.atotm.denotes time

/-- The link is right, with no time or a positive one that a `time_t` holds. -/
def Right (val secret : List UInt8) : Prop :=
  Text (hashPart val) (rfcDigest secret) ∧
    ∀ time, timePart val = some time → ∃ v, denoted time = some v ∧ 0 < v ∧ v < 2^63

/-- The answer is found for the right links alone and says whether the time is over, and
`hash_buf` has room for all that is stored and is compared no further. -/
structure Meets (val secret : List UInt8) (now : ℤ) (run : Run) : Prop where
  found : run.answer ≠ .notFound ↔ Right val secret
  current : Right val secret → (run.answer = .one ↔
    ∀ time v, timePart val = some time → denoted time = some v → now ≤ v)
  room : run.written.length ≤ 16
  decoded : run.compared ≤ run.written.length

def TimePasses (val : List UInt8) : Prop :=
  ∀ time, timePart val = some time → ∃ v, denoted time = some v ∧ 0 < v%2^64 ∧ v%2^64 < 2^63

/-- Where the time passes, a hash of at most 24 bytes has less than 23 digits, and one that
spells the digest ends with them or with `==`, and the time is below 2^63. -/
structure Careful (val secret : List UInt8) : Prop where
  short : TimePasses val → (hashPart val).length ≤ 24 →
    digits urlDigit (front (hashPart val)) ≠ none → (front (hashPart val)).length < 23
  exact : TimePasses val → (hashPart val).length ≤ 24 → Spells (hashPart val) (rfcDigest secret) →
    (back (hashPart val) = [] ∨ back (hashPart val) = [pad, pad]) ∧
      ∀ time v, timePart val = some time → denoted time = some v → v < 2^63

/-! The decoder -/

set_option maxRecDepth 4000 in
theorem url_length : decodeBasis64Url.length = 2^8 := by
  rw [decodeBasis64Url, List.length_append, List.length_replicate]
  rfl

set_option maxRecDepth 8000 in
theorem url_table : (decodeBasis64Url.zipIdx.all fun p =>
    p.1 == ((urlDigit (UInt8.ofNat p.2)).map UInt8.ofNat).getD 77) = true := by
  rfl

theorem url_digit_lt {ch : UInt8} {d : ℕ} (h : urlDigit ch = some d) : d < 64 := by
  rw [urlDigit] at h
  simp only [UInt8.le_iff_toNat_le, UInt8.reduceToNat] at h
  split_ifs at h <;> have hd := Option.some.inj h <;> omega

theorem sextet_url (ch : UInt8) :
    sextet decodeBasis64Url ch = ((urlDigit ch).map UInt8.ofNat).getD 77 := by
  have hlen : ch.toNat < decodeBasis64Url.length := lt_of_lt_of_eq ch.toNat_lt url_length.symm
  have hmem := List.all_eq_true.mp url_table _ (mem_table decodeBasis64Url hlen)
  rw [beq_iff_eq, UInt8.ofNat_toNat] at hmem
  exact hmem

theorem pair_byte (a b : UInt8) (ha : a.toNat < 64) (hb : b.toNat < 64) :
    ((a <<< 2) ||| (b >>> 4)).toNat = a.toNat*4+b.toNat/16 := by
  rw [UInt8.toNat_or, UInt8.toNat_shiftLeft, UInt8.toNat_shiftRight, Nat.shiftLeft_eq,
    Nat.shiftRight_eq_div_pow, show (2 : UInt8).toNat%8 = 2 from rfl,
    show (4 : UInt8).toNat%8 = 4 from rfl, Nat.mod_eq_of_lt (by omega), mul_comm a.toNat,
    ← Nat.two_pow_add_eq_or_of_lt (by omega)]

theorem second_pair_byte (b c : UInt8) (hc : c.toNat < 64) :
    ((b <<< 4) ||| (c >>> 2)).toNat = b.toNat%16*16+c.toNat/4 := by
  have hlow : b.toNat*2^4%2^8 = 2^4*(b.toNat%16) := by omega
  rw [UInt8.toNat_or, UInt8.toNat_shiftLeft, UInt8.toNat_shiftRight, Nat.shiftLeft_eq,
    Nat.shiftRight_eq_div_pow, show (2 : UInt8).toNat%8 = 2 from rfl,
    show (4 : UInt8).toNat%8 = 4 from rfl, hlow, ← Nat.two_pow_add_eq_or_of_lt (by omega)]
  omega

theorem third_pair_byte (c d : UInt8) (hd : d.toNat < 64) :
    ((c <<< 6) ||| d).toNat = c.toNat%4*64+d.toNat := by
  have hlow : c.toNat*2^6%2^8 = 2^6*(c.toNat%4) := by omega
  rw [UInt8.toNat_or, UInt8.toNat_shiftLeft, Nat.shiftLeft_eq, show (6 : UInt8).toNat%8 = 6 from rfl,
    hlow, ← Nat.two_pow_add_eq_or_of_lt (by omega)]
  omega

/-- The cells from `o` on hold the six bits of the digits. -/
def Cells (mem : ℕ → UInt8) (o : ℕ) (ds : List ℕ) : Prop :=
  ∀ (i d : ℕ), ds[i]? = some d → (sextet decodeBasis64Url (mem (o+i))).toNat = d ∧ d < 64

theorem cells_tail {mem : ℕ → UInt8} {o d : ℕ} {ds : List ℕ} (h : Cells mem o (d::ds)) :
    ((sextet decodeBasis64Url (mem o)).toNat = d ∧ d < 64) ∧ Cells mem (o+1) ds := by
  refine ⟨h 0 d rfl,fun i e he => ?_⟩
  rw [Nat.add_assoc, Nat.add_comm 1]
  exact h (i+1) e he

theorem value_bytes_three (x y z : UInt8) (s : List UInt8) :
    value 256 ((x::y::z::s).map UInt8.toNat) =
      (x.toNat*65536+y.toNat*256+z.toNat)*256^s.length+value 256 (s.map UInt8.toNat) := by
  have happend := @value_append 256 [x.toNat, y.toNat, z.toNat] (s.map UInt8.toNat)
  rw [List.length_map] at happend
  rw [List.map_cons, List.map_cons, List.map_cons]
  have hthree : value 256 [x.toNat, y.toNat, z.toNat] = x.toNat*65536+y.toNat*256+z.toNat := by
    simp only [value, valueFrom]
    omega
  rw [← hthree]
  exact happend

theorem value_digits_four (a b c d : ℕ) (ds : List ℕ) : value 64 (a::b::c::d::ds) =
    (a*262144+b*4096+c*64+d)*64^ds.length+value 64 ds := by
  have happend := @value_append 64 [a, b, c, d] ds
  have hfour : value 64 [a, b, c, d] = a*262144+b*4096+c*64+d := by
    simp only [value, valueFrom]
    omega
  rw [← hfour]
  exact happend

theorem decode_groups_value (mem : ℕ → UInt8) (n : ℕ) (o : ℕ) (ds : List ℕ) (hn : ds.length = n)
    (h : Cells mem o ds) :
    (decodeGroups decodeBasis64Url mem o n).length = 6*n/8 ∧
      value 256 ((decodeGroups decodeBasis64Url mem o n).map UInt8.toNat) =
        value 64 ds / 2^(6*n%8) := by
  induction n using Nat.strong_induction_on generalizing o ds with
  | _ n ih =>
    match ds with
    | [] =>
      obtain rfl : n = 0 := hn.symm
      exact ⟨rfl,rfl⟩
    | [a] =>
      obtain rfl : n = 1 := hn.symm
      obtain ⟨ha,-⟩ := cells_tail h
      refine ⟨rfl,?_⟩
      have hzero : value 64 [a] / 2^(6*1%8) = 0 := by
        change (0*64+a)/64 = 0
        omega
      rw [hzero]
      rfl
    | [a, b] =>
      obtain rfl : n = 2 := hn.symm
      obtain ⟨⟨ha,ha'⟩,h⟩ := cells_tail h
      obtain ⟨⟨hb,hb'⟩,-⟩ := cells_tail h
      have hpair := pair_byte _ _ (ha ▸ ha') (hb ▸ hb')
      rw [ha, hb] at hpair
      refine ⟨rfl,?_⟩
      change value 256 [_] = ((0*64+a)*64+b)/16
      simp only [value, valueFrom, hpair]
      omega
    | [a, b, c] =>
      obtain rfl : n = 3 := hn.symm
      obtain ⟨⟨ha,ha'⟩,h⟩ := cells_tail h
      obtain ⟨⟨hb,hb'⟩,h⟩ := cells_tail h
      obtain ⟨⟨hc,hc'⟩,-⟩ := cells_tail h
      have hpair := pair_byte _ _ (ha ▸ ha') (hb ▸ hb')
      have hsecond := second_pair_byte (sextet decodeBasis64Url (mem (o+1))) _ (hc ▸ hc')
      rw [ha, hb] at hpair
      rw [hb, hc] at hsecond
      refine ⟨rfl,?_⟩
      change value 256 [_, _] = (((0*64+a)*64+b)*64+c)/4
      simp only [value, valueFrom, hpair]
      rw [hsecond]
      omega
    | a::b::c::d::ds =>
      obtain rfl : n = ds.length+4 := hn.symm
      obtain ⟨⟨ha,ha'⟩,h⟩ := cells_tail h
      obtain ⟨⟨hb,hb'⟩,h⟩ := cells_tail h
      obtain ⟨⟨hc,hc'⟩,h⟩ := cells_tail h
      obtain ⟨⟨hd,hd'⟩,h⟩ := cells_tail h
      obtain ⟨hlen,hvalue⟩ := ih ds.length (by omega) (o+4) ds rfl h
      have hpair := pair_byte _ _ (ha ▸ ha') (hb ▸ hb')
      have hsecond := second_pair_byte (sextet decodeBasis64Url (mem (o+1))) _ (hc ▸ hc')
      have hthird := third_pair_byte (sextet decodeBasis64Url (mem (o+1+1)))
        (sextet decodeBasis64Url (mem (o+1+1+1))) (hd ▸ hd')
      rw [ha, hb] at hpair
      rw [hb, hc] at hsecond
      rw [hc, hd] at hthird
      have hr : 6*(ds.length+4)%8 = 6*ds.length%8 := by omega
      have hpow : 64^ds.length = 256^(6*ds.length/8)*2^(6*ds.length%8) := by
        rw [show 64 = 2^6 from rfl, show 256 = 2^8 from rfl, ← pow_mul, ← pow_mul, ← pow_add]
        congr 1
        omega
      refine ⟨?_,?_⟩
      · rw [decodeGroups, List.length_append, hlen, List.length_cons, List.length_cons,
          List.length_cons, List.length_nil]
        omega
      · have hthree := value_bytes_three
          ((sextet decodeBasis64Url (mem o) <<< 2) ||| (sextet decodeBasis64Url (mem (o+1)) >>> 4))
          ((sextet decodeBasis64Url (mem (o+1)) <<< 4) |||
            (sextet decodeBasis64Url (mem (o+2)) >>> 2))
          ((sextet decodeBasis64Url (mem (o+2)) <<< 6) ||| sextet decodeBasis64Url (mem (o+3)))
          (decodeGroups decodeBasis64Url mem (o+4) ds.length)
        have hbits : (a*4+b/16)*65536+(b%16*16+c/4)*256+(c%4*64+d) =
            a*262144+b*4096+c*64+d := by omega
        rw [decodeGroups]
        refine hthree.trans ?_
        rw [hpair, hsecond, hthird, hbits, hlen, hvalue, value_digits_four, hr, hpow, ← mul_assoc,
          mul_comm _ (2^(6*ds.length%8)), Nat.mul_add_div (Nat.two_pow_pos _)]

theorem front_pad (s : List UInt8) : front (pad::s) = [] := by
  rw [front, List.takeWhile_cons_of_neg (by simp)]

theorem front_cons {ch : UInt8} (h : ch ≠ pad) (s : List UInt8) : front (ch::s) = ch::front s := by
  rw [front, List.takeWhile_cons_of_pos (by simpa using h)]
  rfl

theorem alphabet_length_list (mem : ℕ → UInt8) (s : List UInt8) (len : ℕ)
    (h : ∀ (i : ℕ) (ch : UInt8), s[i]? = some ch → mem (0+(len+i)) = ch) :
    alphabetLength decodeBasis64Url mem 0 s.length len =
      (digits urlDigit (front s)).map fun ds => len+ds.length := by
  induction s generalizing len with
  | nil => rfl
  | cons ch s ih =>
    have hch : mem (0+len) = ch := h 0 ch rfl
    rw [List.length_cons, alphabetLength, hch]
    by_cases hpad : ch = pad
    · rw [if_pos hpad, hpad, front_pad]
      rfl
    have hrest := ih (len+1) fun i c hc => by
      rw [Nat.add_assoc, Nat.add_comm 1]
      exact h (i+1) c hc
    rw [if_neg hpad, front_cons hpad, digits, sextet_url, hrest]
    cases hd : urlDigit ch with
    | none => rfl
    | some d =>
      have hlt := url_digit_lt hd
      have hne : ¬((some d).map UInt8.ofNat).getD 77 = 77 := by
        intro heq
        have hnat : (UInt8.ofNat d).toNat = 77 := congrArg UInt8.toNat heq
        rw [UInt8.toNat_ofNat'] at hnat
        omega
      rw [if_neg hne, Option.bind_some, Option.map_map]
      congr 1
      funext ds
      simp only [Function.comp_apply, List.length_cons]
      omega

theorem digits_get {t : List UInt8} {ds : List ℕ} (h : digits urlDigit t = some ds) (i d : ℕ)
    (hd : ds[i]? = some d) : ∃ ch, t[i]? = some ch ∧ urlDigit ch = some d := by
  induction t generalizing ds i with
  | nil =>
    obtain rfl := Option.some.inj h
    cases hd
  | cons ch t ih =>
    obtain ⟨e,he,h⟩ := Option.bind_eq_some_iff.mp h
    obtain ⟨es,hes,rfl⟩ := Option.map_eq_some_iff.mp h
    cases i with
    | zero =>
      obtain rfl := Option.some.inj hd
      exact ⟨ch,rfl,he⟩
    | succ i => exact ih hes i hd

theorem front_back (s : List UInt8) : front s++back s = s := List.takeWhile_append_dropWhile

theorem front_cells {s : List UInt8} {ds : List ℕ} (h : digits urlDigit (front s) = some ds) :
    Cells (fun i => s.getD i 0) 0 ds := by
  intro i d hd
  obtain ⟨ch,hch,hdigit⟩ := digits_get h i d hd
  have hlt := url_digit_lt hdigit
  have hget : s.getD (0+i) 0 = ch := by
    obtain ⟨hi,-⟩ := List.getElem?_eq_some_iff.mp hch
    have hs : s[i]? = some ch := by
      rw [← front_back s, List.getElem?_append_left hi]
      exact hch
    rw [Nat.zero_add, List.getD_eq_getElem?_getD, hs, Option.getD_some]
  refine ⟨?_,hlt⟩
  dsimp only
  rw [hget, sextet_url, hdigit, Option.map_some, Option.getD_some, UInt8.toNat_ofNat']
  omega

theorem decode_url (s : List UInt8) : ngxDecodeBase64Url (fun i => s.getD i 0) 0 s.length =
    (digits urlDigit (front s)).bind fun ds => if ds.length%4 = 1 then none
      else some (decodeGroups decodeBasis64Url (fun i => s.getD i 0) 0 ds.length) := by
  have hlen := alphabet_length_list (fun i => s.getD i 0) s 0 fun i ch h => by
    rw [Nat.zero_add, Nat.zero_add, List.getD_eq_getElem?_getD, h, Option.getD_some]
  rw [ngxDecodeBase64Url, ngxDecodeBase64Internal, hlen]
  cases digits urlDigit (front s) with
  | none => rfl
  | some ds =>
    rw [Option.map_some, Option.bind_some, Option.bind_some, Nat.zero_add]

theorem value_bytes_cons (x : UInt8) (s : List UInt8) : value 256 ((x::s).map UInt8.toNat) =
    x.toNat*256^s.length+value 256 (s.map UInt8.toNat) := by
  have h := @value_append 256 [x.toNat] (s.map UInt8.toNat)
  have hone : value 256 [x.toNat] = x.toNat := by
    simp only [value, valueFrom]
    omega
  rw [List.length_map, hone] at h
  exact h

theorem value_bytes_lt (s : List UInt8) : value 256 (s.map UInt8.toNat) < 256^s.length := by
  induction s with
  | nil => decide
  | cons x s ih =>
    have hx := x.toNat_lt
    have hstep : x.toNat*256^s.length+value 256 (s.map UInt8.toNat) < (x.toNat+1)*256^s.length := by
      rw [Nat.add_mul, Nat.one_mul]
      omega
    rw [value_bytes_cons, List.length_cons, pow_succ']
    exact hstep.trans_le (Nat.mul_le_mul_right _ hx)

theorem value_bytes_inj {s t : List UInt8} (hlen : s.length = t.length)
    (h : value 256 (s.map UInt8.toNat) = value 256 (t.map UInt8.toNat)) : s = t := by
  induction s generalizing t with
  | nil => exact (List.length_eq_zero_iff.mp hlen.symm).symm
  | cons x s ih =>
    match t with
    | [] => cases hlen
    | y::t =>
      have hst : s.length = t.length := Nat.succ.inj hlen
      have hs := value_bytes_lt s
      have ht := value_bytes_lt t
      rw [value_bytes_cons, value_bytes_cons, hst] at h
      rw [hst] at hs
      have hmod := congrArg (· % 256^t.length) h
      have hdiv := congrArg (· / 256^t.length) h
      have hpos : 0 < 256^t.length := Nat.pos_of_ne_zero (by simp)
      simp only [Nat.mul_add_mod_self_right, Nat.mod_eq_of_lt hs, Nat.mod_eq_of_lt ht] at hmod
      simp only [Nat.mul_comm _ (256^t.length), Nat.mul_add_div hpos, Nat.div_eq_of_lt hs,
        Nat.div_eq_of_lt ht, Nat.add_zero] at hdiv
      rw [UInt8.toNat_inj.mp hdiv, ih hst hmod]

theorem spells_iff {s : List UInt8} {ds : List ℕ} (bytes : List UInt8)
    (h : digits urlDigit (front s) = some ds) (hlen : ds.length%4 ≠ 1) : Spells s bytes ↔
      decodeGroups decodeBasis64Url (fun i => s.getD i 0) 0 ds.length = bytes := by
  obtain ⟨hlength,hvalue⟩ := decode_groups_value _ ds.length 0 ds rfl (front_cells h)
  constructor
  · rintro ⟨es,hes,-,hl,hv⟩
    obtain rfl : ds = es := Option.some.inj (h.symm.trans hes)
    exact value_bytes_inj (hlength.trans hl) (hvalue.trans hv)
  · rintro rfl
    exact ⟨ds,h,hlen,hlength.symm,hvalue.symm⟩

/-! The hash -/

theorem rfc_digest_length (message : List UInt8) : (rfcDigest message).length = 16 := by
  simp only [rfcDigest, List.length_append, LittleEndian.toBytes_length]

theorem md5_eq (stack secret : List UInt8) (h : stack.length = 64) :
    md5 stack secret = rfcDigest secret := by
  have hone := Md5Law.md5_digest stack [secret] h
  rwa [List.flatten_singleton] at hone

theorem front_length (s : List UInt8) : (front s).length ≤ s.length := by
  rw [front]
  exact (List.takeWhile_prefix _).length_le

structure Checked (hash secret : List UInt8) (expires now : ℤ) (run : Run) : Prop where
  found : run.answer ≠ .notFound ↔ hash.length ≤ 24 ∧ Spells hash (rfcDigest secret)
  current : run.answer ≠ .notFound → (run.answer = .one ↔ ¬(expires ≠ 0 ∧ expires < now))
  room : run.written.length ≤ 16 ↔ ¬(hash.length ≤ 24 ∧ digits urlDigit (front hash) ≠ none ∧
    23 ≤ (front hash).length)
  decoded : run.compared ≤ run.written.length

theorem check_hash (stack hash secret : List UInt8) (expires now : ℤ) (hstack : stack.length = 64) :
    Checked hash secret expires now (checkHash stack hash secret expires now) := by
  rw [checkHash]
  by_cases hlong : 24 < hash.length
  · rw [if_pos hlong]
    exact ⟨⟨fun h => absurd rfl h,fun h => absurd h.1 (by omega)⟩,fun h => absurd rfl h,
      ⟨fun _ h => absurd h.1 (by omega),fun _ => by simp⟩,le_refl _⟩
  have hfront := front_length hash
  rw [if_neg hlong, decode_url, md5_eq stack secret hstack]
  cases hds : digits urlDigit (front hash) with
  | none =>
    refine ⟨⟨fun h => absurd rfl h,?_⟩,fun h => absurd rfl h,
      ⟨fun _ h => h.2.1 hds,fun _ => by simp⟩,le_refl _⟩
    rintro ⟨-,es,hes,-⟩
    rw [hds] at hes
    cases hes
  | some ds =>
    have hn : ds.length = (front hash).length := digits_length hds
    rw [Option.bind_some]
    by_cases hone : ds.length%4 = 1
    · rw [if_pos hone]
      refine ⟨⟨fun h => absurd rfl h,?_⟩,fun h => absurd rfl h,
        ⟨fun _ h => absurd h.2.2 (by omega),fun _ => by simp⟩,le_refl _⟩
      rintro ⟨-,es,hes,hmod,-⟩
      obtain rfl : ds = es := Option.some.inj (hds.symm.trans hes)
      exact absurd hone hmod
    have hspells := spells_iff (rfcDigest secret) hds hone
    obtain ⟨hlength,-⟩ := decode_groups_value _ ds.length 0 ds rfl (front_cells hds)
    have hdigest := rfc_digest_length secret
    rw [if_neg hone]
    dsimp only
    generalize decodeGroups decodeBasis64Url (fun i => hash.getD i 0) 0 ds.length = written at *
    have hroom : written.length ≤ 16 ↔ ¬(hash.length ≤ 24 ∧
        digits urlDigit (front hash) ≠ none ∧ 23 ≤ (front hash).length) := by
      rw [hlength, hds]
      constructor
      · rintro h ⟨-,-,hmore⟩
        omega
      · intro h
        by_contra hmore
        exact h ⟨by omega,nofun,by omega⟩
    by_cases hsize : written.length ≠ 16
    · rw [if_pos hsize]
      refine ⟨⟨fun h => absurd rfl h,?_⟩,fun h => absurd rfl h,hroom,Nat.zero_le _⟩
      rintro ⟨-,htext⟩
      exact absurd (hspells.mp htext ▸ hdigest) hsize
    have hsixteen : 16 ≤ written.length := (not_not.mp hsize).ge
    rw [if_neg hsize]
    by_cases heq : written ≠ rfcDigest secret
    · rw [if_pos heq]
      exact ⟨⟨fun h => absurd rfl h,fun h => absurd (hspells.mp h.2) heq⟩,fun h => absurd rfl h,hroom,
        hsixteen⟩
    rw [if_neg heq]
    refine ⟨⟨fun _ => ⟨by omega,hspells.mpr (not_not.mp heq)⟩,fun _ => ?_⟩,fun _ => ?_,hroom,hsixteen⟩
    · dsimp only
      split_ifs <;> nofun
    · dsimp only
      by_cases hover : expires ≠ 0 ∧ expires < now
      · rw [if_pos hover]
        exact ⟨nofun,fun h => absurd hover h⟩
      · rw [if_neg hover]
        exact ⟨fun _ => hover,fun _ => rfl⟩

/-! The link -/

theorem atotm_pos (time : List UInt8) : 0 < ngxAtotm time ↔
    ∃ v, denoted time = some v ∧ 0 < v%2^64 ∧ v%2^64 < 2^63 := by
  have hread := read_accepts .atotm time
  have hsame : Reader.atotm.accepts time = denoted time := rfl
  rw [Reader.read, hsame] at hread
  rw [hread]
  cases denoted time with
  | none =>
    rw [Option.elim_none]
    refine iff_of_false (by decide) ?_
    rintro ⟨v,hv,-⟩
    cases hv
  | some v =>
    obtain ⟨hsign,hvalue⟩ := off_value v
    rw [Option.elim_some, checkSign]
    constructor
    · intro h
      split_ifs at h with hneg
      · exact absurd h (by decide)
      · have heq := hvalue (Int.not_lt.mp hneg)
        have hlt := hsign.mp (Int.not_lt.mp hneg)
        rw [heq] at h
        exact ⟨v,rfl,by exact_mod_cast h,hlt⟩
    · rintro ⟨w,hw,hpos,hlt⟩
      obtain rfl := Option.some.inj hw
      have hnonneg := hsign.mpr hlt
      rw [if_neg (Int.not_lt.mpr hnonneg), hvalue hnonneg]
      exact_mod_cast hpos

theorem atotm_value {time : List UInt8} {v : ℕ} (h : denoted time = some v) (hv : v < 2^63) :
    ngxAtotm time = v := by
  have hread := read_accepts .atotm time
  have hsame : Reader.atotm.accepts time = denoted time := rfl
  rw [Reader.read, hsame, h, Option.elim_some, (check_value v).mpr hv] at hread
  exact hread

theorem spells_length {s bytes : List UInt8} (h : Spells s bytes) (hlen : bytes.length = 16) :
    (front s).length = 22 := by
  obtain ⟨ds,hds,hmod,hl,-⟩ := h
  have hn : ds.length = (front s).length := digits_length hds
  omega

theorem text_short {s bytes : List UInt8} (h : Text s bytes) (hlen : bytes.length = 16) :
    s.length ≤ 24 ∧ (back s = [] ∨ back s = [pad, pad]) := by
  obtain ⟨hspells,hback⟩ := h
  have hfront := spells_length hspells hlen
  rw [hfront] at hback
  refine ⟨?_,hback⟩
  have hsplit := congrArg List.length (front_back s)
  rw [List.length_append, hfront] at hsplit
  rcases hback with hb | hb <;> rw [hb] at hsplit
  · rw [List.length_nil] at hsplit
    omega
  · rw [List.length_replicate] at hsplit
    omega

theorem run_refused (stack val secret : List UInt8) (now : ℤ) (h : ¬TimePasses val) :
    ngxHttpSecureLinkVariable stack val secret now = ⟨.notFound,[],0⟩ := by
  rw [ngxHttpSecureLinkVariable]
  cases htime : timePart val with
  | none => exact absurd (fun time ht => by rw [htime] at ht; cases ht) h
  | some time =>
    have hneg : ngxAtotm time ≤ 0 := by
      by_contra hpos
      refine h fun time' ht => ?_
      obtain rfl := Option.some.inj (htime.symm.trans ht)
      exact (atotm_pos time).mp (Int.not_le.mp hpos)
    dsimp only
    rw [if_pos hneg]

theorem run_checked (stack val secret : List UInt8) (now : ℤ) (h : TimePasses val) :
    ∃ expires, ngxHttpSecureLinkVariable stack val secret now =
        checkHash stack (hashPart val) secret expires now ∧
      (timePart val = none → expires = 0) ∧
      ∀ time v, timePart val = some time → denoted time = some v → v < 2^63 → expires = v := by
  rw [ngxHttpSecureLinkVariable]
  cases htime : timePart val with
  | none => exact ⟨0,rfl,fun _ => rfl,nofun⟩
  | some time =>
    have hpos := (atotm_pos time).mpr (h time htime)
    refine ⟨ngxAtotm time,?_,nofun,fun time' v ht hv hlt => ?_⟩
    · dsimp only
      rw [if_neg (Int.not_le.mpr hpos)]
    · obtain rfl := Option.some.inj ht
      exact atotm_value hv hlt

/-- The links for which the check is what it is meant to be are those that do not fill
`hash_buf` over its end, and do not reach a match with a time of 2^63 or more or with
something else than `==` behind the digits. -/
theorem secure_link_exact (stack val secret : List UInt8) (now : ℤ) (hstack : stack.length = 64) :
    Meets val secret now (ngxHttpSecureLinkVariable stack val secret now) ↔ Careful val secret := by
  have hdigest := rfc_digest_length secret
  by_cases hpasses : TimePasses val
  · obtain ⟨expires,hrun,hnone,hsome⟩ := run_checked stack val secret now hpasses
    have hchecked := check_hash stack (hashPart val) secret expires now hstack
    rw [← hrun] at hchecked
    generalize ngxHttpSecureLinkVariable stack val secret now = run at hchecked ⊢
    constructor
    · intro hmeets
      refine ⟨fun _ hle hdigits => ?_,fun _ hle hspells => ?_⟩
      · by_contra hmore
        exact hchecked.room.mp hmeets.room ⟨hle,hdigits,by omega⟩
      · obtain ⟨htext,htime⟩ := hmeets.found.mp (hchecked.found.mpr ⟨hle,hspells⟩)
        refine ⟨(text_short htext hdigest).2,fun time v ht hv => ?_⟩
        obtain ⟨w,hw,-,hlt⟩ := htime time ht
        obtain rfl := Option.some.inj (hv.symm.trans hw)
        exact hlt
    · intro hcareful
      have hfound : run.answer ≠ .notFound ↔ Right val secret := by
        rw [hchecked.found]
        constructor
        · rintro ⟨hle,hspells⟩
          obtain ⟨hback,hsmall⟩ := hcareful.exact hpasses hle hspells
          refine ⟨⟨hspells,?_⟩,fun time ht => ?_⟩
          · rw [spells_length hspells hdigest]
            exact hback
          · obtain ⟨v,hv,hpos,-⟩ := hpasses time ht
            exact ⟨v,hv,by omega,hsmall time v ht hv⟩
        · rintro ⟨htext,-⟩
          exact ⟨(text_short htext hdigest).1,htext.1⟩
      refine ⟨hfound,fun hright => ?_,?_,hchecked.decoded⟩
      · rw [hchecked.current (hfound.mpr hright)]
        cases htime : timePart val with
        | none =>
          exact ⟨fun _ _ _ ht => (nomatch ht),fun _ hover => hover.1 (hnone htime)⟩
        | some time =>
          obtain ⟨v,hv,hpos,hlt⟩ := hright.2 time htime
          have hexpires := hsome time v htime hv hlt
          constructor
          · intro hnot time' w ht hw
            obtain rfl := Option.some.inj ht
            obtain rfl := Option.some.inj (hv.symm.trans hw)
            by_contra hover
            exact hnot ⟨by omega,by omega⟩
          · intro hall hover
            have hle := hall time v rfl hv
            omega
      · rw [hchecked.room]
        rintro ⟨hle,hdigits,hmore⟩
        have hshort := hcareful.short hpasses hle hdigits
        omega
  rw [run_refused stack val secret now hpasses]
  have hnot : ¬Right val secret := fun hright => hpasses fun time ht => by
    obtain ⟨v,hv,hpos,hlt⟩ := hright.2 time ht
    exact ⟨v,hv,by omega,by omega⟩
  exact ⟨fun _ => ⟨fun h => absurd h hpasses,fun h => absurd h hpasses⟩,
    fun _ => ⟨⟨fun h => absurd rfl h,fun h => absurd h hnot⟩,fun h => absurd h hnot,by simp,
      le_refl _⟩⟩

/-- `1B2M2Y8AsgTpgAmY7PhCfg,9`, a right link for an empty secret -/
def emptyLink : List UInt8 :=
  [49,66,50,77,50,89,56,65,115,103,84,112,
    103,65,109,89,55,80,104,67,102,103,44,57]

theorem secure_link_exact_empty :
    (ngxHttpSecureLinkVariable (List.replicate 64 0) emptyLink [] 5).answer = .one ∧
      Meets emptyLink [] 5 (ngxHttpSecureLinkVariable (List.replicate 64 0) emptyLink [] 5) := by
  refine ⟨by decide +kernel,(secure_link_exact (List.replicate 64 0) emptyLink [] 5
    (by decide)).mpr ⟨fun _ _ _ => by decide,fun _ _ _ => ⟨Or.inl (by decide),?_⟩⟩⟩
  rintro time v ⟨⟩ ⟨⟩
  decide

/-- 24 digits fill 18 bytes. -/
theorem hash_overflows : ¬∀ (stack val secret : List UInt8) (now : ℤ), stack.length = 64 →
    Meets val secret now (ngxHttpSecureLinkVariable stack val secret now) := by
  intro hall
  have hcareful := (secure_link_exact (List.replicate 64 0) (List.replicate 24 65) [] 0
    (by decide)).mp (hall _ _ _ _ (by decide))
  have hshort := hcareful.short (fun _ h => by cases h) (by decide) (by decide)
  exact absurd hshort (by decide)

end Nginx.SecureLink
