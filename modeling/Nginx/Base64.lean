import Nginx.MemoryRange
import Mathlib.Data.FinEnum
import Mathlib.Tactic.Common
import Mathlib.Tactic.IntervalCases

/-!
# Base64

Both directions read memory at the address of the source string. What they write from the address
of the target on is a list, and its length is the length of the target.
-/

set_option autoImplicit false

namespace Nginx.Base64
open Nginx.MemoryRange

/-- `ABCDEFGHIJKLMNOPQRSTUVWXYZabcdefghijklmnopqrstuvwxyz0123456789+/` -/
def encodeBasis64 : List UInt8 :=
  [65,66,67,68,69,70,71,72,73,74,75,76,77,78,79,80,
   81,82,83,84,85,86,87,88,89,90,97,98,99,100,101,102,
   103,104,105,106,107,108,109,110,111,112,113,114,115,116,117,118,
   119,120,121,122,48,49,50,51,52,53,54,55,56,57,43,47]

def decodeBasis64 : List UInt8 :=
  [77,77,77,77,77,77,77,77,77,77,77,77,77,77,77,77,
   77,77,77,77,77,77,77,77,77,77,77,77,77,77,77,77,
   77,77,77,77,77,77,77,77,77,77,77,62,77,77,77,63,
   52,53,54,55,56,57,58,59,60,61,77,77,77,77,77,77,
   77,  0,  1,  2,  3,  4,  5,  6,  7,  8,  9,10,11,12,13,14,
   15,16,17,18,19,20,21,22,23,24,25,77,77,77,77,77,
   77,26,27,28,29,30,31,32,33,34,35,36,37,38,39,40,
   41,42,43,44,45,46,47,48,49,50,51,77,77,77,77,77] ++ List.replicate 128 77

def decodeBasis64Url : List UInt8 :=
  [77,77,77,77,77,77,77,77,77,77,77,77,77,77,77,77,
   77,77,77,77,77,77,77,77,77,77,77,77,77,77,77,77,
   77,77,77,77,77,77,77,77,77,77,77,77,77,62,77,77,
   52,53,54,55,56,57,58,59,60,61,77,77,77,77,77,77,
   77,  0,  1,  2,  3,  4,  5,  6,  7,  8,  9,10,11,12,13,14,
   15,16,17,18,19,20,21,22,23,24,25,77,77,77,77,63,
   77,26,27,28,29,30,31,32,33,34,35,36,37,38,39,40,
   41,42,43,44,45,46,47,48,49,50,51,77,77,77,77,77] ++ List.replicate 128 77

def pad : UInt8 := 61

def digit (i : UInt8) : UInt8 := encodeBasis64.getD i.toNat 0

def sextet (basis : List UInt8) (ch : UInt8) : UInt8 := basis.getD ch.toNat 0

def ngxBase64EncodedLength (len : ℕ) : ℕ := (len+2)/3*4

def ngxBase64DecodedLength (len : ℕ) : ℕ := (len+3)/4*3

@[grind =] def ngxEncodeBase64 (mem : ℕ → UInt8) : ℕ → ℕ → List UInt8
  | s, len+3 =>
    [digit ((mem s >>> 2) &&& 0x3f),
      digit (((mem s &&& 3) <<< 4) ||| (mem (s+1) >>> 4)),
      digit (((mem (s+1) &&& 0x0f) <<< 2) ||| (mem (s+2) >>> 6)),
      digit (mem (s+2) &&& 0x3f)]++ngxEncodeBase64 mem (s+3) len
  | s, 2 =>
    [digit ((mem s >>> 2) &&& 0x3f),
      digit (((mem s &&& 3) <<< 4) ||| (mem (s+1) >>> 4)),
      digit ((mem (s+1) &&& 0x0f) <<< 2), pad]
  | s, 1 => [digit ((mem s >>> 2) &&& 0x3f), digit ((mem s &&& 3) <<< 4), pad, pad]
  | _, 0 => []

/-- The length of what stands before the first `=`, unless a character before it is not of the
alphabet -/
@[grind =] def alphabetLength (basis : List UInt8) (mem : ℕ → UInt8) (data : ℕ) : ℕ → ℕ → Option ℕ
  | 0, len => some len
  | n+1, len =>
    if mem (data+len) = pad then some len
    else if sextet basis (mem (data+len)) = 77 then none
    else alphabetLength basis mem data n (len+1)

/-- What is written after the loop, for the at most three characters from `s` on -/
def decodeTail (basis : List UInt8) (mem : ℕ → UInt8) (s len : ℕ) : List UInt8 :=
  (if 1 < len then [(sextet basis (mem s) <<< 2) ||| (sextet basis (mem (s+1)) >>> 4)] else [])++
    if 2 < len then [(sextet basis (mem (s+1)) <<< 4) ||| (sextet basis (mem (s+2)) >>> 2)] else []

@[grind =] def decodeGroups (basis : List UInt8) (mem : ℕ → UInt8) : ℕ → ℕ → List UInt8
  | s, len+4 =>
    [(sextet basis (mem s) <<< 2) ||| (sextet basis (mem (s+1)) >>> 4),
      (sextet basis (mem (s+1)) <<< 4) ||| (sextet basis (mem (s+2)) >>> 2),
      (sextet basis (mem (s+2)) <<< 6) ||| sextet basis (mem (s+3))]++
        decodeGroups basis mem (s+4) len
  | s, len => decodeTail basis mem s len

def ngxDecodeBase64Internal (basis : List UInt8) (mem : ℕ → UInt8) (data len : ℕ) :
    Option (List UInt8) :=
  (alphabetLength basis mem data len 0).bind fun len =>
    if len%4 = 1 then none else some (decodeGroups basis mem data len)

def ngxDecodeBase64 (mem : ℕ → UInt8) (data len : ℕ) : Option (List UInt8) :=
  ngxDecodeBase64Internal decodeBasis64 mem data len

def ngxDecodeBase64Url (mem : ℕ → UInt8) (data len : ℕ) : Option (List UInt8) :=
  ngxDecodeBase64Internal decodeBasis64Url mem data len

example : ngxDecodeBase64 (fun i => [89,87,73,61].getD i 0) 0 4 = some [97,98] := by decide

/-! Reading -/

variable (basis : List UInt8) {mem mem' : ℕ → UInt8}

theorem alphabet_length_reads {data data' n len : ℕ}
    (h : ∀ i, len ≤ i → i < len+n → mem' (data'+i) = mem (data+i)) :
    alphabetLength basis mem' data' n len = alphabetLength basis mem data n len := by
  induction n generalizing len with
  | zero => rfl
  | succ n ih =>
    rw [alphabetLength, alphabetLength, h len le_rfl (by omega),
      ih fun i hl hr => h i (by omega) (by omega)]

theorem alphabet_length_spec {basis : List UInt8} {data n len k : ℕ}
    (h : alphabetLength basis mem data n len = some k) :
    len ≤ k ∧ k ≤ len+n ∧ (∀ i, len ≤ i → i < k →
        mem (data+i) ≠ pad ∧ sextet basis (mem (data+i)) ≠ 77) ∧
      (k < len+n → mem (data+k) = pad) := by
  induction n generalizing len with
  | zero =>
    obtain rfl := Option.some.inj h
    exact ⟨le_rfl,le_rfl,fun i hl hr => absurd hr (by omega),fun hk => absurd hk (by omega)⟩
  | succ n ih =>
    rw [alphabetLength] at h
    by_cases hpad : mem (data+len) = pad
    · rw [if_pos hpad] at h
      obtain rfl := Option.some.inj h
      exact ⟨le_rfl,by omega,fun i hl hr => absurd hr (by omega),fun _ => hpad⟩
    by_cases hno : sextet basis (mem (data+len)) = 77
    · rw [if_neg hpad, if_pos hno] at h
      cases h
    rw [if_neg hpad, if_neg hno] at h
    obtain ⟨hl,hr,hin,hend⟩ := ih h
    refine ⟨by omega,by omega,fun i hi hk => ?_,fun hk => hend (by omega)⟩
    rcases Nat.eq_or_lt_of_le hi with rfl|hi
    · exact ⟨hpad,hno⟩
    · exact hin i hi hk

theorem alphabet_length_eq {basis : List UInt8} {data n len k : ℕ} (hl : len ≤ k) (hr : k ≤ len+n)
    (hin : ∀ i, len ≤ i → i < k → mem (data+i) ≠ pad ∧ sextet basis (mem (data+i)) ≠ 77)
    (hend : k < len+n → mem (data+k) = pad) : alphabetLength basis mem data n len = some k := by
  induction n generalizing len with
  | zero =>
    obtain rfl : len = k := by omega
    rfl
  | succ n ih =>
    rw [alphabetLength]
    rcases Nat.eq_or_lt_of_le hl with rfl|hl
    · rw [if_pos (hend (by omega))]
    obtain ⟨hpad,hno⟩ := hin len le_rfl hl
    rw [if_neg hpad, if_neg hno]
    exact ih hl (by omega) (fun i hi hk => hin i (by omega) hk) fun hk => hend (by omega)

theorem decode_tail_reads {s s' len : ℕ} (h : ∀ i < len, mem' (s'+i) = mem (s+i)) :
    decodeTail basis mem' s' len = decodeTail basis mem s len := by
  rw [decodeTail, decodeTail]
  by_cases h2 : 2 < len
  · rw [if_pos h2, if_pos h2, if_pos (Nat.lt_of_succ_lt h2), if_pos (Nat.lt_of_succ_lt h2),
      h 1 (by omega), h 2 h2, show mem' s' = mem s from h 0 (by omega)]
  rw [if_neg h2, if_neg h2]
  by_cases h1 : 1 < len
  · rw [if_pos h1, if_pos h1, h 1 h1, show mem' s' = mem s from h 0 (by omega)]
  · rw [if_neg h1, if_neg h1]

variable {s len : ℕ}

theorem decode_tail_length (mem : ℕ → UInt8) (h : len < 4) :
    (decodeTail basis mem s len).length = len-1 := by
  rw [decodeTail]
  split_ifs <;> simp only [List.length_append, List.length_cons, List.length_nil] <;> omega

theorem decode_groups_reads {s s' len : ℕ} (h : ∀ i < len, mem' (s'+i) = mem (s+i)) :
    decodeGroups basis mem' s' len = decodeGroups basis mem s len := by
  induction s, len using decodeGroups.induct generalizing s' with
  | case1 s len ih =>
    have hrest : decodeGroups basis mem' (s'+4) len = decodeGroups basis mem (s+4) len :=
      ih fun i hi => by rw [Nat.add_assoc, Nat.add_assoc, h (4+i) (by omega)]
    rw [decodeGroups, decodeGroups, h 1 (by omega), h 2 (by omega), h 3 (by omega),
      show mem' s' = mem s from h 0 (by omega), hrest]
  | case2 s len hlen =>
    rw [decodeGroups.eq_2 basis mem' s' len hlen, decodeGroups.eq_2 basis mem s len hlen]
    exact decode_tail_reads basis h

theorem decode_groups_length (mem : ℕ → UInt8) (s len : ℕ) :
    (decodeGroups basis mem s len).length ≤ ngxBase64DecodedLength len := by
  induction s, len using decodeGroups.induct with
  | case1 s len ih =>
    rw [ngxBase64DecodedLength] at *
    rw [decodeGroups, List.length_append]
    simp only [List.length_cons, List.length_nil]
    omega
  | case2 s len hlen =>
    have hlen' : len < 4 := by
      by_contra hno
      exact hlen (len-4) (by omega)
    rw [decodeGroups.eq_2 basis mem s len hlen, decode_tail_length basis mem hlen',
      ngxBase64DecodedLength]
    omega

/-- The characters in front of the first `=` -/
def beforePad (mem : ℕ → UInt8) (data len : ℕ) : List UInt8 :=
  (readRange mem data (data+len)).takeWhile (· ≠ pad)

theorem decode_some {basis : List UInt8} {data len : ℕ} {out : List UInt8}
    (h : ngxDecodeBase64Internal basis mem data len = some out) :
    ∃ k, k ≤ len ∧ beforePad mem data len = readRange mem data (data+k) ∧
      (∀ ch ∈ beforePad mem data len, sextet basis ch ≠ 77) ∧
      out = decodeGroups basis mem data k := by
  obtain ⟨k,hk,hout⟩ := Option.bind_eq_some_iff.mp h
  obtain ⟨-,hle,hin,hend⟩ := alphabet_length_spec hk
  have hbefore : beforePad mem data len = readRange mem data (data+k) := by
    rw [beforePad, ← read_append mem (Nat.le_add_right data k) (show data+k ≤ data+len by omega)]
    rw [List.takeWhile_append_of_pos]
    · rcases Nat.eq_or_lt_of_le (show k ≤ len by omega) with rfl|hlt
      · rw [read_empty]
        simp
      · rw [read_first mem (show data+k < data+len by omega), hend (by omega)]
        simp
    · intro ch hch
      obtain ⟨i,hl,hr,rfl⟩ := mem_read hch
      have h := (hin (i-data) (by omega) (by omega)).1
      rw [Nat.add_sub_cancel' hl] at h
      exact decide_eq_true h
  refine ⟨k,by omega,hbefore,?_,?_⟩
  · rw [hbefore]
    intro ch hch
    obtain ⟨i,hl,hr,rfl⟩ := mem_read hch
    have h := (hin (i-data) (by omega) (by omega)).2
    rwa [Nat.add_sub_cancel' hl] at h
  · split_ifs at hout
    exact (Option.some.inj hout).symm

theorem decode_before {basis : List UInt8} {data data' len len' : ℕ} {out out' : List UInt8}
    (h : ngxDecodeBase64Internal basis mem data len = some out)
    (h' : ngxDecodeBase64Internal basis mem' data' len' = some out')
    (hsame : beforePad mem' data' len' = beforePad mem data len) : out' = out := by
  obtain ⟨k,-,hk,-,rfl⟩ := decode_some h
  obtain ⟨k',-,hk',-,rfl⟩ := decode_some h'
  rw [hk, hk'] at hsame
  have hlen := congrArg List.length hsame
  rw [read_length, read_length, Nat.add_sub_cancel_left, Nat.add_sub_cancel_left] at hlen
  subst hlen
  exact decode_groups_reads basis (read_eq_iff.mp hsame)

theorem decode_reads {data data' len : ℕ}
    (h : readRange mem' data' (data'+len) = readRange mem data (data+len)) :
    ngxDecodeBase64Internal basis mem' data' len = ngxDecodeBase64Internal basis mem data len := by
  have hcell := read_eq_iff.mp h
  have hlen : alphabetLength basis mem' data' len 0 = alphabetLength basis mem data len 0 :=
    alphabet_length_reads basis fun i _ hi => hcell i (by omega)
  rw [ngxDecodeBase64Internal, ngxDecodeBase64Internal, hlen]
  cases hk : alphabetLength basis mem data len 0 with
  | none => rfl
  | some k =>
    obtain ⟨-,hle,-⟩ := alphabet_length_spec hk
    have hgroups : decodeGroups basis mem' data' k = decodeGroups basis mem data k :=
      decode_groups_reads basis fun i hi => hcell i (by omega)
    simp only [Option.bind_some, hgroups]

/-! Bits -/

theorem byte_ext {x y : UInt8} (h : ∀ i (hi : i < 8), x.toBitVec[i] = y.toBitVec[i]) : x = y :=
  UInt8.eq_of_toBitVec_eq (BitVec.eq_of_getElem_eq h)

variable (x y : UInt8)

theorem first_byte :
    (((x >>> 2) &&& 0x3f) <<< 2) ||| ((((x &&& 3) <<< 4) ||| (y >>> 4)) >>> 4) = x := by
  apply byte_ext
  intro i hi
  interval_cases i <;> simp

theorem second_byte (z : UInt8) :
    ((((x &&& 3) <<< 4) ||| (y >>> 4)) <<< 4) ||| ((((y &&& 0x0f) <<< 2) ||| (z >>> 6)) >>> 2) =
      y := by
  apply byte_ext
  intro i hi
  interval_cases i <;> simp

theorem third_byte (z : UInt8) :
    ((((y &&& 0x0f) <<< 2) ||| (z >>> 6)) <<< 6) ||| (z &&& 0x3f) = z := by
  apply byte_ext
  intro i hi
  interval_cases i <;> simp

theorem index_iff (i : UInt8) : i < 64 ↔ i >>> 6 = 0 := by
  rw [UInt8.lt_iff_toNat_lt, ← UInt8.toNat_inj, UInt8.toNat_shiftRight]
  simp [Nat.shiftRight_eq_div_pow]

theorem outer_index : (x >>> 2) &&& 0x3f < 64 ∧ x &&& 0x3f < 64 := by
  simp only [UInt8.lt_iff_toNat_lt, UInt8.toNat_and]
  exact ⟨Nat.lt_of_le_of_lt Nat.and_le_right (by decide),
    Nat.lt_of_le_of_lt Nat.and_le_right (by decide)⟩

theorem second_index : ((x &&& 3) <<< 4) ||| (y >>> 4) < 64 := by
  rw [index_iff]
  apply byte_ext
  intro i hi
  interval_cases i <;> simp

theorem third_index (z : UInt8) : ((y &&& 0x0f) <<< 2) ||| (z >>> 6) < 64 := by
  rw [index_iff]
  apply byte_ext
  intro i hi
  interval_cases i <;> simp

theorem mem_table (table : List UInt8) {i : UInt8} (h : i.toNat < table.length) :
    (table.getD i.toNat 0,i.toNat) ∈ table.zipIdx := by
  rw [List.mem_zipIdx_iff_getElem?, List.getElem?_eq_getElem h, List.getD_eq_getElem _ _ h]

theorem tables : decodeBasis64.length = 2^8 ∧
    (∀ p ∈ decodeBasis64.zipIdx, p.1 = 77 ∨ (p.1 < 64 ∧ digit p.1 = UInt8.ofNat p.2)) ∧
    ∀ p ∈ encodeBasis64.zipIdx, sextet decodeBasis64 p.1 = UInt8.ofNat p.2 ∧ p.1 ≠ pad := by
  decide +kernel

theorem digit_mem {i : UInt8} (h : i < 64) : digit i ∈ encodeBasis64 := by
  have hi : i.toNat < encodeBasis64.length := UInt8.lt_iff_toNat_lt.mp h
  exact List.fst_mem_of_mem_zipIdx (mem_table _ hi)

theorem alphabet_mem {ch : UInt8} (h : sextet decodeBasis64 ch ≠ 77) : ch ∈ encodeBasis64 := by
  obtain ⟨hlen,htable,-⟩ := tables
  have hch := htable _ (mem_table decodeBasis64 (lt_of_lt_of_eq ch.toNat_lt hlen.symm))
  rw [UInt8.ofNat_toNat] at hch
  obtain ⟨hlt,heq⟩ := hch.resolve_left h
  exact heq ▸ digit_mem hlt

theorem digit_sextet (i : UInt8) (h : i < 64) :
    sextet decodeBasis64 (digit i) = i ∧ digit i ≠ pad ∧ i ≠ 77 := by
  have hi : i.toNat < encodeBasis64.length := UInt8.lt_iff_toNat_lt.mp h
  obtain ⟨hs,hp⟩ := tables.2.2 _ (mem_table _ hi)
  rw [UInt8.ofNat_toNat] at hs
  refine ⟨hs,hp,?_⟩
  rintro rfl
  exact absurd h (by decide)

/-! Encoding -/

theorem encode_length (mem : ℕ → UInt8) (s len : ℕ) :
    (ngxEncodeBase64 mem s len).length = ngxBase64EncodedLength len := by
  induction s, len using ngxEncodeBase64.induct with
  | case1 s len ih =>
    rw [ngxBase64EncodedLength] at *
    rw [ngxEncodeBase64, List.length_append, ih]
    simp only [List.length_cons, List.length_nil]
    omega
  | case2 s => rfl
  | case3 s => rfl
  | case4 s => rfl

variable {e n : ℕ}

theorem read_four {d0 d1 d2 d3 : UInt8} {rest : List UInt8}
    (h : readRange mem e (e+(n+4)) = [d0,d1,d2,d3]++rest) :
    mem e = d0 ∧ mem (e+1) = d1 ∧ mem (e+2) = d2 ∧ mem (e+3) = d3 ∧
      readRange mem (e+4) (e+4+n) = rest := by
  rw [read_first mem (by omega), read_first mem (by omega), read_first mem (by omega),
    read_first mem (by omega), show e+(n+4) = e+4+n by omega] at h
  simpa using h

theorem read_three {d0 d1 d2 : UInt8} (h : readRange mem e (e+3) = [d0,d1,d2]) :
    mem e = d0 ∧ mem (e+1) = d1 ∧ mem (e+2) = d2 := by
  rw [read_first mem (by omega), read_first mem (by omega), read_first mem (by omega)] at h
  simp only [List.cons.injEq] at h
  exact ⟨h.1,h.2.1,h.2.2.1⟩

theorem read_two {d0 d1 : UInt8} (h : readRange mem e (e+2) = [d0,d1]) :
    mem e = d0 ∧ mem (e+1) = d1 := by
  rw [read_first mem (by omega), read_first mem (by omega)] at h
  simp only [List.cons.injEq] at h
  exact ⟨h.1,h.2.1⟩

/-- A text of the alphabet that is decoded to what is in memory from `s` on -/
def Encodes (mem : ℕ → UInt8) (s len : ℕ) (body : List UInt8) : Prop :=
  ∀ mem' e, readRange mem' e (e+body.length) = body →
    decodeGroups decodeBasis64 mem' e body.length = readRange mem s (s+len)

theorem encodes_group {body : List UInt8} (h : Encodes mem (s+3) len body) :
    Encodes mem s (len+3) ([digit ((mem s >>> 2) &&& 0x3f),
      digit (((mem s &&& 3) <<< 4) ||| (mem (s+1) >>> 4)),
      digit (((mem (s+1) &&& 0x0f) <<< 2) ||| (mem (s+2) >>> 6)),
      digit (mem (s+2) &&& 0x3f)]++body) := by
  intro mem' e hread
  have hfour (d0 d1 d2 d3 : UInt8) : ([d0,d1,d2,d3]++body).length = body.length+4 := rfl
  rw [hfour] at hread ⊢
  obtain ⟨h0,h1,h2,h3,hrest⟩ := read_four hread
  have ho := outer_index (mem s)
  have hl := outer_index (mem (s+2))
  rw [decodeGroups, h0, h1, h2, h3, h mem' (e+4) hrest, (digit_sextet _ ho.1).1,
    (digit_sextet _ (second_index _ _)).1, (digit_sextet _ (third_index _ _)).1,
    (digit_sextet _ hl.2).1, first_byte, second_byte, third_byte,
    read_first mem (show s < s+(len+3) by omega), read_first mem (show s+1 < s+(len+3) by omega),
    read_first mem (show s+1+1 < s+(len+3) by omega), show s+(len+3) = s+3+len by omega]
  rfl

theorem encodes_two (mem : ℕ → UInt8) (s : ℕ) :
    Encodes mem s 2 [digit ((mem s >>> 2) &&& 0x3f),
      digit (((mem s &&& 3) <<< 4) ||| (mem (s+1) >>> 4)), digit ((mem (s+1) &&& 0x0f) <<< 2)] := by
  intro mem' e hread
  obtain ⟨h0,h1,h2⟩ := read_three hread
  have hthird : (mem (s+1) &&& 0x0f) <<< 2 = ((mem (s+1) &&& 0x0f) <<< 2) ||| ((0 : UInt8) >>> 6) :=
    by simp
  have hdecode : decodeGroups decodeBasis64 mem' e 3 = decodeTail decodeBasis64 mem' e 3 :=
    decodeGroups.eq_2 _ _ _ _ fun n hn => by omega
  have hsource : readRange mem s (s+2) = [mem s,mem (s+1)] := by
    rw [read_first mem (by omega), read_first mem (by omega), read_empty]
  refine hdecode.trans ?_
  rw [decodeTail, if_pos (by decide), if_pos (by decide), h0, h1, h2, hthird,
    (digit_sextet _ (outer_index (mem s)).1).1, (digit_sextet _ (second_index _ _)).1,
    (digit_sextet _ (third_index _ _)).1, first_byte, second_byte, hsource]
  rfl

theorem encodes_one (mem : ℕ → UInt8) (s : ℕ) :
    Encodes mem s 1 [digit ((mem s >>> 2) &&& 0x3f), digit ((mem s &&& 3) <<< 4)] := by
  intro mem' e hread
  obtain ⟨h0,h1⟩ := read_two hread
  have hsecond : (mem s &&& 3) <<< 4 = ((mem s &&& 3) <<< 4) ||| ((0 : UInt8) >>> 4) := by simp
  have hdecode : decodeGroups decodeBasis64 mem' e 2 = decodeTail decodeBasis64 mem' e 2 :=
    decodeGroups.eq_2 _ _ _ _ fun n hn => by omega
  have hsource : readRange mem s (s+1) = [mem s] := by
    rw [read_first mem (by omega), read_empty]
  refine hdecode.trans ?_
  rw [decodeTail, if_pos (by decide), if_neg (by decide), h0, h1, hsecond,
    (digit_sextet _ (outer_index (mem s)).1).1, (digit_sextet _ (second_index _ _)).1, first_byte,
    hsource]
  rfl

structure Digits (body : List UInt8) : Prop where
  alphabet : ∀ ch ∈ body, ch ≠ pad ∧ sextet decodeBasis64 ch ≠ 77
  length : body.length%4 ≠ 1

theorem encode_body (mem : ℕ → UInt8) (s len : ℕ) : ∃ body pads,
    ngxEncodeBase64 mem s len = body++pads ∧ (∀ ch ∈ pads, ch = pad) ∧ Digits body ∧
      Encodes mem s len body := by
  have hdigit (i : UInt8) (hi : i < 64) : digit i ≠ pad ∧ sextet decodeBasis64 (digit i) ≠ 77 := by
    obtain ⟨hs,hp,hn⟩ := digit_sextet i hi
    exact ⟨hp,hs.symm ▸ hn⟩
  have hthird (y : UInt8) : (y &&& 0x0f) <<< 2 < 64 := by
    simpa using third_index y 0
  have hsecond (x : UInt8) : (x &&& 3) <<< 4 < 64 := by
    simpa using second_index x 0
  induction s, len using ngxEncodeBase64.induct with
  | case1 s len ih =>
    obtain ⟨body,pads,hout,hpads,hbody,hencodes⟩ := ih
    refine ⟨_,pads,?_,hpads,⟨?_,?_⟩,encodes_group hencodes⟩
    · rw [ngxEncodeBase64, hout, List.append_assoc]
    · intro ch hch
      rcases List.mem_append.mp hch with hch|hch
      · simp only [List.mem_cons, List.not_mem_nil, or_false] at hch
        rcases hch with rfl|rfl|rfl|rfl
        · exact hdigit _ (outer_index _).1
        · exact hdigit _ (second_index _ _)
        · exact hdigit _ (third_index _ _)
        · exact hdigit _ (outer_index _).2
      · exact hbody.alphabet ch hch
    · have h := hbody.length
      rw [List.length_append]
      simp only [List.length_cons, List.length_nil]
      omega
  | case2 s =>
    refine ⟨_,[pad],rfl,by simp,⟨?_,by simp⟩,encodes_two mem s⟩
    intro ch hch
    simp only [List.mem_cons, List.not_mem_nil, or_false] at hch
    rcases hch with rfl|rfl|rfl
    · exact hdigit _ (outer_index _).1
    · exact hdigit _ (second_index _ _)
    · exact hdigit _ (hthird _)
  | case3 s =>
    refine ⟨_,[pad,pad],rfl,by simp,⟨?_,by simp⟩,encodes_one mem s⟩
    intro ch hch
    simp only [List.mem_cons, List.not_mem_nil, or_false] at hch
    rcases hch with rfl|rfl
    · exact hdigit _ (outer_index _).1
    · exact hdigit _ (hsecond _)
  | case4 s =>
    refine ⟨[],[],rfl,by simp,⟨by simp,by decide⟩,fun mem' e _ => ?_⟩
    rw [Nat.add_zero, read_empty]
    rfl

theorem alphabet_length_body {body pads : List UInt8} (hbody : Digits body)
    (hpads : ∀ ch ∈ pads, ch = pad) (hread : readRange mem e (e+(body++pads).length) = body++pads) :
    readRange mem e (e+body.length) = body ∧
      alphabetLength decodeBasis64 mem e (body++pads).length 0 = some body.length := by
  rw [List.length_append] at hread ⊢
  rw [← read_append mem (Nat.le_add_right e body.length)
    (show e+body.length ≤ e+(body.length+pads.length) by omega)] at hread
  obtain ⟨hfront,hback⟩ := List.append_inj hread (by rw [read_length]; omega)
  refine ⟨hfront,alphabet_length_eq (Nat.zero_le _) (by omega) (fun i _ hi => ?_) fun hlt => ?_⟩
  · apply hbody.alphabet
    have hin : mem (e+i) ∈ readRange mem e (e+body.length) := read_mem mem (by omega) (by omega)
    rwa [hfront] at hin
  · apply hpads
    have hin : mem (e+body.length) ∈ readRange mem (e+body.length) (e+(body.length+pads.length)) :=
      read_mem mem le_rfl (by omega)
    rwa [hback] at hin

theorem decode_encoded
    (hread : readRange mem' e (e+(ngxEncodeBase64 mem s len).length) = ngxEncodeBase64 mem s len) :
    ngxDecodeBase64 mem' e (ngxEncodeBase64 mem s len).length = some (readRange mem s (s+len)) := by
  obtain ⟨body,pads,hout,hpads,hbody,hencodes⟩ := encode_body mem s len
  rw [hout] at hread ⊢
  obtain ⟨hfront,hlen⟩ := alphabet_length_body hbody hpads hread
  rw [ngxDecodeBase64, ngxDecodeBase64Internal, hlen, Option.bind_some, if_neg hbody.length,
    hencodes mem' e hfront]

/-- Every string comes back, and what is decoded, if anything, is a matter of the characters in
front of the first `=`, which are all of the alphabet. -/
theorem base64_law (mem : ℕ → UInt8) (data len : ℕ) :
    (ngxEncodeBase64 mem data len).length = ngxBase64EncodedLength len ∧
      (∀ mem' e, readRange mem' e (e+(ngxEncodeBase64 mem data len).length) =
          ngxEncodeBase64 mem data len →
        ngxDecodeBase64 mem' e (ngxEncodeBase64 mem data len).length =
          some (readRange mem data (data+len))) ∧
      (∀ mem' data', readRange mem' data' (data'+len) = readRange mem data (data+len) →
        ngxDecodeBase64 mem' data' len = ngxDecodeBase64 mem data len) ∧
      ∀ out, ngxDecodeBase64 mem data len = some out →
        out.length ≤ ngxBase64DecodedLength len ∧
        (∀ ch ∈ beforePad mem data len, ch ∈ encodeBasis64) ∧
        ∀ mem' data' len' out', ngxDecodeBase64 mem' data' len' = some out' →
          beforePad mem' data' len' = beforePad mem data len → out' = out := by
  refine ⟨encode_length mem data len,fun mem' e => decode_encoded,fun mem' data' => decode_reads _,
    fun out hout => ⟨?_,?_,fun mem' data' len' out' hout' hsame => decode_before hout hout' hsame⟩⟩
  · obtain ⟨k,hk,-,-,rfl⟩ := decode_some hout
    have h := decode_groups_length decodeBasis64 mem data k
    rw [ngxBase64DecodedLength] at *
    omega
  · obtain ⟨k,-,-,hin,-⟩ := decode_some hout
    exact fun ch hch => alphabet_mem (hin ch hch)

end Nginx.Base64
