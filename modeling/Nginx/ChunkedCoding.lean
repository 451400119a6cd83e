import Mathlib.Data.List.Basic
import Mathlib.Algebra.Order.Ring.Int

/-!
# Chunked bodies

A chunk is the number of its bytes in hexadecimal digits, a line end, the bytes and a line
end; the last chunk has the number zero. The decoder is written from the grammar.
-/

set_option autoImplicit false

namespace Nginx.ChunkedCoding

def hexDigit (d : ℕ) : ℕ := if d < 10 then 48+d else 87+d

def hexValue (c : ℕ) : Option ℕ :=
  if 48 ≤ c ∧ c ≤ 57 then some (c-48)
  else if 97 ≤ c ∧ c ≤ 102 then some (c-87)
  else if 65 ≤ c ∧ c ≤ 70 then some (c-55)
  else none

/-- The digits of a number in front of `p`, the lowest one first. -/
@[grind =] def hexLoop : ℕ → ℕ → List ℕ → List ℕ
  | 0, _, p => p
  | k+1, ui, p =>
    if ui/16 = 0 then hexDigit (ui % 16)::p else hexLoop k (ui/16) (hexDigit (ui % 16)::p)

def hex (n : ℕ) : List ℕ := hexLoop (n+1) n []

@[grind =] def readSize : ℕ → List ℕ → ℕ × List ℕ
  | acc, [] => (acc, [])
  | acc, c::cs =>
    match hexValue c with
    | some d => readSize (acc*16+d) cs
    | none => (acc, c::cs)

@[grind =] def decode : ℕ → List ℕ → Option (List ℕ × Bool)
  | _, [] => some ([], false)
  | 0, _::_ => none
  | fuel+1, c::cs =>
    if hexValue c = none then none
    else
      match readSize 0 (c::cs) with
      | (size, 13::10::rest) =>
        if size = 0 then (if rest = [13,10] then some ([], true) else none)
        else if rest.length < size then none
        else
          match rest.drop size with
          | 13::10::rest' =>
            (decode fuel rest').map (fun (body, last) => (rest.take size++body, last))
          | _ => none
      | _ => none

theorem hex_value_digit (d : ℕ) (h : d < 16) : hexValue (hexDigit d) = some d := by
  rw [hexDigit]
  split_ifs with hd
  · rw [hexValue, if_pos ⟨by omega,by omega⟩, Nat.add_sub_cancel_left]
  · rw [hexValue, if_neg (by omega), if_pos ⟨by omega,by omega⟩, Nat.add_sub_cancel_left]

theorem hex_loop_append (k n : ℕ) (p q : List ℕ) : hexLoop k n (p++q) = hexLoop k n p++q := by
  induction k generalizing n p with
  | zero => rfl
  | succ k ih =>
    rw [hexLoop, hexLoop]
    split_ifs
    · rfl
    · exact ih _ (_::p)

theorem read_hex_loop (k n acc : ℕ) (p : List ℕ) (h : n < k) :
    ∃ m, readSize acc (hexLoop k n p) = readSize (acc*16^m+n) p := by
  induction k generalizing n p with
  | zero => omega
  | succ k ih =>
    have hdigit : n % 16 < 16 := Nat.mod_lt n (by decide)
    have hread : ∀ a, readSize a (hexDigit (n % 16)::p) = readSize (a*16+n % 16) p := by
      intro a
      rw [readSize, hex_value_digit _ hdigit]
    rw [hexLoop]
    split_ifs with hsmall
    · refine ⟨1,?_⟩
      rw [hread, Nat.pow_succ, Nat.pow_zero]
      congr 1
      omega
    · obtain ⟨m,hm⟩ := ih (n/16) (hexDigit (n % 16)::p) (by omega)
      refine ⟨m+1,?_⟩
      rw [hm, hread]
      congr 1
      have hpow : 16^m*16 = 16^(m+1) := (Nat.pow_succ 16 m).symm
      rw [Nat.add_mul, Nat.mul_assoc, hpow]
      omega

theorem read_hex (n : ℕ) (p : List ℕ) : readSize 0 (hex n++p) = readSize n p := by
  obtain ⟨m,hm⟩ := read_hex_loop (n+1) n 0 p (Nat.lt_succ_self n)
  have happend := hex_loop_append (n+1) n [] p
  rw [List.nil_append] at happend
  rw [hex, ← happend, hm, Nat.zero_mul, Nat.zero_add]

theorem hex_loop_starts (k n : ℕ) (c : ℕ) (p : List ℕ) (h : hexValue c ≠ none) :
    ∃ d ds, hexLoop k n (c::p) = d::ds ∧ hexValue d ≠ none := by
  induction k generalizing n c p with
  | zero => exact ⟨c,p,rfl,h⟩
  | succ k ih =>
    have hdigit : hexValue (hexDigit (n % 16)) ≠ none := by
      rw [hex_value_digit _ (Nat.mod_lt n (by decide))]
      exact Option.some_ne_none _
    rw [hexLoop]
    split_ifs
    · exact ⟨_,_,rfl,hdigit⟩
    · exact ih _ _ _ hdigit

theorem hex_starts (n : ℕ) : ∃ d ds, hex n = d::ds ∧ hexValue d ≠ none := by
  have hdigit : hexValue (hexDigit (n % 16)) ≠ none := by
    rw [hex_value_digit _ (Nat.mod_lt n (by decide))]
    exact Option.some_ne_none _
  rw [hex, hexLoop]
  split_ifs
  · exact ⟨_,_,rfl,hdigit⟩
  · exact hex_loop_starts _ _ _ _ hdigit

def chunk (data : List ℕ) : List ℕ := hex data.length++[13,10]++data++[13,10]

def lastChunk : List ℕ := [48,13,10,13,10]

theorem decode_chunk (fuel : ℕ) (data rest : List ℕ) (h : data ≠ []) :
    decode (fuel+1) (chunk data++rest) =
      (decode fuel rest).map (fun (body, last) => (data++body, last)) := by
  obtain ⟨d,ds,hhex,hd⟩ := hex_starts data.length
  have hcut : chunk data++rest = hex data.length++13::10::(data++13::10::rest) := by
    simp [chunk]
  have hread : readSize 0 (hex data.length++13::10::(data++13::10::rest)) =
      (data.length, 13::10::(data++13::10::rest)) := by
    rw [read_hex]
    rfl
  have hne : data.length ≠ 0 := fun hz => h (List.eq_nil_of_length_eq_zero hz)
  rw [hcut]
  rw [hhex] at hread ⊢
  rw [List.cons_append] at hread ⊢
  rw [decode, if_neg hd, hread]
  simp only
  rw [if_neg hne, if_neg (by rw [List.length_append]; omega), List.drop_left, List.take_left]
  rfl

theorem decode_last (fuel : ℕ) : decode (fuel+1) lastChunk = some ([], true) := rfl

/-- What a sender has written: chunks with bytes, and the last chunk once it is through. -/
def message (chunks : List (List ℕ)) (last : Bool) : List ℕ :=
  chunks.flatMap chunk++if last then lastChunk else []

theorem decode_message (chunks : List (List ℕ)) (last : Bool) (fuel : ℕ)
    (h : ∀ data ∈ chunks, data ≠ []) (hfuel : chunks.length < fuel) :
    decode fuel (message chunks last) = some (chunks.flatten, last) := by
  induction chunks generalizing fuel with
  | nil =>
    obtain ⟨k,rfl⟩ : ∃ k, fuel = k+1 := ⟨fuel-1,by rw [List.length_nil] at hfuel; omega⟩
    cases last with
    | false => rfl
    | true => exact decode_last k
  | cons data chunks ih =>
    rw [List.length_cons] at hfuel
    obtain ⟨k,rfl⟩ : ∃ k, fuel = k+1 := ⟨fuel-1,by omega⟩
    have hrest := ih k (fun d hd => h d (List.mem_cons_of_mem data hd)) (by omega)
    rw [message, List.flatMap_cons, List.append_assoc, ← message,
      decode_chunk k data _ (h data List.mem_cons_self), hrest]
    rfl

theorem chunks_length (chunks : List (List ℕ)) (last : Bool) :
    chunks.length ≤ (message chunks last).length := by
  have hone : ∀ data : List ℕ, 1 ≤ (chunk data).length := by
    intro data
    rw [chunk, List.length_append]
    exact Nat.le_add_left_of_le (by decide)
  have hall : chunks.length ≤ (chunks.flatMap chunk).length := by
    induction chunks with
    | nil => exact Nat.le_refl 0
    | cons data chunks ih =>
      rw [List.flatMap_cons, List.length_append, List.length_cons]
      have := hone data
      omega
  rw [message, List.length_append]
  omega

example : decode 9 ([50,13,10,97,98,13,10]++lastChunk) = some ([97,98], true) := by decide

end Nginx.ChunkedCoding
