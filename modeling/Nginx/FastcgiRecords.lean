import Mathlib.Algebra.Order.Ring.Int
import Mathlib.Data.List.Basic

/-!
# Reading FastCGI records

A record is a header, a content and a padding. A stream is a sequence of records of its type
with contents that are not empty, and one behind them that is. The parameters are pairs of a
name and a value, whose lengths of one or of four bytes come first. A request begins, and has
a stream of parameters and a stream of the body.
-/

set_option autoImplicit false

namespace Nginx.FastcgiRecords

structure Record where
  type : UInt8
  content : List UInt8
  deriving DecidableEq, Repr

def readRecord : List UInt8 → Option (Record × List UInt8)
  | version::type::idHi::idLo::lenHi::lenLo::padding::_::s =>
    let len := lenHi.toNat*256+lenLo.toNat
    if version = 1 ∧ idHi = 0 ∧ idLo = 1 ∧ len+padding.toNat ≤ s.length then
      some (⟨type,s.take len⟩, s.drop (len+padding.toNat))
    else none
  | _ => none

theorem readRecord_shorter {s : List UInt8} {r : Record × List UInt8}
    (h : readRecord s = some r) : r.2.length < s.length := by
  unfold readRecord at h
  split at h
  · simp only [Option.ite_none_right_eq_some, Option.some.injEq] at h
    obtain ⟨_,rfl⟩ := h
    simp only [List.length_drop, List.length_cons]
    omega
  · cases h

def readRecords : List UInt8 → Option (List Record)
  | [] => some []
  | c::s =>
    match h : readRecord (c::s) with
    | none => none
    | some r => (readRecords r.2).map (r.1::·)
termination_by s => s.length
decreasing_by exact readRecord_shorter h

@[grind =] def readStream (type : UInt8) : List Record → Option (List UInt8 × List Record)
  | [] => none
  | r::rs =>
    if r.type ≠ type then none
    else if r.content = [] then some ([], rs)
    else (readStream type rs).map fun s => (r.content++s.1, s.2)

@[grind =] def readLen : List UInt8 → Option (ℕ × List UInt8)
  | [] => none
  | a::s =>
    if a.toNat < 128 then some (a.toNat, s)
    else match s with
      | b::c::d::s => some (((a.toNat-128)*256+b.toNat)*65536+c.toNat*256+d.toNat, s)
      | _ => none

theorem readLen_shorter {s : List UInt8} {r : ℕ × List UInt8} (h : readLen s = some r) :
    r.2.length < s.length ∧ (127 < r.1 → r.2.length+4 ≤ s.length) := by
  cases s with
  | nil => cases h
  | cons a s =>
    simp only [readLen] at h
    split at h
    · obtain rfl := Option.some.inj h
      simp only [List.length_cons]
      omega
    · split at h
      · obtain rfl := Option.some.inj h
        simp only [List.length_cons]
        omega
      · cases h

abbrev Pair := List UInt8 × List UInt8

def readPair (s : List UInt8) : Option (Pair × List UInt8) :=
  (readLen s).bind fun key => (readLen key.2).bind fun val =>
    if key.1+val.1 ≤ val.2.length then
      some ((val.2.take key.1, (val.2.drop key.1).take val.1), val.2.drop (key.1+val.1))
    else none

def leastSize (len : ℕ) : ℕ := if len > 127 then 4 else 1

def pairSize (p : Pair) : ℕ := leastSize p.1.length+leastSize p.2.length+p.1.length+p.2.length

theorem leastSize_le {s : List UInt8} {r : ℕ × List UInt8} (h : readLen s = some r) :
    r.2.length+leastSize r.1 ≤ s.length := by
  have hs := readLen_shorter h
  simp only [leastSize]
  split <;> omega

theorem readPair_size {s : List UInt8} {r : Pair × List UInt8} (h : readPair s = some r) :
    r.2.length+pairSize r.1 ≤ s.length := by
  obtain ⟨key,hk,h⟩ := Option.bind_eq_some_iff.mp h
  obtain ⟨val,hv,h⟩ := Option.bind_eq_some_iff.mp h
  simp only [Option.ite_none_right_eq_some, Option.some.injEq] at h
  obtain ⟨hl,rfl⟩ := h
  have hk := leastSize_le hk
  have hv := leastSize_le hv
  have h1 : (val.2.take key.1).length = key.1 := List.length_take_of_le (by omega)
  have h2 : ((val.2.drop key.1).take val.1).length = val.1 :=
    List.length_take_of_le (by rw [List.length_drop]; omega)
  simp only [pairSize, h1, h2, List.length_drop]
  omega

theorem pairSize_pos (p : Pair) : 0 < pairSize p := by
  simp only [pairSize, leastSize]
  split <;> omega

@[grind =] def readPairs : List UInt8 → Option (List Pair)
  | [] => some []
  | c::s =>
    match h : readPair (c::s) with
    | none => none
    | some r => (readPairs r.2).map (r.1::·)
termination_by s => s.length
decreasing_by
  have hs := readPair_size h
  have hp := pairSize_pos r.1
  omega

theorem readPairs_size (s : List UInt8) {ps : List Pair} (h : readPairs s = some ps) :
    (ps.map pairSize).sum ≤ s.length := by
  fun_induction readPairs s generalizing ps with
  | case1 =>
    obtain rfl := Option.some.inj h
    exact Nat.zero_le _
  | case2 => cases h
  | case3 c s r hr ih =>
    obtain ⟨rs,hrs,rfl⟩ := Option.map_eq_some_iff.mp h
    have hs := readPair_size hr
    have ih := ih hrs
    simp only [List.map_cons, List.sum_cons]
    omega

def readRequest (s : List UInt8) : Option (List Pair × List UInt8) :=
  (readRecords s).bind fun rs =>
  match rs with
  | [] => none
  | b::rs =>
    if b = ⟨1,[0,1,0,0,0,0,0,0]⟩ then
      (readStream 4 rs).bind fun params => (readPairs params.1).bind fun pairs =>
      (readStream 5 params.2).bind fun body =>
        if body.2 = [] then some (pairs, body.1) else none
    else none

end Nginx.FastcgiRecords
