import Mathlib.Data.FinEnum
import Mathlib.Tactic.Common

/-!
# Bytes of the request line

Characters are unsigned bytes. The table `usual` has a clear bit for every
byte that a URI scanner must look at on a system other than Win32.
-/

set_option autoImplicit false

namespace Nginx.UriBytes

@[simp] abbrev nul : UInt8 := 0
@[simp] abbrev lf : UInt8 := 10
@[simp] abbrev cr : UInt8 := 13
@[simp] abbrev space : UInt8 := 32
@[simp] abbrev hash : UInt8 := 35
@[simp] abbrev percent : UInt8 := 37
@[simp] abbrev plus : UInt8 := 43
@[simp] abbrev minus : UInt8 := 45
@[simp] abbrev dot : UInt8 := 46
@[simp] abbrev slash : UInt8 := 47
@[simp] abbrev colon : UInt8 := 58
@[simp] abbrev question : UInt8 := 63
@[simp] abbrev underscore : UInt8 := 95

def usualTable : List UInt32 :=
  [0xffffdbfe, 0x7fff37d6, 0xffffffff, 0xffffffff,
   0xffffffff, 0xffffffff, 0xffffffff, 0xffffffff]

def usual (ch : UInt8) : Bool :=
  (usualTable.getD (ch >>> 5).toNat 0 &&& (1 <<< (ch &&& 0x1f).toUInt32)) != 0

theorem usual_iff : ∀ ch : UInt8, usual ch = true ↔
    ch ∉ ([nul, lf, cr, space, hash, percent, plus, dot, slash, question] : List UInt8) := by
  decide +kernel

def isDigit (ch : UInt8) : Bool := 48 ≤ ch && ch ≤ 57

/-- The value of a hexadecimal digit, read the way both quoted states do:
a decimal digit first, then a letter with the case bit set. -/
def hexDigit (ch : UInt8) : Option UInt8 :=
  if isDigit ch then some (ch - 48)
  else if 97 ≤ (ch ||| 0x20) ∧ (ch ||| 0x20) ≤ 102 then some ((ch ||| 0x20) - 97 + 10)
  else none

theorem quoted_byte (hi lo : UInt8) (h16 : lo.toNat < 16) :
    ((hi <<< 4) + lo).toNat % 16 = lo.toNat := by
  simp only [UInt8.toNat_add, UInt8.toNat_shiftLeft, Nat.shiftLeft_eq]
  have h4 : (4 : UInt8).toNat % 8 = 4 := rfl
  rw [h4]
  omega

theorem digit_value : ∀ ch : UInt8, isDigit ch = true → (ch - 48).toNat < 10 := by
  intro ch h
  rw [isDigit, Bool.and_eq_true, decide_eq_true_iff, decide_eq_true_iff] at h
  have hle : 48 ≤ ch.toNat ∧ ch.toNat ≤ 57 := h
  rw [UInt8.toNat_sub_of_le _ _ h.1, show (48 : UInt8).toNat = 48 from rfl]
  omega

theorem letter_value : ∀ ch : UInt8, 97 ≤ (ch ||| 0x20) → (ch ||| 0x20) ≤ 102 →
    10 ≤ ((ch ||| 0x20) - 97 + 10).toNat ∧ ((ch ||| 0x20) - 97 + 10).toNat < 16 := by
  intro ch
  generalize (ch ||| 0x20) = x
  intro hl hr
  have hle : 97 ≤ x.toNat ∧ x.toNat ≤ 102 := ⟨hl,hr⟩
  rw [UInt8.toNat_add, UInt8.toNat_sub_of_le _ _ hl, show (97 : UInt8).toNat = 97 from rfl,
    show (10 : UInt8).toNat = 10 from rfl]
  omega

end Nginx.UriBytes
