import Mathlib

/-!
# Letters of ASCII

Bytes as letters and digits, and the change of case that leaves all other bytes alone. Two texts
are the same but for case where their lowercase is.
-/
namespace Mago.Library.Ascii

def isUppercase (b : UInt8) : Bool := 65 ≤ b && b ≤ 90

def toLowercase (b : UInt8) : UInt8 := if isUppercase b then b + 32 else b

def lower (bytes : List UInt8) : List UInt8 := bytes.map toLowercase

def eqIgnoreCase (s t : List UInt8) : Bool := lower s == lower t

def ofString (s : String) : List UInt8 := s.toList.map fun c => UInt8.ofNat c.toNat

theorem isUppercase_iff {b : UInt8} : isUppercase b = true ↔ 65 ≤ b.toNat ∧ b.toNat ≤ 90 := by
  simp [isUppercase, UInt8.le_iff_toNat_le]

theorem toNat_toLowercase {b : UInt8} (h : isUppercase b = true) :
    (toLowercase b).toNat = b.toNat + 32 := by
  have hrange := isUppercase_iff.mp h
  rw [toLowercase, if_pos h, UInt8.toNat_add]
  exact Nat.mod_eq_of_lt (by change b.toNat + 32 < 256; omega)

theorem toLowercase_of_not {b : UInt8} (h : isUppercase b = false) : toLowercase b = b := by
  rw [toLowercase, h]
  rfl

theorem eqIgnoreCase_iff {s t : List UInt8} : eqIgnoreCase s t = true ↔ lower s = lower t :=
  beq_iff_eq

end Mago.Library.Ascii
