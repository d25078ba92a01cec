import Mathlib

/-!
# Numbers in network byte order

A number below `256 ^ width` and the `width` bytes that stand for it, the highest first.
-/
namespace Mago.Library

/-- The lowest `width` bytes of a number, the highest of them first. -/
def toBigEndian : ℕ → ℕ → List UInt8
  | 0, _ => []
  | width + 1, value => .ofNat (value / 256 ^ width) :: toBigEndian width value

def ofBigEndian : List UInt8 → ℕ
  | [] => 0
  | byte :: bytes => byte.toNat * 256 ^ bytes.length + ofBigEndian bytes

@[simp] theorem length_toBigEndian (width value : ℕ) :
    (toBigEndian width value).length = width := by
  induction width with
  | zero => rfl
  | succ width ih => rw [toBigEndian, List.length_cons, ih]

theorem ofBigEndian_lt (bytes : List UInt8) : ofBigEndian bytes < 256 ^ bytes.length := by
  induction bytes with
  | nil => exact Nat.one_pos
  | cons byte bytes ih =>
    have hbyte : byte.toNat + 1 ≤ 256 := byte.toNat_lt
    have hmul := Nat.mul_le_mul_right (256 ^ bytes.length) hbyte
    rw [Nat.add_mul, Nat.one_mul] at hmul
    rw [ofBigEndian, List.length_cons, Nat.pow_succ']
    omega

theorem ofBigEndian_toBigEndian_mod (width value : ℕ) :
    ofBigEndian (toBigEndian width value) = value % 256 ^ width := by
  induction width with
  | zero => rw [Nat.pow_zero, Nat.mod_one]; rfl
  | succ width ih =>
    have hsplit : value % 256 ^ (width + 1) =
        value % 256 ^ width + 256 ^ width * (value / 256 ^ width % 256) := by
      rw [Nat.pow_succ, Nat.mod_mul]
    rw [toBigEndian, ofBigEndian, ih, length_toBigEndian, UInt8.toNat_ofNat', hsplit,
      Nat.add_comm, Nat.mul_comm]

theorem ofBigEndian_toBigEndian {width value : ℕ} (h : value < 256 ^ width) :
    ofBigEndian (toBigEndian width value) = value := by
  rw [ofBigEndian_toBigEndian_mod, Nat.mod_eq_of_lt h]

/-- Only the lowest bytes are written. -/
theorem toBigEndian_add_mul (width value k : ℕ) :
    toBigEndian width (k * 256 ^ width + value) = toBigEndian width value := by
  induction width generalizing k with
  | zero => rfl
  | succ width ih =>
    have hdiv : (k * 256 ^ (width + 1) + value) / 256 ^ width =
        k * 256 + value / 256 ^ width := by
      rw [Nat.pow_succ, Nat.mul_left_comm, Nat.mul_comm (256 ^ width),
        Nat.add_comm, Nat.add_mul_div_right _ _ (Nat.pow_pos (by omega)), Nat.add_comm]
    have hlow : toBigEndian width (k * 256 ^ (width + 1) + value) = toBigEndian width value := by
      rw [Nat.pow_succ, Nat.mul_comm (256 ^ width), ← Nat.mul_assoc]
      exact ih (k * 256)
    rw [toBigEndian, toBigEndian, hdiv, hlow]
    congr 1
    apply UInt8.toNat_inj.mp
    rw [UInt8.toNat_ofNat', UInt8.toNat_ofNat', Nat.mul_add_mod_self_right]

theorem toBigEndian_ofBigEndian (bytes : List UInt8) :
    toBigEndian bytes.length (ofBigEndian bytes) = bytes := by
  induction bytes with
  | nil => rfl
  | cons byte bytes ih =>
    have hdiv : (byte.toNat * 256 ^ bytes.length + ofBigEndian bytes) / 256 ^ bytes.length =
        byte.toNat := by
      rw [Nat.add_comm, Nat.add_mul_div_right _ _ (Nat.pow_pos (by omega)),
        Nat.div_eq_of_lt (ofBigEndian_lt bytes), Nat.zero_add]
    rw [List.length_cons, toBigEndian, ofBigEndian, hdiv, toBigEndian_add_mul, ih,
      UInt8.ofNat_toNat]

/-- A number and the bytes of a given width that stand for it. -/
theorem ofBigEndian_eq_iff {bytes : List UInt8} {width value : ℕ} (h : bytes.length = width) :
    ofBigEndian bytes = value ↔ value < 256 ^ width ∧ bytes = toBigEndian width value := by
  subst h
  constructor
  · intro heq
    subst heq
    exact ⟨ofBigEndian_lt bytes, (toBigEndian_ofBigEndian bytes).symm⟩
  · intro hvalue
    rw [hvalue.2, ofBigEndian_toBigEndian hvalue.1]

theorem uint16_ofBigEndian_eq_iff {bytes : List UInt8} (h : bytes.length = 2) {value : UInt16} :
    UInt16.ofNat (ofBigEndian bytes) = value ↔ bytes = toBigEndian 2 value.toNat := by
  have hlt := ofBigEndian_lt bytes
  rw [h] at hlt
  rw [← UInt16.toNat_inj, UInt16.toNat_ofNat_of_lt' hlt, ofBigEndian_eq_iff h]
  exact and_iff_right value.toNat_lt

theorem uint64_ofBigEndian_eq_iff {bytes : List UInt8} (h : bytes.length = 8) {value : UInt64} :
    UInt64.ofNat (ofBigEndian bytes) = value ↔ bytes = toBigEndian 8 value.toNat := by
  have hlt := ofBigEndian_lt bytes
  rw [h] at hlt
  rw [← UInt64.toNat_inj, UInt64.toNat_ofNat_of_lt' hlt, ofBigEndian_eq_iff h]
  exact and_iff_right value.toNat_lt

end Mago.Library
