import Mathlib

/-!
# Smeared bits

Repeated shifting by doubled distances copies every bit of a number into all lower places. The
result is the least bound by bits of all numbers that are no longer than the given one.
-/
namespace Mago.Library

variable {w k n v m a b : ℕ}

/-- A place is set where the number has a bit at most `w - 1` places above. -/
def Smeared (w n v : ℕ) : Prop :=
  ∀ i, v.testBit i = true ↔ ∃ j < w, n.testBit (i + j) = true

theorem smeared_one : Smeared 1 n n := by
  intro i
  constructor
  · intro h
    exact ⟨0, by omega, h⟩
  · intro h
    obtain ⟨j, hj, h⟩ := h
    rwa [show j = 0 by omega] at h

theorem Smeared.double (h : Smeared w n v) : Smeared (w + w) n (v ||| v >>> w) := by
  intro i
  rw [Nat.testBit_or, Nat.testBit_shiftRight, Bool.or_eq_true, h, h]
  constructor
  · intro hbit
    rcases hbit with ⟨j, hj, hbit⟩ | ⟨j, hj, hbit⟩
    · exact ⟨j, by omega, hbit⟩
    · refine ⟨w + j, by omega, ?_⟩
      rwa [show i + (w + j) = w + i + j by omega]
  · intro hbit
    obtain ⟨j, hj, hbit⟩ := hbit
    by_cases hlow : j < w
    · exact Or.inl ⟨j, hlow, hbit⟩
    · refine Or.inr ⟨j - w, by omega, ?_⟩
      rwa [show w + i + (j - w) = i + j by omega]

/-- Smearing does not lengthen. -/
theorem Smeared.lt_two_pow (h : Smeared w n v) (hn : n < 2 ^ k) : v < 2 ^ k := by
  apply Nat.lt_pow_two_of_testBit
  intro i hi
  rw [Bool.eq_false_iff]
  intro hbit
  obtain ⟨j, _, hbit⟩ := (h i).mp hbit
  have hge := Nat.ge_two_pow_of_testBit hbit
  have hpow : 2 ^ k ≤ 2 ^ (i + j) := Nat.pow_le_pow_right (by omega) (by omega)
  omega

/-- A number that is not longer than the smeared one is not above it. -/
theorem Smeared.le (h : Smeared w n v) (hn : n < 2 ^ w) (hm : ∀ k, n < 2 ^ k → m < 2 ^ k) :
    m ≤ v := by
  apply Nat.le_of_testBit
  intro i hbit
  have hlong : n ≥ 2 ^ i := by
    by_contra hshort
    have hlt := hm i (by omega)
    have hge := Nat.ge_two_pow_of_testBit hbit
    omega
  obtain ⟨p, hp, hbit⟩ := Nat.exists_ge_and_testBit_of_ge_two_pow hlong
  have hpw : p < w := by
    have hge := Nat.ge_two_pow_of_testBit hbit
    exact (Nat.pow_lt_pow_iff_right (by omega)).mp (hge.trans_lt hn)
  refine (h i).mpr ⟨p - i, by omega, ?_⟩
  rwa [show i + (p - i) = p by omega]

theorem Smeared.or_le (h : Smeared w n v) (hn : n < 2 ^ w) (ha : a ≤ n) (hb : b ≤ n) :
    a ||| b ≤ v :=
  h.le hn fun _ hk => Nat.or_lt_two_pow (ha.trans_lt hk) (hb.trans_lt hk)

theorem Smeared.xor_le (h : Smeared w n v) (hn : n < 2 ^ w) (ha : a ≤ n) (hb : b ≤ n) :
    a ^^^ b ≤ v :=
  h.le hn fun _ hk => Nat.xor_lt_two_pow (ha.trans_lt hk) (hb.trans_lt hk)

end Mago.Library
