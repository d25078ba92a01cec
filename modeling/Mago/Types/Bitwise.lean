import Mago.Library.Bits
import Mago.Types.Arithmetic
import Mathlib

/-!
# Bitwise operators on integer types

Conjunction, disjunction and exclusive disjunction of 64-bit integers. The upper bound of the
last two is the largest number as long as the longer operand.
-/
namespace Mago.Types

open Mago.Library

section Bits

variable {a b : ℤ} {m n : ℕ}

theorem inI64_natCast : InI64 (m : ℤ) ↔ m < 2 ^ 63 := by
  unfold InI64 i64Min i64Max
  omega

theorem inI64_negSucc : InI64 (Int.negSucc m) ↔ m < 2 ^ 63 := by
  unfold InI64 i64Min i64Max
  omega

theorem ldiff_le : Nat.ldiff m n ≤ m := by
  apply Nat.le_of_testBit
  intro i h
  rw [Nat.testBit_ldiff, Bool.and_eq_true] at h
  exact h.1

theorem inI64_land (ha : InI64 a) (hb : InI64 b) : InI64 (Int.land a b) := by
  cases a with
  | ofNat m =>
    have hm := inI64_natCast.mp ha
    cases b with
    | ofNat n => exact inI64_natCast.mpr (Nat.and_le_left.trans_lt hm)
    | negSucc n => exact inI64_natCast.mpr (ldiff_le.trans_lt hm)
  | negSucc m =>
    have hm := inI64_negSucc.mp ha
    cases b with
    | ofNat n => exact inI64_natCast.mpr (ldiff_le.trans_lt (inI64_natCast.mp hb))
    | negSucc n => exact inI64_negSucc.mpr (Nat.or_lt_two_pow hm (inI64_negSucc.mp hb))

theorem inI64_lor (ha : InI64 a) (hb : InI64 b) : InI64 (Int.lor a b) := by
  cases a with
  | ofNat m =>
    have hm := inI64_natCast.mp ha
    cases b with
    | ofNat n => exact inI64_natCast.mpr (Nat.or_lt_two_pow hm (inI64_natCast.mp hb))
    | negSucc n => exact inI64_negSucc.mpr (ldiff_le.trans_lt (inI64_negSucc.mp hb))
  | negSucc m =>
    have hm := inI64_negSucc.mp ha
    cases b with
    | ofNat n => exact inI64_negSucc.mpr (ldiff_le.trans_lt hm)
    | negSucc n => exact inI64_negSucc.mpr (Nat.and_le_left.trans_lt hm)

theorem inI64_xor (ha : InI64 a) (hb : InI64 b) : InI64 (Int.xor a b) := by
  cases a with
  | ofNat m =>
    have hm := inI64_natCast.mp ha
    cases b with
    | ofNat n => exact inI64_natCast.mpr (Nat.xor_lt_two_pow hm (inI64_natCast.mp hb))
    | negSucc n => exact inI64_negSucc.mpr (Nat.xor_lt_two_pow hm (inI64_negSucc.mp hb))
  | negSucc m =>
    have hm := inI64_negSucc.mp ha
    cases b with
    | ofNat n => exact inI64_negSucc.mpr (Nat.xor_lt_two_pow hm (inI64_natCast.mp hb))
    | negSucc n => exact inI64_natCast.mpr (Nat.xor_lt_two_pow hm (inI64_negSucc.mp hb))

/-- A conjunction with a nonnegative number is nonnegative and at most that number. -/
theorem land_le_left (ha : 0 ≤ a) : 0 ≤ Int.land a b ∧ Int.land a b ≤ a := by
  obtain ⟨m, rfl⟩ := Int.eq_ofNat_of_zero_le ha
  cases b with
  | ofNat n => exact ⟨Int.natCast_nonneg _, Int.ofNat_le.mpr Nat.and_le_left⟩
  | negSucc n => exact ⟨Int.natCast_nonneg _, Int.ofNat_le.mpr ldiff_le⟩

theorem land_comm : Int.land a b = Int.land b a := by
  cases a <;> cases b <;> simp [Int.land, Nat.land_comm, Nat.lor_comm]

/-- All bits below the most significant one are set. -/
def bitSmear (v : ℤ) : ℤ :=
  let v := Int.lor v (v >>> (1 : ℕ))
  let v := Int.lor v (v >>> (2 : ℕ))
  let v := Int.lor v (v >>> (4 : ℕ))
  let v := Int.lor v (v >>> (8 : ℕ))
  let v := Int.lor v (v >>> (16 : ℕ))
  Int.lor v (v >>> (32 : ℕ))

/-- On the natural numbers that is smearing over 64 places. -/
theorem bitSmear_natCast : ∃ v : ℕ, bitSmear (n : ℤ) = v ∧ Smeared 64 n v :=
  ⟨_, rfl, smeared_one.double.double.double.double.double.double⟩

theorem lor_le_bitSmear {c : ℤ} (ha : 0 ≤ a) (hb : 0 ≤ b) (hac : a ≤ c) (hbc : b ≤ c)
    (hc : InI64 c) : Int.lor a b ≤ bitSmear c ∧ Int.xor a b ≤ bitSmear c := by
  obtain ⟨m, rfl⟩ := Int.eq_ofNat_of_zero_le ha
  obtain ⟨n, rfl⟩ := Int.eq_ofNat_of_zero_le hb
  obtain ⟨k, rfl⟩ := Int.eq_ofNat_of_zero_le (ha.trans hac)
  obtain ⟨v, hv, hs⟩ := bitSmear_natCast (n := k)
  rw [hv]
  have hk : k < 2 ^ 64 := (inI64_natCast.mp hc).trans (by decide)
  have hac := Int.ofNat_le.mp hac
  have hbc := Int.ofNat_le.mp hbc
  exact ⟨Int.ofNat_le.mpr (hs.or_le hk hac hbc), Int.ofNat_le.mpr (hs.xor_le hk hac hbc)⟩

theorem inI64_bitSmear (ha : 0 ≤ a) (h : InI64 a) : InI64 (bitSmear a) := by
  obtain ⟨m, rfl⟩ := Int.eq_ofNat_of_zero_le ha
  obtain ⟨v, hv, hs⟩ := bitSmear_natCast (n := m)
  rw [hv]
  exact inI64_natCast.mpr (hs.lt_two_pow (inI64_natCast.mp h))

theorem max_le_lor (ha : 0 ≤ a) (hb : 0 ≤ b) : a ≤ Int.lor a b ∧ b ≤ Int.lor a b := by
  obtain ⟨m, rfl⟩ := Int.eq_ofNat_of_zero_le ha
  obtain ⟨n, rfl⟩ := Int.eq_ofNat_of_zero_le hb
  exact ⟨Int.ofNat_le.mpr Nat.left_le_or, Int.ofNat_le.mpr Nat.right_le_or⟩

theorem xor_nonneg (ha : 0 ≤ a) (hb : 0 ≤ b) : 0 ≤ Int.xor a b := by
  obtain ⟨m, rfl⟩ := Int.eq_ofNat_of_zero_le ha
  obtain ⟨n, rfl⟩ := Int.eq_ofNat_of_zero_le hb
  exact Int.natCast_nonneg _

end Bits

namespace TInteger

/-- The smallest integer of the type is known and not negative. -/
def minNonNeg (i : TInteger) : Bool := i.getMinimumValue.any fun v => 0 ≤ v

/-- The smaller of the upper ends that there are. -/
def smallerMaximum (l r : TInteger) : Option ℤ :=
  match l.getMaximumValue, r.getMaximumValue with
  | some a, some b => some (min a b)
  | some v, none | none, some v => some v
  | none, none => none

/-- The larger of the lower ends that there are. -/
def largerMinimum (l r : TInteger) : Option ℤ :=
  match l.getMinimumValue, r.getMinimumValue with
  | some a, some b => some (max a b)
  | some v, none | none, some v => some v
  | none, none => some 0

/-- A conjunction with a nonnegative integer stays below it. -/
def bitandBounds (l r : TInteger) : TInteger :=
  match l.minNonNeg, r.minNonNeg with
  | false, false => unspecified
  | true, true => fromBounds (some 0) (smallerMaximum l r)
  | true, false => fromBounds (some 0) l.getMaximumValue
  | false, true => fromBounds (some 0) r.getMaximumValue

def bitand (self rhs : TInteger) : TInteger :=
  match self, rhs with
  | literal l, literal r => literal (Int.land l r)
  | unspecifiedLiteral, unspecifiedLiteral | literal _, unspecifiedLiteral
  | unspecifiedLiteral, literal _ => unspecifiedLiteral
  | l, r => bitandBounds l r

def smearedUpper (l r : TInteger) : Option ℤ :=
  match l.getMaximumValue, r.getMaximumValue with
  | some a, some b => some (bitSmear (max a b))
  | _, _ => none

def bitorBounds (l r : TInteger) : TInteger :=
  if !(l.minNonNeg && r.minNonNeg) then unspecified
  else fromBounds (largerMinimum l r) (smearedUpper l r)

def bitor (self rhs : TInteger) : TInteger :=
  match self, rhs with
  | literal l, literal r => literal (Int.lor l r)
  | unspecifiedLiteral, unspecifiedLiteral | literal _, unspecifiedLiteral
  | unspecifiedLiteral, literal _ => unspecifiedLiteral
  | l, r => bitorBounds l r

def bitxorBounds (l r : TInteger) : TInteger :=
  if !(l.minNonNeg && r.minNonNeg) then unspecified
  else fromBounds (some 0) (smearedUpper l r)

def bitxor (self rhs : TInteger) : TInteger :=
  match self, rhs with
  | literal l, literal r => literal (Int.xor l r)
  | literal 0, other | other, literal 0 => other
  | unspecifiedLiteral, unspecifiedLiteral | literal _, unspecifiedLiteral
  | unspecifiedLiteral, literal _ => unspecifiedLiteral
  | l, r => bitxorBounds l r

section Sound

variable {x y : TInteger} {a b : ℤ}

theorem nonneg_of_minNonNeg (h : x.minNonNeg = true) (ha : x.Has a) : 0 ≤ a := by
  cases x <;> simp_all [minNonNeg, getMinimumValue] <;> omega

theorem getMinimumValue_le (ha : x.Has a) : ∀ v ∈ x.getMinimumValue, v ≤ a := by
  cases x <;> simp_all [getMinimumValue]

theorem le_getMaximumValue (ha : x.Has a) : ∀ v ∈ x.getMaximumValue, a ≤ v := by
  cases x <;> simp_all [getMaximumValue]

/-- A nonnegative type has a nonnegative upper end, if any, and both are 64-bit integers. -/
theorem bounds_of_minNonNeg (hx : x.WellFormed) (h : x.minNonNeg = true) :
    (∃ v, x.getMinimumValue = some v ∧ 0 ≤ v ∧ InI64 v ∧ x.Has v) ∧
      ∀ v ∈ x.getMaximumValue, 0 ≤ v ∧ InI64 v := by
  cases x <;> simp_all [minNonNeg, getMinimumValue, getMaximumValue]
  omega

theorem wellFormed_fromBounds {lower upper : Option ℤ} (hl : ∀ v ∈ lower, InI64 v)
    (hu : ∀ v ∈ upper, InI64 v) : (fromBounds lower upper).WellFormed := by
  cases lower <;> cases upper <;> simp_all [fromBounds]
  split_ifs <;> simp_all
  omega

theorem smallerMaximum_mem :
    ∀ v ∈ smallerMaximum x y, v ∈ x.getMaximumValue ∨ v ∈ y.getMaximumValue := by
  intro v hv
  unfold smallerMaximum at hv
  cases hx : x.getMaximumValue <;> cases hy : y.getMaximumValue <;> simp_all
  rcases min_choice (_ : ℤ) _ with h | h <;> rw [h] at hv
  · exact Or.inl hv
  · exact Or.inr hv

theorem le_smallerMaximum (hx : ∀ v ∈ x.getMaximumValue, a ≤ v)
    (hy : ∀ v ∈ y.getMaximumValue, a ≤ v) : ∀ v ∈ smallerMaximum x y, a ≤ v := by
  intro v hv
  exact (smallerMaximum_mem v hv).elim (hx v) (hy v)

theorem bitandBounds_sound (hx : x.WellFormed) (hy : y.WellFormed) :
    (bitandBounds x y).WellFormed ∧
      ∀ a b, x.Has a → y.Has b → (bitandBounds x y).Has (Int.land a b) := by
  unfold bitandBounds
  split
  · exact ⟨trivial, fun _ _ _ _ => trivial⟩
  · rename_i hl hr
    obtain ⟨_, hux⟩ := bounds_of_minNonNeg hx hl
    obtain ⟨_, huy⟩ := bounds_of_minNonNeg hy hr
    refine ⟨wellFormed_fromBounds (by simp; decide) ?_, ?_⟩
    · intro v hv
      rcases smallerMaximum_mem v hv with hv | hv
      · exact (hux v hv).2
      · exact (huy v hv).2
    · intro a b ha hb
      have hleft := land_le_left (b := b) (nonneg_of_minNonNeg hl ha)
      have hright := land_le_left (b := a) (nonneg_of_minNonNeg hr hb)
      rw [land_comm] at hright
      refine has_fromBounds (by simpa using hleft.1) (le_smallerMaximum ?_ ?_)
      · exact fun v hv => hleft.2.trans (le_getMaximumValue ha v hv)
      · exact fun v hv => hright.2.trans (le_getMaximumValue hb v hv)
  · rename_i hl hr
    obtain ⟨_, hux⟩ := bounds_of_minNonNeg hx hl
    refine ⟨wellFormed_fromBounds (by simp; decide) fun v hv => (hux v hv).2, ?_⟩
    intro a b ha hb
    have hland := land_le_left (b := b) (nonneg_of_minNonNeg hl ha)
    refine has_fromBounds (by simpa using hland.1) fun u hu => ?_
    exact hland.2.trans (le_getMaximumValue ha u hu)
  · rename_i hl hr
    obtain ⟨_, huy⟩ := bounds_of_minNonNeg hy hr
    refine ⟨wellFormed_fromBounds (by simp; decide) fun v hv => (huy v hv).2, ?_⟩
    intro a b ha hb
    have hland := land_le_left (b := a) (nonneg_of_minNonNeg hr hb)
    rw [land_comm] at hland
    refine has_fromBounds (by simpa using hland.1) fun u hu => ?_
    exact hland.2.trans (le_getMaximumValue hb u hu)

theorem bitand_cases (x y : TInteger) :
    (∃ l r, x = literal l ∧ y = literal r ∧ bitand x y = literal (Int.land l r)) ∨
      bitand x y = unspecifiedLiteral ∨ bitand x y = bitandBounds x y := by
  cases x <;> cases y <;> simp [bitand]

theorem bitand_sound (hx : x.WellFormed) (hy : y.WellFormed) :
    (bitand x y).WellFormed ∧ ∀ a b, x.Has a → y.Has b → (bitand x y).Has (Int.land a b) := by
  rcases bitand_cases x y with ⟨l, r, rfl, rfl, h⟩ | h | h
  · rw [h]
    refine ⟨inI64_land hx hy, fun a b ha hb => ?_⟩
    rw [has_literal] at ha hb ⊢
    rw [ha, hb]
  · rw [h]
    exact ⟨trivial, fun _ _ _ _ => trivial⟩
  · rw [h]
    exact bitandBounds_sound hx hy

theorem smearedUpper_mem : ∀ u ∈ smearedUpper x y, ∃ a b, x.getMaximumValue = some a ∧
    y.getMaximumValue = some b ∧ u = bitSmear (max a b) := by
  intro u hu
  unfold smearedUpper at hu
  split at hu
  · rename_i a b ha hb
    exact ⟨a, b, ha, hb, (Option.mem_some.mp hu).symm⟩
  · cases hu

/-- Disjunctions of nonnegative integers stay below the smeared upper end. -/
theorem le_smearedUpper (hx : x.WellFormed) (hy : y.WellFormed) (hl : x.minNonNeg = true)
    (hr : y.minNonNeg = true) (ha : x.Has a) (hb : y.Has b) :
    ∀ u ∈ smearedUpper x y, Int.lor a b ≤ u ∧ Int.xor a b ≤ u := by
  intro u hu
  obtain ⟨c, d, hc, hd, rfl⟩ := smearedUpper_mem u hu
  have hcx := (bounds_of_minNonNeg hx hl).2 c hc
  have hdy := (bounds_of_minNonNeg hy hr).2 d hd
  refine lor_le_bitSmear (nonneg_of_minNonNeg hl ha) (nonneg_of_minNonNeg hr hb) ?_ ?_ ?_
  · exact (le_getMaximumValue ha c hc).trans (le_max_left _ _)
  · exact (le_getMaximumValue hb d hd).trans (le_max_right _ _)
  · exact max_rec' InI64 hcx.2 hdy.2

theorem inI64_smearedUpper (hx : x.WellFormed) (hy : y.WellFormed) (hl : x.minNonNeg = true)
    (hr : y.minNonNeg = true) : ∀ u ∈ smearedUpper x y, InI64 u := by
  intro u hu
  obtain ⟨c, d, hc, hd, rfl⟩ := smearedUpper_mem u hu
  have hcx := (bounds_of_minNonNeg hx hl).2 c hc
  have hdy := (bounds_of_minNonNeg hy hr).2 d hd
  exact inI64_bitSmear (hcx.1.trans (le_max_left _ _)) (max_rec' InI64 hcx.2 hdy.2)

theorem bitorBounds_sound (hx : x.WellFormed) (hy : y.WellFormed) :
    (bitorBounds x y).WellFormed ∧
      ∀ a b, x.Has a → y.Has b → (bitorBounds x y).Has (Int.lor a b) := by
  unfold bitorBounds
  split
  · exact ⟨trivial, fun _ _ _ _ => trivial⟩
  rename_i h
  simp only [Bool.not_eq_true', Bool.not_eq_false, Bool.and_eq_true] at h
  obtain ⟨hl, hr⟩ := h
  obtain ⟨⟨c, hc, _, hc64, _⟩, _⟩ := bounds_of_minNonNeg hx hl
  obtain ⟨⟨d, hd, _, hd64, _⟩, _⟩ := bounds_of_minNonNeg hy hr
  have hmin : largerMinimum x y = some (max c d) := by
    rw [largerMinimum, hc, hd]
  rw [hmin]
  refine ⟨wellFormed_fromBounds ?_ (inI64_smearedUpper hx hy hl hr), ?_⟩
  · intro v hv
    rw [← Option.mem_some.mp hv]
    exact max_rec' InI64 hc64 hd64
  · intro a b ha hb
    have hlor := max_le_lor (nonneg_of_minNonNeg hl ha) (nonneg_of_minNonNeg hr hb)
    refine has_fromBounds ?_ fun u hu => (le_smearedUpper hx hy hl hr ha hb u hu).1
    intro v hv
    rw [← Option.mem_some.mp hv]
    apply max_le
    · exact (getMinimumValue_le ha c hc).trans hlor.1
    · exact (getMinimumValue_le hb d hd).trans hlor.2

theorem bitxorBounds_sound (hx : x.WellFormed) (hy : y.WellFormed) :
    (bitxorBounds x y).WellFormed ∧
      ∀ a b, x.Has a → y.Has b → (bitxorBounds x y).Has (Int.xor a b) := by
  unfold bitxorBounds
  split
  · exact ⟨trivial, fun _ _ _ _ => trivial⟩
  rename_i h
  simp only [Bool.not_eq_true', Bool.not_eq_false, Bool.and_eq_true] at h
  obtain ⟨hl, hr⟩ := h
  refine ⟨wellFormed_fromBounds (by simp; decide) (inI64_smearedUpper hx hy hl hr), ?_⟩
  intro a b ha hb
  have hxor := xor_nonneg (nonneg_of_minNonNeg hl ha) (nonneg_of_minNonNeg hr hb)
  refine has_fromBounds (by simpa using hxor) fun u hu => ?_
  exact (le_smearedUpper hx hy hl hr ha hb u hu).2

theorem bitor_cases (x y : TInteger) :
    (∃ l r, x = literal l ∧ y = literal r ∧ bitor x y = literal (Int.lor l r)) ∨
      bitor x y = unspecifiedLiteral ∨ bitor x y = bitorBounds x y := by
  cases x <;> cases y <;> simp [bitor]

theorem bitor_sound (hx : x.WellFormed) (hy : y.WellFormed) :
    (bitor x y).WellFormed ∧ ∀ a b, x.Has a → y.Has b → (bitor x y).Has (Int.lor a b) := by
  rcases bitor_cases x y with ⟨l, r, rfl, rfl, h⟩ | h | h
  · rw [h]
    refine ⟨inI64_lor hx hy, fun a b ha hb => ?_⟩
    rw [has_literal] at ha hb ⊢
    rw [ha, hb]
  · rw [h]
    exact ⟨trivial, fun _ _ _ _ => trivial⟩
  · rw [h]
    exact bitorBounds_sound hx hy

/-- Zero on either side gives the other type. -/
theorem bitxor_cases (x y : TInteger) :
    (∃ l r, x = literal l ∧ y = literal r ∧ bitxor x y = literal (Int.xor l r)) ∨
      (x = literal 0 ∧ bitxor x y = y) ∨ (y = literal 0 ∧ bitxor x y = x) ∨
      bitxor x y = unspecifiedLiteral ∨ bitxor x y = bitxorBounds x y := by
  cases x <;> cases y <;> simp [bitxor] <;> split <;> simp_all

theorem zero_xor : Int.xor 0 a = a := by
  cases a <;> simp [Int.xor]

theorem xor_zero : Int.xor a 0 = a := by
  cases a <;> simp [Int.xor]

theorem bitxor_sound (hx : x.WellFormed) (hy : y.WellFormed) :
    (bitxor x y).WellFormed ∧ ∀ a b, x.Has a → y.Has b → (bitxor x y).Has (Int.xor a b) := by
  rcases bitxor_cases x y with ⟨l, r, rfl, rfl, h⟩ | ⟨rfl, h⟩ | ⟨rfl, h⟩ | h | h
  · rw [h]
    refine ⟨inI64_xor hx hy, fun a b ha hb => ?_⟩
    rw [has_literal] at ha hb ⊢
    rw [ha, hb]
  · rw [h]
    refine ⟨hy, fun a b ha hb => ?_⟩
    rw [has_literal] at ha
    rwa [ha, zero_xor]
  · rw [h]
    refine ⟨hx, fun a b ha hb => ?_⟩
    rw [has_literal] at hb
    rwa [hb, xor_zero]
  · rw [h]
    exact ⟨trivial, fun _ _ _ _ => trivial⟩
  · rw [h]
    exact bitxorBounds_sound hx hy

/-- The bitwise results of 64-bit integers are of the computed types, which are well formed. -/
theorem bitwise_sound (hx : x.WellFormed) (hy : y.WellFormed) :
    ((bitand x y).WellFormed ∧ (bitor x y).WellFormed ∧ (bitxor x y).WellFormed) ∧
      ∀ a b, InI64 a → InI64 b → x.Has a → y.Has b →
        (bitand x y).Has (Int.land a b) ∧ (bitor x y).Has (Int.lor a b) ∧
          (bitxor x y).Has (Int.xor a b) := by
  obtain ⟨hand, hand'⟩ := bitand_sound hx hy
  obtain ⟨hor, hor'⟩ := bitor_sound hx hy
  obtain ⟨hxor, hxor'⟩ := bitxor_sound hx hy
  refine ⟨⟨hand, hor, hxor⟩, fun a b _ _ ha hb => ?_⟩
  exact ⟨hand' a b ha hb, hor' a b ha hb, hxor' a b ha hb⟩

theorem bitwise_sound_ranges :
    let x := range 5 12
    let y := range 0 3
    ((bitand x y).WellFormed ∧ (bitor x y).WellFormed ∧ (bitxor x y).WellFormed) ∧
      ∀ a b, InI64 a → InI64 b → x.Has a → y.Has b →
        (bitand x y).Has (Int.land a b) ∧ (bitor x y).Has (Int.lor a b) ∧
          (bitxor x y).Has (Int.xor a b) :=
  bitwise_sound (by decide) (by decide)

end Sound

end TInteger

end Mago.Types
