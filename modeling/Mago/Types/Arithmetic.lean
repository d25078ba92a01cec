import Mago.Library.Corners
import Mago.Types.IntegerExact
import Mathlib

/-!
# Arithmetic on integer types

Sum, difference, product and negation saturate at the ends of the 64-bit integers; a result
that the 64-bit integers hold is one of the type that the operator computes.
-/
namespace Mago.Types

open Mago.Library

def saturatingMul (a b : ℤ) : ℤ := max i64Min (min i64Max (a * b))

def saturatingNeg (a : ℤ) : ℤ := max i64Min (min i64Max (-a))

section Saturating

variable {a b c n : ℤ}

theorem inI64_saturatingAdd : InI64 (saturatingAdd a b) := by
  unfold InI64 saturatingAdd i64Min i64Max
  omega

theorem inI64_saturatingSub : InI64 (saturatingSub a b) := by
  unfold InI64 saturatingSub i64Min i64Max
  omega

theorem inI64_saturatingNeg : InI64 (saturatingNeg a) := by
  unfold InI64 saturatingNeg i64Min i64Max
  omega

theorem inI64_saturatingMul : InI64 (saturatingMul a b) := by
  unfold InI64 saturatingMul i64Min i64Max
  omega

theorem saturatingMul_eq (h : InI64 (a * b)) : saturatingMul a b = a * b := by
  obtain ⟨hmin, hmax⟩ := h
  rw [saturatingMul, min_eq_right hmax, max_eq_right hmin]

theorem saturatingMul_mono {a' b' : ℤ} (h : a * b ≤ a' * b') :
    saturatingMul a b ≤ saturatingMul a' b' :=
  max_le_max le_rfl (min_le_min le_rfl h)

theorem oneWay_saturatingMul_left {l u : ℤ} : OneWay (fun x => saturatingMul x b) l u := by
  rcases le_total 0 b with hb | hb
  · refine Or.inl fun x _ y _ hxy => ?_
    exact saturatingMul_mono (mul_le_mul_of_nonneg_right hxy hb)
  · refine Or.inr fun x _ y _ hxy => ?_
    exact saturatingMul_mono (mul_le_mul_of_nonpos_right hxy hb)

theorem oneWay_saturatingMul_right {l u : ℤ} : OneWay (saturatingMul a) l u := by
  rcases le_total 0 a with ha | ha
  · refine Or.inl fun x _ y _ hxy => ?_
    exact saturatingMul_mono (mul_le_mul_of_nonneg_left hxy ha)
  · refine Or.inr fun x _ y _ hxy => ?_
    exact saturatingMul_mono (mul_le_mul_of_nonpos_left hxy ha)

/-- A saturated bound still bounds what the 64-bit integers hold. -/
theorem saturatingMul_le (hn : InI64 n) (h : a * b ≤ n) : saturatingMul a b ≤ n :=
  max_le hn.1 ((min_le_right _ _).trans h)

theorem le_saturatingMul (hn : InI64 n) (h : n ≤ a * b) : n ≤ saturatingMul a b :=
  (le_min hn.2 h).trans (le_max_right _ _)

end Saturating

namespace TInteger

def getMinimumValue : TInteger → Option ℤ
  | literal value => some value
  | fromValue value => some value
  | range value _ => some value
  | _ => none

def getMaximumValue : TInteger → Option ℤ
  | literal value => some value
  | toValue value => some value
  | range _ value => some value
  | _ => none

def canBeZero : TInteger → Bool
  | unspecified => true
  | literal value => value = 0
  | fromValue f => f ≤ 0
  | toValue t => 0 ≤ t
  | range f t => f ≤ 0 && 0 ≤ t
  | unspecifiedLiteral => false

def add (self other : TInteger) : TInteger :=
  match self, other with
  | unspecified, _ | _, unspecified => unspecified
  | unspecifiedLiteral, unspecifiedLiteral | literal _, unspecifiedLiteral
  | unspecifiedLiteral, literal _ => unspecifiedLiteral
  | unspecifiedLiteral, _ | _, unspecifiedLiteral => unspecified
  | literal l₁, literal l₂ => literal (saturatingAdd l₁ l₂)
  | literal l, fromValue f | fromValue f, literal l => fromValue (saturatingAdd l f)
  | literal l, toValue t | toValue t, literal l => toValue (saturatingAdd l t)
  | literal l, range f t | range f t, literal l =>
    range (saturatingAdd l f) (saturatingAdd l t)
  | fromValue f₁, fromValue f₂ => fromValue (saturatingAdd f₁ f₂)
  | toValue t₁, toValue t₂ => toValue (saturatingAdd t₁ t₂)
  | range f₁ t₁, range f₂ t₂ => range (saturatingAdd f₁ f₂) (saturatingAdd t₁ t₂)
  | range f₁ _, fromValue f₂ | fromValue f₂, range f₁ _ => fromValue (saturatingAdd f₁ f₂)
  | range _ t₁, toValue t₂ | toValue t₂, range _ t₁ => toValue (saturatingAdd t₁ t₂)
  | _, _ => unspecified

instance : Add TInteger := ⟨add⟩

def sub (self other : TInteger) : TInteger :=
  match self, other with
  | unspecified, _ | _, unspecified => unspecified
  | unspecifiedLiteral, unspecifiedLiteral | literal _, unspecifiedLiteral
  | unspecifiedLiteral, literal _ => unspecifiedLiteral
  | unspecifiedLiteral, _ | _, unspecifiedLiteral => unspecified
  | literal l₁, literal l₂ => literal (saturatingSub l₁ l₂)
  | fromValue f, literal l => fromValue (saturatingSub f l)
  | literal l, fromValue f => toValue (saturatingSub l f)
  | literal l, toValue t => fromValue (saturatingSub l t)
  | fromValue _, fromValue _ | fromValue _, toValue _ | toValue _, fromValue _
  | toValue _, toValue _ => unspecified
  | range _ t₁, fromValue f₂ => toValue (saturatingSub t₁ f₂)
  | range f₁ _, toValue t₂ => fromValue (saturatingSub f₁ t₂)
  | toValue t, literal l => toValue (saturatingSub t l)
  | literal l, range f t => range (saturatingSub l t) (saturatingSub l f)
  | range f t, literal l => range (saturatingSub f l) (saturatingSub t l)
  | range f₁ t₁, range f₂ t₂ => range (saturatingSub f₁ t₂) (saturatingSub t₁ f₂)
  | _, _ => unspecified

instance : Sub TInteger := ⟨sub⟩

/-- The product of a literal and what the ends of the other type are multiplied to. -/
def mulLiteral (l : ℤ) : TInteger → TInteger
  | fromValue f =>
    if 0 < l then fromValue (saturatingMul l f)
    else if l < 0 then toValue (saturatingMul l f)
    else literal 0
  | toValue t =>
    if 0 < l then toValue (saturatingMul l t)
    else if l < 0 then fromValue (saturatingMul l t)
    else literal 0
  | range f t =>
    if 0 < l then range (saturatingMul l f) (saturatingMul l t)
    else if l < 0 then range (saturatingMul l t) (saturatingMul l f)
    else literal 0
  | _ => unspecified

def mul (self other : TInteger) : TInteger :=
  match self, other with
  | unspecified, _ | _, unspecified => unspecified
  | unspecifiedLiteral, unspecifiedLiteral | literal _, unspecifiedLiteral
  | unspecifiedLiteral, literal _ => unspecifiedLiteral
  | unspecifiedLiteral, _ | _, unspecifiedLiteral => unspecified
  | literal l₁, literal l₂ => literal (saturatingMul l₁ l₂)
  | literal 0, _ | _, literal 0 => literal 0
  | literal l, other | other, literal l => mulLiteral l other
  | fromValue f₁, fromValue f₂ =>
    if 0 ≤ f₁ ∧ 0 ≤ f₂ then fromValue (saturatingMul f₁ f₂) else unspecified
  | range f₁ t₁, range f₂ t₂ =>
    range (lowest saturatingMul f₁ t₁ f₂ t₂) (highest saturatingMul f₁ t₁ f₂ t₂)
  | _, _ => unspecified

instance : Mul TInteger := ⟨mul⟩

def neg : TInteger → TInteger
  | literal a => literal (saturatingNeg a)
  | fromValue a => toValue (saturatingNeg a)
  | toValue a => fromValue (saturatingNeg a)
  | range min max => range (saturatingNeg max) (saturatingNeg min)
  | unspecified => unspecified
  | unspecifiedLiteral => unspecifiedLiteral

instance : Neg TInteger := ⟨neg⟩

section Sound

variable {x y : TInteger} {a b : ℤ}

theorem wellFormed_add (hx : x.WellFormed) (hy : y.WellFormed) : (x + y).WellFormed := by
  change (add x y).WellFormed
  cases x <;> cases y <;> simp [add, inI64_saturatingAdd] at hx hy ⊢ <;>
    simp only [saturatingAdd] <;> omega

theorem has_add (hx : x.Has a) (hy : y.Has b) (h : InI64 (a + b)) : (x + y).Has (a + b) := by
  obtain ⟨hmin, hmax⟩ := h
  change (add x y).Has (a + b)
  cases x <;> cases y <;> simp [add, saturatingAdd] at hx hy ⊢ <;> omega

theorem wellFormed_sub (hx : x.WellFormed) (hy : y.WellFormed) : (x - y).WellFormed := by
  change (sub x y).WellFormed
  cases x <;> cases y <;> simp [sub, inI64_saturatingSub] at hx hy ⊢ <;>
    simp only [saturatingSub] <;> omega

theorem has_sub (hx : x.Has a) (hy : y.Has b) (h : InI64 (a - b)) : (x - y).Has (a - b) := by
  obtain ⟨hmin, hmax⟩ := h
  change (sub x y).Has (a - b)
  cases x <;> cases y <;> simp [sub, saturatingSub] at hx hy ⊢ <;> omega

theorem wellFormed_neg (hx : x.WellFormed) : (-x).WellFormed := by
  change (neg x).WellFormed
  cases x <;> simp [neg, inI64_saturatingNeg] at hx ⊢
  simp only [saturatingNeg]
  omega

theorem has_neg (hx : x.Has a) (h : InI64 (-a)) : (-x).Has (-a) := by
  obtain ⟨hmin, hmax⟩ := h
  change (neg x).Has (-a)
  cases x <;> simp [neg, saturatingNeg] at hx ⊢ <;> omega

theorem wellFormed_mulLiteral {l : ℤ} (hx : x.WellFormed) : (mulLiteral l x).WellFormed := by
  cases x with
  | range f t =>
    have hft := hx.2.1
    simp only [mulLiteral]
    split_ifs with hpos hneg
    · refine ⟨inI64_saturatingMul, saturatingMul_mono ?_, inI64_saturatingMul⟩
      exact mul_le_mul_of_nonneg_left hft hpos.le
    · refine ⟨inI64_saturatingMul, saturatingMul_mono ?_, inI64_saturatingMul⟩
      exact mul_le_mul_of_nonpos_left hft hneg.le
    · decide
  | fromValue f =>
    simp only [mulLiteral]
    split_ifs
    · exact inI64_saturatingMul
    · exact inI64_saturatingMul
    · decide
  | toValue t =>
    simp only [mulLiteral]
    split_ifs
    · exact inI64_saturatingMul
    · exact inI64_saturatingMul
    · decide
  | _ => trivial

theorem has_mulLiteral (hx : x.Has b) (h : InI64 (a * b)) : (mulLiteral a x).Has (a * b) := by
  have hzero : ¬ 0 < a → ¬ a < 0 → a * b = 0 := by
    intro h₁ h₂
    rw [le_antisymm (not_lt.mp h₁) (not_lt.mp h₂), zero_mul]
  cases x with
  | fromValue f =>
    simp only [mulLiteral]
    split_ifs with hpos hneg
    · exact saturatingMul_le h (mul_le_mul_of_nonneg_left hx hpos.le)
    · exact le_saturatingMul h (mul_le_mul_of_nonpos_left hx hneg.le)
    · exact hzero hpos hneg
  | toValue t =>
    simp only [mulLiteral]
    split_ifs with hpos hneg
    · exact le_saturatingMul h (mul_le_mul_of_nonneg_left hx hpos.le)
    · exact saturatingMul_le h (mul_le_mul_of_nonpos_left hx hneg.le)
    · exact hzero hpos hneg
  | range f t =>
    obtain ⟨hf, ht⟩ := hx
    simp only [mulLiteral]
    split_ifs with hpos hneg
    · exact ⟨saturatingMul_le h (mul_le_mul_of_nonneg_left hf hpos.le),
        le_saturatingMul h (mul_le_mul_of_nonneg_left ht hpos.le)⟩
    · exact ⟨saturatingMul_le h (mul_le_mul_of_nonpos_left ht hneg.le),
        le_saturatingMul h (mul_le_mul_of_nonpos_left hf hneg.le)⟩
    · exact hzero hpos hneg
  | _ => trivial

/-- The types that a literal is multiplied with end by end. -/
def isBounded : TInteger → Bool
  | fromValue _ => true
  | toValue _ => true
  | range _ _ => true
  | _ => false

theorem literal_mul {l : ℤ} (hx : x.isBounded = true) : mul (literal l) x = mulLiteral l x := by
  by_cases hl : l = 0
  · subst hl
    cases x <;> simp [isBounded] at hx <;> rfl
  · cases x <;> simp [isBounded] at hx <;> simp [mul]

theorem mul_literal {l : ℤ} (hx : x.isBounded = true) : mul x (literal l) = mulLiteral l x := by
  by_cases hl : l = 0
  · subst hl
    cases x <;> simp [isBounded] at hx <;> rfl
  · cases x <;> simp [isBounded] at hx <;> simp [mul]

/-- The cases of a product: with a type of unknown ends, of two literals, of a literal and
a type with ends, of two types with ends. -/
theorem mul_cases (x y : TInteger) :
    (x = unspecified ∨ y = unspecified ∨ x = unspecifiedLiteral ∨ y = unspecifiedLiteral) ∨
    (∃ l₁ l₂, x = literal l₁ ∧ y = literal l₂) ∨
    (∃ l, x = literal l ∧ y.isBounded = true) ∨ (∃ l, y = literal l ∧ x.isBounded = true) ∨
    (x.isBounded = true ∧ y.isBounded = true) := by
  cases x <;> cases y <;> simp [isBounded]

theorem wellFormed_mul (hx : x.WellFormed) (hy : y.WellFormed) : (x * y).WellFormed := by
  change (mul x y).WellFormed
  rcases mul_cases x y with h | ⟨l₁, l₂, rfl, rfl⟩ | ⟨l, rfl, h⟩ | ⟨l, rfl, h⟩ | ⟨h₁, h₂⟩
  · rcases h with rfl | rfl | rfl | rfl
    · trivial
    · cases x <;> trivial
    · cases y <;> trivial
    · cases x <;> trivial
  · rw [show mul (literal l₁) (literal l₂) = literal (saturatingMul l₁ l₂) from rfl]
    exact inI64_saturatingMul
  · rw [literal_mul h]
    exact wellFormed_mulLiteral hy
  · rw [mul_literal h]
    exact wellFormed_mulLiteral hx
  · cases x <;> cases y <;> simp [isBounded] at h₁ h₂ <;> simp only [mul] <;> try trivial
    · split
      · exact inI64_saturatingMul
      · trivial
    · refine ⟨?_, lowest_le_highest, ?_⟩
      · apply lowest_of_corners <;> exact inI64_saturatingMul
      · apply highest_of_corners <;> exact inI64_saturatingMul

theorem has_mul (hx : x.Has a) (hy : y.Has b) (h : InI64 (a * b)) : (x * y).Has (a * b) := by
  change (mul x y).Has (a * b)
  rcases mul_cases x y with hu | ⟨l₁, l₂, rfl, rfl⟩ | ⟨l, rfl, hb⟩ | ⟨l, rfl, hb⟩ | ⟨h₁, h₂⟩
  · rcases hu with rfl | rfl | rfl | rfl
    · trivial
    · cases x <;> trivial
    · cases y <;> trivial
    · cases x <;> trivial
  · rw [has_literal] at hx hy
    subst hx hy
    exact (saturatingMul_eq h).symm
  · rw [has_literal] at hx
    subst hx
    rw [literal_mul hb]
    exact has_mulLiteral hy h
  · rw [has_literal] at hy
    subst hy
    rw [mul_literal hb, mul_comm]
    exact has_mulLiteral hx (mul_comm a b ▸ h)
  · cases x <;> cases y <;> simp [isBounded] at h₁ h₂ <;> simp only [mul] <;> try trivial
    · split
      · rename_i hnonneg
        exact saturatingMul_le h (mul_le_mul hx hy hnonneg.2 (hnonneg.1.trans hx))
      · trivial
    · rw [← saturatingMul_eq h]
      exact between_corners oneWay_saturatingMul_left (fun _ => oneWay_saturatingMul_right) hx hy

/-- Of integers of the operand types a result that is a 64-bit integer is one of the result
type, and result types are well formed. -/
theorem arithmetic_sound (hx : x.WellFormed) (hy : y.WellFormed) :
    ((x + y).WellFormed ∧ (x - y).WellFormed ∧ (x * y).WellFormed ∧ (-x).WellFormed) ∧
      ∀ a b, InI64 a → InI64 b → x.Has a → y.Has b →
        (InI64 (a + b) → (x + y).Has (a + b)) ∧ (InI64 (a - b) → (x - y).Has (a - b)) ∧
          (InI64 (a * b) → (x * y).Has (a * b)) ∧ (InI64 (-a) → (-x).Has (-a)) := by
  refine ⟨⟨wellFormed_add hx hy, wellFormed_sub hx hy, wellFormed_mul hx hy,
    wellFormed_neg hx⟩, ?_⟩
  intro a b _ _ ha hb
  exact ⟨has_add ha hb, has_sub ha hb, has_mul ha hb, has_neg ha⟩

/-- Two ranges that cross zero, one of them down to the smallest integer. -/
theorem arithmetic_sound_crossing :
    let x := range i64Min 5
    let y := range (-3) 2
    ((x + y).WellFormed ∧ (x - y).WellFormed ∧ (x * y).WellFormed ∧ (-x).WellFormed) ∧
      ∀ a b, InI64 a → InI64 b → x.Has a → y.Has b →
        (InI64 (a + b) → (x + y).Has (a + b)) ∧ (InI64 (a - b) → (x - y).Has (a - b)) ∧
          (InI64 (a * b) → (x * y).Has (a * b)) ∧ (InI64 (-a) → (-x).Has (-a)) :=
  arithmetic_sound (by decide) (by decide)

end Sound

end TInteger

end Mago.Types
