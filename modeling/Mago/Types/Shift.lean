import Mago.Library.Residues
import Mago.Types.Bitwise
import Mathlib

/-!
# Shifts of integer types

PHP's shifts of 64-bit integers and the types computed for them. The left shift of an end loses
the bits beyond the sign, and counts are narrowed to 32 bits.
-/
namespace Mago.Types

open Mago.Library

/-- The 64-bit integer of the same low bits. -/
def wrapI64 (n : ℤ) : ℤ := (n + 2 ^ 63) % 2 ^ 64 - 2 ^ 63

/-- The count is taken modulo 64. -/
def wrappingShl (a : ℤ) (s : ℕ) : ℤ := wrapI64 (a * 2 ^ (s % 64))

def checkedShl (a : ℤ) (s : ℕ) : Option ℤ := if s < 64 then some (wrapI64 (a * 2 ^ s)) else none

/-- Narrowing to `u32`. -/
def toU32 (n : ℤ) : ℕ := (n % 2 ^ 32).toNat

/-- `a << b` in PHP, for a count that is not negative. -/
def phpShl (a b : ℤ) : ℤ := if 64 ≤ b then 0 else wrapI64 (a * 2 ^ b.toNat)

/-- `a >> b` in PHP, for a count that is not negative. -/
def phpShr (a b : ℤ) : ℤ :=
  if 64 ≤ b then (if a < 0 then -1 else 0) else a >>> b.toNat

section Wrapping

variable {a b l u : ℤ}

theorem inI64_wrapI64 : InI64 (wrapI64 a) := by
  unfold InI64 wrapI64 i64Min i64Max
  omega

theorem toU32_eq (h : 0 ≤ a) (h' : a < 2 ^ 32) : toU32 a = a.toNat := by
  rw [toU32, Int.emod_eq_of_lt h h']

/-- Half of the integers that a shifted integer stands for. -/
def half (b : ℤ) : ℤ := 2 ^ (63 - b.toNat)

theorem half_pos : 0 < half b := by
  unfold half
  positivity

/-- The factor of a shift and half the number of residues make up 2 ^ 63. -/
theorem pow_mul_half (h : 0 ≤ b) (h' : b < 64) : 2 ^ b.toNat * half b = 2 ^ 63 := by
  rw [half, ← pow_add, show b.toNat + (63 - b.toNat) = 63 by omega]

/-- A shift multiplies the centred residue. -/
theorem phpShl_eq (h : 0 ≤ b) (h' : b < 64) : phpShl a b = 2 ^ b.toNat * centred (half b) a := by
  have hpow : (0 : ℤ) < 2 ^ b.toNat := by positivity
  have hhalf := pow_mul_half h h'
  rw [phpShl, if_neg (by omega), wrapI64, centred, mul_sub, hhalf,
    ← Int.mul_emod_mul_of_pos _ _ hpow, mul_add, hhalf,
    show 2 ^ b.toNat * (2 * half b) = 2 * (2 ^ b.toNat * half b) by ring, hhalf, mul_comm a]
  norm_num

/-- The ends of an interval, shifted, stand for multiples of one number of 2 ^ 64. -/
def SameBlock (b l u : ℤ) : Prop := block (half b) l = block (half b) u

instance : Decidable (SameBlock b l u) := by
  unfold SameBlock
  infer_instance

/-- The smallest and the largest of the integers of an interval, shifted. -/
def lowImage (b l u : ℤ) : ℤ := if SameBlock b l u then phpShl l b else i64Min

def highImage (b l u : ℤ) : ℤ :=
  if SameBlock b l u then phpShl u b else 2 ^ 63 - 2 ^ b.toNat

theorem lowImage_eq (h : 0 ≤ b) (h' : b < 64) :
    lowImage b l u = 2 ^ b.toNat * lowResidue (half b) l u := by
  unfold lowImage lowResidue
  by_cases hsame : block (half b) l = block (half b) u
  · rw [if_pos (show SameBlock b l u from hsame), if_pos hsame, phpShl_eq h h']
  · rw [if_neg (show ¬ SameBlock b l u from hsame), if_neg hsame, mul_neg, pow_mul_half h h']
    rfl

theorem highImage_eq (h : 0 ≤ b) (h' : b < 64) :
    highImage b l u = 2 ^ b.toNat * highResidue (half b) l u := by
  unfold highImage highResidue
  by_cases hsame : block (half b) l = block (half b) u
  · rw [if_pos (show SameBlock b l u from hsame), if_pos hsame, phpShl_eq h h']
  · rw [if_neg (show ¬ SameBlock b l u from hsame), if_neg hsame, mul_sub, pow_mul_half h h', mul_one]

theorem image_bounds (h : 0 ≤ b) (h' : b < 64) (hl : l ≤ a) (hu : a ≤ u) :
    lowImage b l u ≤ phpShl a b ∧ phpShl a b ≤ highImage b l u := by
  have hpow : (0 : ℤ) ≤ 2 ^ b.toNat := by positivity
  obtain ⟨hlow, hhigh⟩ := centred_between half_pos hl hu
  rw [lowImage_eq h h', highImage_eq h h', phpShl_eq h h']
  exact ⟨mul_le_mul_of_nonneg_left hlow hpow, mul_le_mul_of_nonneg_left hhigh hpow⟩

theorem exists_lowImage (h : 0 ≤ b) (h' : b < 64) (hlu : l ≤ u) :
    ∃ a, l ≤ a ∧ a ≤ u ∧ phpShl a b = lowImage b l u := by
  obtain ⟨a, hl, hu, ha⟩ := exists_lowResidue half_pos hlu
  exact ⟨a, hl, hu, by rw [lowImage_eq h h', phpShl_eq h h', ha]⟩

theorem exists_highImage (h : 0 ≤ b) (h' : b < 64) (hlu : l ≤ u) :
    ∃ a, l ≤ a ∧ a ≤ u ∧ phpShl a b = highImage b l u := by
  obtain ⟨a, hl, hu, ha⟩ := exists_highResidue half_pos hlu
  exact ⟨a, hl, hu, by rw [highImage_eq h h', phpShl_eq h h', ha]⟩

end Wrapping

namespace TInteger

/-- The left shift by a literal count from 1 to 63. -/
def shlLiteral (val : TInteger) (s : ℕ) : TInteger :=
  match val with
  | literal v => literal (wrappingShl v s)
  | fromValue lo => (checkedShl lo s).elim unspecified fromValue
  | toValue hi => (checkedShl hi s).elim unspecified toValue
  | range lo hi =>
    match checkedShl lo s, checkedShl hi s with
    | some a, some b => range a b
    | _, _ => unspecified
  | unspecified => unspecified
  | unspecifiedLiteral => unspecifiedLiteral

/-- The left shift by counts between bounds. -/
def shlBounds (val shift : TInteger) : TInteger :=
  if val.minNonNeg && shift.minNonNeg && shift.getMaximumValue.any (fun v => v < 64) then
    match shift.getMinimumValue, shift.getMaximumValue with
    | some sMin, some sMax =>
      let lower := val.getMinimumValue.bind fun v => checkedShl v (toU32 sMin)
      let upper := val.getMaximumValue.bind fun v => checkedShl v (toU32 sMax)
      match lower, upper with
      | some lo, some hi => fromBounds (some lo) (some hi)
      | some lo, none => fromValue lo
      | _, _ => unspecified
    | _, _ => unspecified
  else unspecified

def shl (self rhs : TInteger) : TInteger :=
  match self, rhs with
  | literal 0, _ => literal 0
  | literal l, literal r =>
    if ¬ (0 ≤ r ∧ r < 64) then unspecified else literal (wrappingShl l (toU32 r))
  | unspecifiedLiteral, unspecifiedLiteral | literal _, unspecifiedLiteral
  | unspecifiedLiteral, literal _ => unspecifiedLiteral
  | val, literal 0 => val
  | val, literal shift =>
    if 1 ≤ shift ∧ shift < 64 then shlLiteral val (toU32 shift)
    else shlBounds val (literal shift)
  | val, shift => shlBounds val shift

/-- The right shift by a literal count from 1 to 63. -/
def shrLiteral (val : TInteger) (s : ℕ) : TInteger :=
  match val with
  | literal v => literal (v >>> s)
  | fromValue lo => fromValue (lo >>> s)
  | toValue hi => toValue (hi >>> s)
  | range lo hi => range (min (lo >>> s) (hi >>> s)) (max (lo >>> s) (hi >>> s))
  | unspecified => unspecified
  | unspecifiedLiteral => unspecifiedLiteral

/-- The right shift by counts of which the smallest is known. -/
def shrBounds (val shift : TInteger) : TInteger :=
  if val.minNonNeg && shift.minNonNeg then
    match shift.getMinimumValue with
    | some sMinRaw =>
      let sMin := min (toU32 sMinRaw) 63
      let sMax := shift.getMaximumValue.map fun v => min (toU32 v) 63
      let upper := val.getMaximumValue.map fun (v : ℤ) => v >>> sMin
      let lower := match sMax with
        | some s => val.getMinimumValue.map fun (v : ℤ) => v >>> s
        | none => some 0
      fromBounds lower upper
    | none => unspecified
  else unspecified

def shrOther (val : TInteger) : TInteger → TInteger
  | literal 0 => val
  | literal shift =>
    if 1 ≤ shift ∧ shift < 64 then shrLiteral val (toU32 shift)
    else shrBounds val (literal shift)
  | shift => shrBounds val shift

def shr (self rhs : TInteger) : TInteger :=
  match self, rhs with
  | literal l, literal r =>
    if ¬ (0 ≤ r ∧ r < 64) then unspecified else literal (l >>> toU32 r)
  | unspecifiedLiteral, unspecifiedLiteral | literal _, unspecifiedLiteral
  | unspecifiedLiteral, literal _ => unspecifiedLiteral
  | val, shift =>
    if val = literal 0 ∧ shift.minNonNeg = true then literal 0 else shrOther val shift

section Left

variable {x y : TInteger} {a b l u s s₀ s₁ : ℤ}

/-- Every result of the left shift is of the computed type, which is well formed. -/
def ShlSound (x y : TInteger) : Prop :=
  (shl x y).WellFormed ∧
    ∀ a b, InI64 a → InI64 b → x.Has a → y.Has b → 0 ≤ b → (shl x y).Has (phpShl a b)

/-- Shifted by `s` the integers from `l` to `u` are not below `l` shifted by `s₀`. -/
def KeepsLow (s₀ s l u : ℤ) : Prop := phpShl l s₀ ≤ lowImage s l u

/-- Shifted by `s` the integers from `l` to `u` are not above `u` shifted by `s₁`. -/
def KeepsHigh (s₁ s l u : ℤ) : Prop := highImage s l u ≤ phpShl u s₁

theorem keepsLow_iff (h : 0 ≤ s) (h' : s < 64) (hlu : l ≤ u) :
    KeepsLow s₀ s l u ↔ ∀ a, l ≤ a → a ≤ u → phpShl l s₀ ≤ phpShl a s := by
  constructor
  · intro hkeep a hl hu
    exact le_trans hkeep (image_bounds h h' hl hu).1
  · intro hall
    obtain ⟨a, hl, hu, ha⟩ := exists_lowImage h h' hlu
    rw [KeepsLow, ← ha]
    exact hall a hl hu

theorem keepsHigh_iff (h : 0 ≤ s) (h' : s < 64) (hlu : l ≤ u) :
    KeepsHigh s₁ s l u ↔ ∀ a, l ≤ a → a ≤ u → phpShl a s ≤ phpShl u s₁ := by
  constructor
  · intro hkeep a hl hu
    exact le_trans (image_bounds h h' hl hu).2 hkeep
  · intro hall
    obtain ⟨a, hl, hu, ha⟩ := exists_highImage h h' hlu
    rw [KeepsHigh, ← ha]
    exact hall a hl hu

theorem checkedShl_eq (h : 0 ≤ s) (h' : s < 64) : checkedShl a (toU32 s) = some (phpShl a s) := by
  rw [toU32_eq h (by omega), checkedShl, if_pos (by omega), phpShl, if_neg (by omega)]

theorem wrappingShl_eq (h : 0 ≤ s) (h' : s < 64) : wrappingShl a (toU32 s) = phpShl a s := by
  rw [toU32_eq h (by omega), wrappingShl, Nat.mod_eq_of_lt (by omega), phpShl,
    if_neg (by omega)]

theorem inI64_phpShl : InI64 (phpShl a s) := by
  unfold phpShl
  split
  · decide
  · exact inI64_wrapI64

theorem shlSound_unspecified (h : shl x y = unspecified) : ShlSound x y := by
  rw [ShlSound, h]
  exact ⟨trivial, fun _ _ _ _ _ _ _ => trivial⟩

theorem shlSound_unspecifiedLiteral (h : shl x y = unspecifiedLiteral) : ShlSound x y := by
  rw [ShlSound, h]
  exact ⟨trivial, fun _ _ _ _ _ _ _ => trivial⟩

theorem phpShl_zero_left : phpShl 0 s = 0 := by
  unfold phpShl
  split
  · rfl
  · rw [zero_mul]
    decide

theorem phpShl_zero_right (ha : InI64 a) : phpShl a 0 = a := by
  unfold phpShl InI64 i64Min i64Max wrapI64 at *
  simp
  omega

/-- Zero is shifted to zero. -/
theorem shlSound_zero_left : ShlSound (literal 0) y := by
  have h : shl (literal 0) y = literal 0 := by cases y <;> rfl
  rw [ShlSound, h]
  refine ⟨by decide, fun a b _ _ ha _ _ => ?_⟩
  rw [has_literal] at ha ⊢
  rw [ha, phpShl_zero_left]

theorem shlSound_literal (hl : InI64 l) : ShlSound (literal l) (literal s) := by
  by_cases hzero : l = 0
  · subst hzero
    exact shlSound_zero_left
  by_cases hs : 0 ≤ s ∧ s < 64
  · have h : shl (literal l) (literal s) = literal (phpShl l s) := by
      simp only [shl, if_neg (not_not.mpr hs), wrappingShl_eq hs.1 hs.2]
    rw [ShlSound, h]
    refine ⟨inI64_phpShl, fun a b _ _ ha hb _ => ?_⟩
    rw [has_literal] at ha hb ⊢
    rw [ha, hb]
  · apply shlSound_unspecified
    simp only [shl, if_pos hs]

/-- A count of zero changes nothing. -/
theorem shlSound_zero_right (hx : x.WellFormed) (h : shl x (literal 0) = x) :
    ShlSound x (literal 0) := by
  rw [ShlSound, h]
  refine ⟨hx, fun a b ha _ hxa hb _ => ?_⟩
  rw [has_literal] at hb
  rwa [hb, phpShl_zero_right ha]

/-- The type without a lower end or without an upper one is closed by the 64-bit integers. -/
theorem has_fromValue_iff (ha : InI64 a) : (fromValue l).Has a ↔ l ≤ a ∧ a ≤ i64Max :=
  ⟨fun h => ⟨h, ha.2⟩, fun h => h.1⟩

theorem has_toValue_iff (ha : InI64 a) : (toValue u).Has a ↔ i64Min ≤ a ∧ a ≤ u :=
  ⟨fun h => ⟨ha.1, h⟩, fun h => h.2⟩

theorem inI64_between (hl : InI64 l) (hu : InI64 u) (hla : l ≤ a) (hau : a ≤ u) : InI64 a :=
  ⟨hl.1.trans hla, hau.trans hu.2⟩

/-- The type holds the counts from `s₀` to `s₁`, each a shift within 64 bits. -/
structure Counts (y : TInteger) (s₀ s₁ : ℤ) : Prop where
  nonneg : 0 ≤ s₀
  le : s₀ ≤ s₁
  lt : s₁ < 64
  has : ∀ b, y.Has b ↔ s₀ ≤ b ∧ b ≤ s₁

theorem Counts.inI64 (h : Counts y s₀ s₁) (h₀ : s₀ ≤ s) (h₁ : s ≤ s₁) : InI64 s := by
  obtain ⟨hnonneg, hle, hlt, _⟩ := h
  unfold InI64 i64Min i64Max
  omega

/-- The lower end of the result bounds all results when it bounds the images of the ends. -/
theorem Counts.low_iff (h : Counts y s₀ s₁) (hl : InI64 l) (hu : InI64 u) (hlu : l ≤ u)
    (hx : ∀ a, InI64 a → (x.Has a ↔ l ≤ a ∧ a ≤ u)) :
    (∀ a b, InI64 a → InI64 b → x.Has a → y.Has b → 0 ≤ b → phpShl l s₀ ≤ phpShl a b) ↔
      ∀ s, s₀ ≤ s → s ≤ s₁ → KeepsLow s₀ s l u := by
  have hnonneg := h.nonneg
  have hlt := h.lt
  constructor
  · intro hall s h₀ h₁
    refine (keepsLow_iff (by omega) (by omega) hlu).mpr fun a hla hau => ?_
    have ha := inI64_between hl hu hla hau
    exact hall a s ha (h.inI64 h₀ h₁) ((hx a ha).mpr ⟨hla, hau⟩) ((h.has s).mpr ⟨h₀, h₁⟩)
      (by omega)
  · intro hkeep a b ha _ hxa hyb _
    obtain ⟨h₀, h₁⟩ := (h.has b).mp hyb
    obtain ⟨hla, hau⟩ := (hx a ha).mp hxa
    exact (keepsLow_iff (by omega) (by omega) hlu).mp (hkeep b h₀ h₁) a hla hau

theorem Counts.high_iff (h : Counts y s₀ s₁) (hl : InI64 l) (hu : InI64 u) (hlu : l ≤ u)
    (hx : ∀ a, InI64 a → (x.Has a ↔ l ≤ a ∧ a ≤ u)) :
    (∀ a b, InI64 a → InI64 b → x.Has a → y.Has b → 0 ≤ b → phpShl a b ≤ phpShl u s₁) ↔
      ∀ s, s₀ ≤ s → s ≤ s₁ → KeepsHigh s₁ s l u := by
  have hnonneg := h.nonneg
  have hlt := h.lt
  constructor
  · intro hall s h₀ h₁
    refine (keepsHigh_iff (by omega) (by omega) hlu).mpr fun a hla hau => ?_
    have ha := inI64_between hl hu hla hau
    exact hall a s ha (h.inI64 h₀ h₁) ((hx a ha).mpr ⟨hla, hau⟩) ((h.has s).mpr ⟨h₀, h₁⟩)
      (by omega)
  · intro hkeep a b ha _ hxa hyb _
    obtain ⟨h₀, h₁⟩ := (h.has b).mp hyb
    obtain ⟨hla, hau⟩ := (hx a ha).mp hxa
    exact (keepsHigh_iff (by omega) (by omega) hlu).mp (hkeep b h₀ h₁) a hla hau

theorem Counts.from_iff (h : Counts y s₀ s₁) (hl : InI64 l)
    (hshl : shl (fromValue l) y = fromValue (phpShl l s₀)) :
    ShlSound (fromValue l) y ↔ ∀ s, s₀ ≤ s → s ≤ s₁ → KeepsLow s₀ s l i64Max := by
  rw [← h.low_iff hl inI64_max hl.2 fun a ha => has_fromValue_iff ha, ShlSound, hshl]
  exact ⟨fun hsound => hsound.2, fun hall => ⟨inI64_phpShl, hall⟩⟩

theorem Counts.to_iff (h : Counts y s₀ s₁) (hu : InI64 u)
    (hshl : shl (toValue u) y = toValue (phpShl u s₁)) :
    ShlSound (toValue u) y ↔ ∀ s, s₀ ≤ s → s ≤ s₁ → KeepsHigh s₁ s i64Min u := by
  rw [← h.high_iff inI64_min hu hu.1 fun a ha => has_toValue_iff ha, ShlSound, hshl]
  exact ⟨fun hsound => hsound.2, fun hall => ⟨inI64_phpShl, hall⟩⟩

/-- A result with both ends. -/
theorem Counts.both_iff (h : Counts y s₀ s₁) (hl : InI64 l) (hu : InI64 u) (hlu : l ≤ u)
    (hx : ∀ a, InI64 a → (x.Has a ↔ l ≤ a ∧ a ≤ u)) :
    (∀ a b, InI64 a → InI64 b → x.Has a → y.Has b → 0 ≤ b →
      phpShl l s₀ ≤ phpShl a b ∧ phpShl a b ≤ phpShl u s₁) ↔
      ∀ s, s₀ ≤ s → s ≤ s₁ → KeepsLow s₀ s l u ∧ KeepsHigh s₁ s l u := by
  have hlow := h.low_iff hl hu hlu hx
  have hhigh := h.high_iff hl hu hlu hx
  constructor
  · intro hall s h₀ h₁
    exact ⟨hlow.mp (fun a b h₁ h₂ h₃ h₄ h₅ => (hall a b h₁ h₂ h₃ h₄ h₅).1) s h₀ h₁,
      hhigh.mp (fun a b h₁ h₂ h₃ h₄ h₅ => (hall a b h₁ h₂ h₃ h₄ h₅).2) s h₀ h₁⟩
  · intro hkeep a b h₁ h₂ h₃ h₄ h₅
    exact ⟨hlow.mpr (fun s h₀ h₁ => (hkeep s h₀ h₁).1) a b h₁ h₂ h₃ h₄ h₅,
      hhigh.mpr (fun s h₀ h₁ => (hkeep s h₀ h₁).2) a b h₁ h₂ h₃ h₄ h₅⟩

theorem Counts.range_iff (h : Counts y s₀ s₁) (hx : (range l u).WellFormed)
    (hshl : shl (range l u) y = range (phpShl l s₀) (phpShl u s₁)) :
    ShlSound (range l u) y ↔
      ∀ s, s₀ ≤ s → s ≤ s₁ → KeepsLow s₀ s l u ∧ KeepsHigh s₁ s l u := by
  obtain ⟨hl, hlu, hu⟩ := hx
  rw [← h.both_iff (x := range l u) hl hu hlu fun a _ => Iff.rfl, ShlSound, hshl]
  refine ⟨fun hsound => hsound.2, fun hall => ⟨⟨inI64_phpShl, ?_, inI64_phpShl⟩, hall⟩⟩
  -- the shifted lower end is a result
  exact (hall l s₀ hl (h.inI64 le_rfl h.le) ⟨le_rfl, hlu⟩ ((h.has s₀).mpr ⟨le_rfl, h.le⟩)
    h.nonneg).2

theorem has_fromBounds_iff {n : ℤ} (hlu : l ≤ u) :
    (fromBounds (some l) (some u)).Has n ↔ l ≤ n ∧ n ≤ u := by
  rw [fromBounds]
  split_ifs with heq hlt
  · rw [has_literal]
    omega
  · rfl
  · omega

/-- Ends in the wrong order give up. -/
theorem Counts.bounds_iff (h : Counts y s₀ s₁) (hl : InI64 l) (hu : InI64 u) (hlu : l ≤ u)
    (hx : ∀ a, InI64 a → (x.Has a ↔ l ≤ a ∧ a ≤ u))
    (hshl : shl x y = fromBounds (some (phpShl l s₀)) (some (phpShl u s₁))) :
    ShlSound x y ↔ phpShl u s₁ < phpShl l s₀ ∨
      ∀ s, s₀ ≤ s → s ≤ s₁ → KeepsLow s₀ s l u ∧ KeepsHigh s₁ s l u := by
  rcases lt_or_ge (phpShl u s₁) (phpShl l s₀) with hcross | hle
  · refine iff_of_true ?_ (Or.inl hcross)
    apply shlSound_unspecified
    rw [hshl, fromBounds, if_neg hcross.ne', if_neg (not_lt.mpr hcross.le)]
  · rw [← h.both_iff hl hu hlu hx, ShlSound, hshl]
    simp only [has_fromBounds_iff hle, not_lt.mpr hle, false_or]
    refine ⟨fun hsound => hsound.2, fun hall => ⟨?_, hall⟩⟩
    apply wellFormed_fromBounds <;> simp [inI64_phpShl]

theorem shl_literal {val : TInteger} (hval : val.isBounded = true) (hs : 1 ≤ s ∧ s < 64) :
    shl val (literal s) = shlLiteral val (toU32 s) := by
  have hne : s ≠ 0 := by omega
  cases val <;> simp [isBounded] at hval <;> simp [shl, hs]

theorem shl_literal_outside {val : TInteger} (hval : val.isBounded = true)
    (hs : ¬ (1 ≤ s ∧ s < 64)) (hne : s ≠ 0) : shl val (literal s) = unspecified := by
  have hcount : 0 ≤ s → ¬ s < 64 := by omega
  cases val <;> simp [isBounded] at hval <;>
    simp [shl, if_neg hs, shlBounds, minNonNeg, getMinimumValue, getMaximumValue] <;> omega

/-- Where neither operand is a literal, or the value is a literal other than zero. -/
theorem shl_bounds {f t : ℤ} (hx : x ≠ literal 0) (hx' : x ≠ unspecifiedLiteral) :
    shl x (range f t) = shlBounds x (range f t) := by
  cases x with
  | literal l =>
    have hl : l ≠ 0 := fun h => hx (by rw [h])
    simp [shl]
  | unspecifiedLiteral => exact absurd rfl hx'
  | _ => rfl

/-- A known lower end, nonnegative, and counts within 64 bits are needed. -/
theorem shlBounds_outside {f t : ℤ}
    (h : ¬ (x.minNonNeg = true ∧ 0 ≤ f ∧ t < 64)) : shlBounds x (range f t) = unspecified := by
  rw [shlBounds, if_neg]
  intro hall
  simp only [Bool.and_eq_true] at hall
  apply h
  refine ⟨hall.1.1, ?_, ?_⟩
  · simpa [minNonNeg, getMinimumValue] using hall.1.2
  · simpa [getMaximumValue] using hall.2

/-- The bounds that are computed from the ends hold for the images of all integers between. A
literal count from 1 to 63 shifts both ends; counts from `s₀` to `s₁` shift the lower end by the
smallest and the upper by the largest, which must not cross. -/
def ShlKeeps : TInteger → TInteger → Prop
  | fromValue l, literal s => 1 ≤ s ∧ s < 64 → KeepsLow s s l i64Max
  | toValue u, literal s => 1 ≤ s ∧ s < 64 → KeepsHigh s s i64Min u
  | range l u, literal s => 1 ≤ s ∧ s < 64 → KeepsLow s s l u ∧ KeepsHigh s s l u
  | literal l, range s₀ s₁ => 0 < l ∧ 0 ≤ s₀ ∧ s₁ < 64 →
      phpShl l s₁ < phpShl l s₀ ∨
        ∀ s, s₀ ≤ s → s ≤ s₁ → KeepsLow s₀ s l l ∧ KeepsHigh s₁ s l l
  | fromValue l, range s₀ s₁ => 0 ≤ l ∧ 0 ≤ s₀ ∧ s₁ < 64 →
      ∀ s, s₀ ≤ s → s ≤ s₁ → KeepsLow s₀ s l i64Max
  | range l u, range s₀ s₁ => 0 ≤ l ∧ 0 ≤ s₀ ∧ s₁ < 64 →
      phpShl u s₁ < phpShl l s₀ ∨
        ∀ s, s₀ ≤ s → s ≤ s₁ → KeepsLow s₀ s l u ∧ KeepsHigh s₁ s l u
  | _, _ => True

theorem shl_from_range_iff (hl : InI64 l) (hs : s₀ ≤ s₁) :
    ShlSound (fromValue l) (range s₀ s₁) ↔ ShlKeeps (fromValue l) (range s₀ s₁) := by
  have hshl := shl_bounds (x := fromValue l) (f := s₀) (t := s₁) (by simp) (by simp)
  by_cases h : 0 ≤ l ∧ 0 ≤ s₀ ∧ s₁ < 64
  · obtain ⟨hnonneg, hs₀, hs₁⟩ := h
    have hc : Counts (range s₀ s₁) s₀ s₁ := ⟨hs₀, hs, hs₁, fun b => Iff.rfl⟩
    have heq : shl (fromValue l) (range s₀ s₁) = fromValue (phpShl l s₀) := by
      rw [hshl]
      simp [shlBounds, minNonNeg, getMinimumValue, getMaximumValue, hnonneg, hs₀, hs₁,
        checkedShl_eq hs₀ (by omega : s₀ < 64)]
    rw [hc.from_iff hl heq]
    exact ⟨fun hkeep _ => hkeep, fun hkeep => hkeep ⟨hnonneg, hs₀, hs₁⟩⟩
  · refine iff_of_true (shlSound_unspecified ?_) fun hin => absurd hin h
    rw [hshl, shlBounds_outside]
    simpa [minNonNeg, getMinimumValue] using h

theorem shl_range_range_iff {u : ℤ} (hx : (range l u).WellFormed) (hs : s₀ ≤ s₁) :
    ShlSound (range l u) (range s₀ s₁) ↔ ShlKeeps (range l u) (range s₀ s₁) := by
  have hshl := shl_bounds (x := range l u) (f := s₀) (t := s₁) (by simp) (by simp)
  by_cases h : 0 ≤ l ∧ 0 ≤ s₀ ∧ s₁ < 64
  · obtain ⟨hnonneg, hs₀, hs₁⟩ := h
    have hc : Counts (range s₀ s₁) s₀ s₁ := ⟨hs₀, hs, hs₁, fun b => Iff.rfl⟩
    have heq : shl (range l u) (range s₀ s₁) =
        fromBounds (some (phpShl l s₀)) (some (phpShl u s₁)) := by
      rw [hshl]
      simp [shlBounds, minNonNeg, getMinimumValue, getMaximumValue, hnonneg, hs₀, hs₁,
        checkedShl_eq hs₀ (by omega : s₀ < 64), checkedShl_eq (by omega : 0 ≤ s₁) hs₁]
    rw [hc.bounds_iff hx.1 hx.2.2 hx.2.1 (fun a _ => Iff.rfl) heq]
    exact ⟨fun hkeep _ => hkeep, fun hkeep => hkeep ⟨hnonneg, hs₀, hs₁⟩⟩
  · refine iff_of_true (shlSound_unspecified ?_) fun hin => absurd hin h
    rw [hshl, shlBounds_outside]
    simpa [minNonNeg, getMinimumValue] using h

theorem shl_literal_range_iff (hl : InI64 l) (hs : s₀ ≤ s₁) :
    ShlSound (literal l) (range s₀ s₁) ↔ ShlKeeps (literal l) (range s₀ s₁) := by
  by_cases hzero : l = 0
  · subst hzero
    exact iff_of_true shlSound_zero_left fun h => absurd h.1 (lt_irrefl 0)
  have hshl := shl_bounds (x := literal l) (f := s₀) (t := s₁) (by simpa using hzero) (by simp)
  by_cases h : 0 < l ∧ 0 ≤ s₀ ∧ s₁ < 64
  · obtain ⟨hpos, hs₀, hs₁⟩ := h
    have hc : Counts (range s₀ s₁) s₀ s₁ := ⟨hs₀, hs, hs₁, fun b => Iff.rfl⟩
    have heq : shl (literal l) (range s₀ s₁) =
        fromBounds (some (phpShl l s₀)) (some (phpShl l s₁)) := by
      rw [hshl]
      simp [shlBounds, minNonNeg, getMinimumValue, getMaximumValue, hpos.le, hs₀, hs₁,
        checkedShl_eq hs₀ (by omega : s₀ < 64), checkedShl_eq (by omega : 0 ≤ s₁) hs₁]
    have hhas : ∀ a, InI64 a → ((literal l).Has a ↔ l ≤ a ∧ a ≤ l) := by
      intro a _
      rw [has_literal]
      omega
    rw [hc.bounds_iff hl hl le_rfl hhas heq]
    exact ⟨fun hkeep _ => hkeep, fun hkeep => hkeep ⟨hpos, hs₀, hs₁⟩⟩
  · refine iff_of_true (shlSound_unspecified ?_) fun hin => absurd hin h
    rw [hshl, shlBounds_outside]
    intro hin
    have hnonneg : 0 ≤ l := by simpa [minNonNeg, getMinimumValue] using hin.1
    exact h ⟨by omega, hin.2⟩

/-- One count, as a range of counts. -/
theorem counts_literal (hs : 1 ≤ s ∧ s < 64) : Counts (literal s) s s :=
  ⟨by omega, le_rfl, hs.2, fun b => by rw [has_literal]; omega⟩

theorem forall_count {P : ℤ → Prop} : (∀ c, s ≤ c → c ≤ s → P c) ↔ P s := by
  constructor
  · intro h
    exact h s le_rfl le_rfl
  · intro h c h₀ h₁
    rwa [le_antisymm h₁ h₀]

theorem shl_bounded_literal_iff (hx : x.WellFormed) (hb : x.isBounded = true) :
    ShlSound x (literal s) ↔ ShlKeeps x (literal s) := by
  by_cases hs : 1 ≤ s ∧ s < 64
  · have hc := counts_literal hs
    have hshl := shl_literal hb hs
    have hs' : 0 ≤ s := by omega
    cases x with
    | fromValue l =>
      rw [hc.from_iff hx (by rw [hshl, shlLiteral, checkedShl_eq hs' hs.2]; rfl), forall_count]
      exact ⟨fun hkeep _ => hkeep, fun hkeep => hkeep hs⟩
    | toValue u =>
      rw [hc.to_iff hx (by rw [hshl, shlLiteral, checkedShl_eq hs' hs.2]; rfl), forall_count]
      exact ⟨fun hkeep _ => hkeep, fun hkeep => hkeep hs⟩
    | range l u =>
      rw [hc.range_iff hx (by
        rw [hshl, shlLiteral, checkedShl_eq hs' hs.2, checkedShl_eq hs' hs.2]), forall_count]
      exact ⟨fun hkeep _ => hkeep, fun hkeep => hkeep hs⟩
    | _ => cases hb
  · have hkeep : ShlKeeps x (literal s) := by
      cases x <;> first | trivial | exact fun hin => absurd hin hs
    refine iff_of_true ?_ hkeep
    by_cases hzero : s = 0
    · subst hzero
      apply shlSound_zero_right hx
      cases x <;> first | rfl | cases hb
    · exact shlSound_unspecified (shl_literal_outside hb hs hzero)

/-- No known counts, or no known values. -/
theorem shlBounds_open (h : x.getMinimumValue = none ∨ y.getMinimumValue = none ∨
    y.getMaximumValue = none) : shlBounds x y = unspecified := by
  rw [shlBounds, if_neg]
  intro hall
  simp only [Bool.and_eq_true, minNonNeg, Option.any_eq_true] at hall
  obtain ⟨⟨⟨v, hv, _⟩, ⟨c, hc, _⟩⟩, ⟨m, hm, _⟩⟩ := hall
  rw [hv, hc, hm] at h
  simp at h

/-- The counts have no known ends, or are literals of unknown value. -/
theorem shlSound_of_counts (hx : x ≠ literal 0) (hx' : x ≠ unspecifiedLiteral)
    (hy : y.getMinimumValue = none ∨ y.getMaximumValue = none) : ShlSound x y := by
  have hopen : shlBounds x y = unspecified := shlBounds_open (Or.inr hy)
  cases y with
  | literal s => simp [getMinimumValue, getMaximumValue] at hy
  | range s₀ s₁ => simp [getMinimumValue, getMaximumValue] at hy
  | unspecifiedLiteral =>
    cases x with
    | literal l =>
      have hl : l ≠ 0 := fun h => hx (by rw [h])
      exact shlSound_unspecifiedLiteral (by simp [shl])
    | unspecifiedLiteral => exact absurd rfl hx'
    | _ => exact shlSound_unspecified hopen
  | _ => exact shlSound_unspecified (by cases x <;> simp_all [shl])

theorem shl_unspecified : shl unspecified y = unspecified := by
  have hopen : shlBounds unspecified y = unspecified := shlBounds_open (Or.inl rfl)
  cases y with
  | literal s =>
    by_cases hs : s = 0
    · subst hs
      rfl
    · simp only [shl]
      split
      · rfl
      · exact hopen
  | _ => exact hopen

theorem shlSound_of_unspecifiedLiteral : ShlSound unspecifiedLiteral y := by
  cases y with
  | literal s => exact shlSound_unspecifiedLiteral (by simp [shl])
  | unspecifiedLiteral => exact shlSound_unspecifiedLiteral rfl
  | _ => exact shlSound_unspecified (shlBounds_open (Or.inl rfl))

/-- The left shift of types is sound where the bounds are kept. -/
theorem shlSound_iff (hx : x.WellFormed) (hy : y.WellFormed) :
    ShlSound x y ↔ ShlKeeps x y := by
  cases x with
  | literal l =>
    by_cases hzero : l = 0
    · subst hzero
      refine iff_of_true shlSound_zero_left ?_
      cases y <;> first | trivial | exact fun h => absurd h.1 (lt_irrefl 0)
    have hne : literal l ≠ literal 0 := by simpa using hzero
    cases y with
    | literal s => exact iff_of_true (shlSound_literal hx) trivial
    | range s₀ s₁ => exact shl_literal_range_iff hx hy.2.1
    | fromValue s => exact iff_of_true (shlSound_of_counts hne (by simp) (Or.inr rfl)) trivial
    | _ => exact iff_of_true (shlSound_of_counts hne (by simp) (Or.inl rfl)) trivial
  | unspecifiedLiteral =>
    refine iff_of_true shlSound_of_unspecifiedLiteral ?_
    cases y <;> trivial
  | unspecified =>
    refine iff_of_true (shlSound_unspecified shl_unspecified) ?_
    cases y <;> trivial
  | fromValue l =>
    cases y with
    | literal s => exact shl_bounded_literal_iff hx rfl
    | range s₀ s₁ => exact shl_from_range_iff hx hy.2.1
    | fromValue s =>
      exact iff_of_true (shlSound_of_counts (by simp) (by simp) (Or.inr rfl)) trivial
    | _ => exact iff_of_true (shlSound_of_counts (by simp) (by simp) (Or.inl rfl)) trivial
  | toValue u =>
    cases y with
    | literal s => exact shl_bounded_literal_iff hx rfl
    | range s₀ s₁ =>
      exact iff_of_true (shlSound_unspecified (shlBounds_open (Or.inl rfl))) trivial
    | fromValue s =>
      exact iff_of_true (shlSound_of_counts (by simp) (by simp) (Or.inr rfl)) trivial
    | _ => exact iff_of_true (shlSound_of_counts (by simp) (by simp) (Or.inl rfl)) trivial
  | range l u =>
    cases y with
    | literal s => exact shl_bounded_literal_iff hx rfl
    | range s₀ s₁ => exact shl_range_range_iff hx hy.2.1
    | fromValue s =>
      exact iff_of_true (shlSound_of_counts (by simp) (by simp) (Or.inr rfl)) trivial
    | _ => exact iff_of_true (shlSound_of_counts (by simp) (by simp) (Or.inl rfl)) trivial

end Left

section Right

variable {x y : TInteger} {a b l u s s₀ s₁ : ℤ} {m n : ℕ}

theorem shr_mono (h : a ≤ b) : a >>> n ≤ b >>> n := by
  rw [Int.shiftRight_eq_div_pow, Int.shiftRight_eq_div_pow]
  exact Int.ediv_le_ediv (by positivity) h

theorem shr_nonneg (ha : 0 ≤ a) : 0 ≤ a >>> n := by
  rw [Int.shiftRight_eq_div_pow]
  positivity

/-- A nonnegative integer falls as it is shifted further. -/
theorem shr_anti (ha : 0 ≤ a) (h : n ≤ m) : a >>> m ≤ a >>> n := by
  obtain ⟨k, rfl⟩ := Nat.exists_eq_add_of_le h
  rw [Int.shiftRight_add, Int.shiftRight_eq_div_pow (a >>> n)]
  exact Int.ediv_le_self _ (shr_nonneg ha)

/-- After 63 places only the sign is left. -/
theorem shr_eq_zero (ha : 0 ≤ a) (hmax : a ≤ i64Max) (h : 63 ≤ n) : a >>> n = 0 := by
  apply le_antisymm _ (shr_nonneg ha)
  calc a >>> n ≤ a >>> (63 : ℕ) := shr_anti ha h
    _ = 0 := by
      rw [Int.shiftRight_eq_div_pow]
      unfold i64Max at hmax
      omega
    _ ≤ 0 := le_rfl

theorem shr_eq_neg_one (ha : a < 0) (hmin : i64Min ≤ a) (h : 63 ≤ n) : a >>> n = -1 := by
  have hpow : (2 : ℤ) ^ 63 ≤ 2 ^ n := pow_le_pow_right₀ (by omega) h
  have hge : -1 ≤ a / 2 ^ n := by
    apply Int.le_ediv_of_mul_le (by positivity)
    unfold i64Min at hmin
    omega
  have hlt : a / 2 ^ n < 0 := Int.ediv_neg_of_neg_of_pos ha (by positivity)
  rw [Int.shiftRight_eq_div_pow]
  push_cast
  omega

theorem phpShr_eq (ha : InI64 a) : phpShr a b = a >>> b.toNat := by
  unfold phpShr
  split_ifs with hlarge hneg
  · exact (shr_eq_neg_one hneg ha.1 (by omega)).symm
  · exact (shr_eq_zero (not_lt.mp hneg) ha.2 (by omega)).symm
  · rfl

/-- Every result of the right shift is of the computed type, which is well formed. -/
def ShrSound (x y : TInteger) : Prop :=
  (shr x y).WellFormed ∧
    ∀ a b, InI64 a → InI64 b → x.Has a → y.Has b → 0 ≤ b → (shr x y).Has (phpShr a b)

/-- The largest count, narrowed to 32 bits, shifts the lower end out as the count does, or the
computed ends cross. -/
def CountKept (l : ℤ) (u : Option ℤ) (s₀ s₁ : ℤ) : Prop :=
  0 ≤ l → 0 ≤ s₀ → 2 ^ 32 ≤ s₁ →
    l >>> min (toU32 s₁) 63 = 0 ∨ ∃ t ∈ u, t >>> min (toU32 s₀) 63 < l >>> min (toU32 s₁) 63

def ShrKeeps : TInteger → TInteger → Prop
  | literal l, range s₀ s₁ => CountKept l (some l) s₀ s₁
  | fromValue l, literal s => CountKept l none s s
  | fromValue l, range s₀ s₁ => CountKept l none s₀ s₁
  | range l u, literal s => CountKept l (some u) s s
  | range l u, range s₀ s₁ => CountKept l (some u) s₀ s₁
  | _, _ => True

theorem shrSound_unspecified (h : shr x y = unspecified) : ShrSound x y := by
  rw [ShrSound, h]
  exact ⟨trivial, fun _ _ _ _ _ _ _ => trivial⟩

theorem shrSound_unspecifiedLiteral (h : shr x y = unspecifiedLiteral) : ShrSound x y := by
  rw [ShrSound, h]
  exact ⟨trivial, fun _ _ _ _ _ _ _ => trivial⟩

theorem has_getMaximumValue (hy : y.WellFormed) : ∀ t ∈ y.getMaximumValue, y.Has t := by
  cases y <;> simp_all [getMaximumValue]

theorem toU32_le (h : 0 ≤ s) : (toU32 s : ℤ) ≤ s := by
  unfold toU32
  omega

/-- Narrowing only lowers a count, so the upper end stays a bound. -/
theorem phpShr_le_upper (hx : x.minNonNeg = true) (ha : InI64 a) (hxa : x.Has a) (hs : 0 ≤ s)
    (hsb : s ≤ b) :
    ∀ t ∈ x.getMaximumValue.map (fun (v : ℤ) => v >>> min (toU32 s) 63), phpShr a b ≤ t := by
  intro t ht
  obtain ⟨v, hv, rfl⟩ := Option.mem_map.mp ht
  have hnonneg := nonneg_of_minNonNeg hx hxa
  have hle := toU32_le hs
  rw [phpShr_eq ha]
  calc a >>> b.toNat ≤ a >>> min (toU32 s) 63 := shr_anti hnonneg (by omega)
    _ ≤ v >>> min (toU32 s) 63 := shr_mono (le_getMaximumValue hxa v hv)

/-- A count that fits in 32 bits is kept up to 63, where nothing is left. -/
theorem lower_le_phpShr (hl : 0 ≤ l) (ha : InI64 a) (hla : l ≤ a) (hb : 0 ≤ b) (hbs : b ≤ s)
    (hkept : s < 2 ^ 32 ∨ l >>> min (toU32 s) 63 = 0) :
    l >>> min (toU32 s) 63 ≤ phpShr a b := by
  rw [phpShr_eq ha]
  rcases hkept with hsmall | hzero
  · rw [toU32_eq (hb.trans hbs) hsmall]
    by_cases hcount : b.toNat ≤ min s.toNat 63
    · calc l >>> min s.toNat 63 ≤ l >>> b.toNat := shr_anti hl hcount
        _ ≤ a >>> b.toNat := shr_mono hla
    · rw [shr_eq_zero hl (hla.trans ha.2) (by omega)]
      exact shr_nonneg (hl.trans hla)
  · rw [hzero]
    exact shr_nonneg (hl.trans hla)

theorem shrBounds_eq (hx : x.minNonNeg = true) (hy : y.minNonNeg = true)
    (hl : x.getMinimumValue = some l) (h₀ : y.getMinimumValue = some s₀)
    (h₁ : y.getMaximumValue = some s₁) :
    shrBounds x y = fromBounds (some (l >>> min (toU32 s₁) 63))
      (x.getMaximumValue.map fun (v : ℤ) => v >>> min (toU32 s₀) 63) := by
  simp [shrBounds, hx, hy, hl, h₀, h₁]

theorem inI64_shr (h : InI64 a) : InI64 (a >>> n) := by
  rcases le_total 0 a with ha | ha
  · have hnonneg := shr_nonneg (n := n) ha
    have hle : a >>> n ≤ a := Int.shiftRight_le_of_nonneg ha
    exact ⟨le_trans (by decide) hnonneg, hle.trans h.2⟩
  · have hnonpos : a >>> n ≤ 0 := Int.shiftRight_le_of_nonpos ha
    have hle : a ≤ a >>> n := Int.le_shiftRight_of_nonpos ha
    exact ⟨h.1.trans hle, hnonpos.trans (by decide)⟩

theorem wellFormed_shrBounds (hx : x.WellFormed) : (shrBounds x y).WellFormed := by
  unfold shrBounds
  split
  · rename_i hcond
    rw [Bool.and_eq_true] at hcond
    obtain ⟨⟨l, hl, _, hl64, _⟩, hmax⟩ := bounds_of_minNonNeg hx hcond.1
    split
    · apply wellFormed_fromBounds
      · intro v hv
        rw [hl] at hv
        split at hv
        · rw [← Option.mem_some.mp hv]
          exact inI64_shr hl64
        · rw [← Option.mem_some.mp hv]
          decide
      · intro v hv
        obtain ⟨t, ht, rfl⟩ := Option.mem_map.mp hv
        exact inI64_shr (hmax t ht).2
    · trivial
  · trivial

/-- The lowest result is that of the smallest integer and the largest count. -/
theorem shrBounds_iff (hx : x.WellFormed) (hy : y.WellFormed) (hxn : x.minNonNeg = true)
    (hyn : y.minNonNeg = true) (hl : x.getMinimumValue = some l)
    (h₀ : y.getMinimumValue = some s₀) (h₁ : y.getMaximumValue = some s₁)
    (hshr : shr x y = shrBounds x y) :
    ShrSound x y ↔ CountKept l x.getMaximumValue s₀ s₁ := by
  obtain ⟨⟨v, hv, hnonneg, hl64, hleast⟩, _⟩ := bounds_of_minNonNeg hx hxn
  obtain rfl : l = v := Option.some.inj (hl.symm.trans hv)
  obtain ⟨⟨c, hc, hs₀, _, _⟩, hcmax⟩ := bounds_of_minNonNeg hy hyn
  obtain rfl : s₀ = c := Option.some.inj (h₀.symm.trans hc)
  have heq := shrBounds_eq hxn hyn hl h₀ h₁
  constructor
  · intro hsound _ _ hlarge
    by_contra hlost
    obtain ⟨hne, hcross⟩ := not_or.mp hlost
    have hpos : 0 < l >>> min (toU32 s₁) 63 :=
      lt_of_le_of_ne (shr_nonneg hnonneg) (Ne.symm hne)
    have hzero : phpShr l s₁ = 0 := by
      rw [phpShr_eq hl64, shr_eq_zero hnonneg hl64.2 (by omega)]
    have hhas := hsound.2 l s₁ hl64 (hcmax s₁ h₁).2 hleast (has_getMaximumValue hy s₁ h₁)
      (hcmax s₁ h₁).1
    rw [hshr, heq, hzero] at hhas
    cases hu : x.getMaximumValue with
    | none =>
      rw [hu] at hhas
      exact absurd hhas (not_le.mpr hpos)
    | some t =>
      rw [hu] at hhas hcross
      have hle : l >>> min (toU32 s₁) 63 ≤ t >>> min (toU32 s₀) 63 := by
        by_contra hlt
        exact hcross ⟨t, rfl, not_le.mp hlt⟩
      have hin := (has_fromBounds_iff hle).mp hhas
      omega
  · intro hkept
    refine ⟨hshr ▸ wellFormed_shrBounds hx, ?_⟩
    intro a b ha hb hxa hyb hb₀
    rw [hshr, heq]
    have hupper := phpShr_le_upper hxn ha hxa hs₀ (getMinimumValue_le hyb s₀ h₀)
    have hlower := lower_le_phpShr hnonneg ha (getMinimumValue_le hxa l hl) hb₀
      (le_getMaximumValue hyb s₁ h₁)
    have hfine : s₁ < 2 ^ 32 ∨ l >>> min (toU32 s₁) 63 = 0 →
        (fromBounds (some (l >>> min (toU32 s₁) 63))
          (x.getMaximumValue.map fun (v : ℤ) => v >>> min (toU32 s₀) 63)).Has
          (phpShr a b) := by
      intro h
      refine has_fromBounds ?_ hupper
      intro v hv
      rw [← Option.mem_some.mp hv]
      exact hlower h
    rcases lt_or_ge s₁ (2 ^ 32) with hsmall | hlarge
    · exact hfine (Or.inl hsmall)
    rcases hkept hnonneg hs₀ hlarge with hzero | hcross
    · exact hfine (Or.inr hzero)
    · obtain ⟨t, ht, hlt⟩ := hcross
      rw [ht, Option.map_some, fromBounds, if_neg hlt.ne', if_neg (not_lt.mpr hlt.le)]
      trivial

theorem shrBounds_negative (h : ¬ (x.minNonNeg = true ∧ y.minNonNeg = true)) :
    shrBounds x y = unspecified := by
  rw [shrBounds, if_neg]
  rwa [Bool.and_eq_true]

/-- Counts without an upper end may shift everything out. -/
theorem shrSound_of_open (hx : x.WellFormed) (hy : y.getMaximumValue = none)
    (hshr : shr x y = shrBounds x y) : ShrSound x y := by
  by_cases hneg : x.minNonNeg = true ∧ y.minNonNeg = true
  · obtain ⟨hxn, hyn⟩ := hneg
    obtain ⟨s, hs, hs₀⟩ : ∃ s, y.getMinimumValue = some s ∧ 0 ≤ s := by
      rw [minNonNeg, Option.any_eq_true] at hyn
      obtain ⟨s, hs, hs₀⟩ := hyn
      exact ⟨s, hs, by simpa using hs₀⟩
    refine ⟨hshr ▸ wellFormed_shrBounds hx, ?_⟩
    intro a b ha hb hxa hyb hb₀
    have hnonneg := nonneg_of_minNonNeg hxn hxa
    have heq : shrBounds x y = fromBounds (some 0)
        (x.getMaximumValue.map fun (v : ℤ) => v >>> min (toU32 s) 63) := by
      simp [shrBounds, hxn, hyn, hs, hy]
    rw [hshr, heq]
    refine has_fromBounds ?_ (phpShr_le_upper hxn ha hxa hs₀ (getMinimumValue_le hyb s hs))
    intro v hv
    rw [← Option.mem_some.mp hv, phpShr_eq ha]
    exact shr_nonneg hnonneg
  · exact shrSound_unspecified (hshr.trans (shrBounds_negative hneg))

/-- A literal count within 64 bits shifts both ends. -/
theorem shrSound_count (hx : x.WellFormed) (hb : x.isBounded = true) (hs : 0 ≤ s ∧ s < 64) :
    ShrSound x (literal s) := by
  by_cases hzero : s = 0
  · subst hzero
    have hshr : shr x (literal 0) = x := by
      cases x <;> first | rfl | cases hb
    rw [ShrSound, hshr]
    refine ⟨hx, fun a b ha _ hxa hyb _ => ?_⟩
    rw [has_literal] at hyb
    rw [hyb, phpShr_eq ha]
    simpa using hxa
  · have hcount : 1 ≤ s ∧ s < 64 := by omega
    have hshr : shr x (literal s) = shrLiteral x s.toNat := by
      rw [← toU32_eq hs.1 (by omega)]
      cases x <;> simp [isBounded] at hb <;> simp [shr, shrOther, hcount]
    rw [ShrSound, hshr]
    constructor
    · cases x with
      | fromValue l => exact inI64_shr hx
      | toValue u => exact inI64_shr hx
      | range l u =>
        obtain ⟨hl, _, hu⟩ := hx
        exact ⟨min_rec' InI64 (inI64_shr hl) (inI64_shr hu), min_le_max,
          max_rec' InI64 (inI64_shr hl) (inI64_shr hu)⟩
      | _ => cases hb
    · intro a b ha _ hxa hyb _
      rw [has_literal] at hyb
      rw [hyb, phpShr_eq ha]
      cases x with
      | fromValue l => exact shr_mono hxa
      | toValue u => exact shr_mono hxa
      | range l u =>
        obtain ⟨hl, hu⟩ := hxa
        exact ⟨(min_le_left _ _).trans (shr_mono hl), (shr_mono hu).trans (le_max_right _ _)⟩
      | _ => cases hb

theorem shrSound_literal (hl : InI64 l) : ShrSound (literal l) (literal s) := by
  by_cases hs : 0 ≤ s ∧ s < 64
  · have h : shr (literal l) (literal s) = literal (l >>> s.toNat) := by
      simp only [shr, if_neg (not_not.mpr hs), toU32_eq hs.1 (by omega : s < 2 ^ 32)]
    rw [ShrSound, h]
    refine ⟨inI64_shr hl, fun a b ha _ hxa hyb _ => ?_⟩
    rw [has_literal] at hxa hyb ⊢
    rw [phpShr_eq ha, hxa, hyb]
  · apply shrSound_unspecified
    simp only [shr, if_pos hs]

theorem countKept_of_lt (h : s₁ < 2 ^ 32) {u : Option ℤ} : CountKept l u s₀ s₁ := by
  intro _ _ hlarge
  omega

/-- Zero stays zero, and the condition on it holds. -/
theorem shrSound_zero (hy : y.minNonNeg = true) (hlit : ∀ s, y ≠ literal s) :
    ShrSound (literal 0) y := by
  have h : shr (literal 0) y = literal 0 := by
    cases y <;> simp_all [shr, minNonNeg, getMinimumValue]
  rw [ShrSound, h]
  refine ⟨by decide, fun a b ha _ hxa _ _ => ?_⟩
  rw [has_literal] at hxa ⊢
  rw [phpShr_eq ha, hxa, Int.zero_shiftRight]

theorem countKept_zero {u : Option ℤ} : CountKept 0 u s₀ s₁ := by
  intro _ _ _
  exact Or.inl (Int.zero_shiftRight _)

/-- Both ends of the counts are known, and the general case applies. -/
theorem shrSound_bounds_iff (hx : x.WellFormed) (hy : y.WellFormed)
    (hl : x.getMinimumValue = some l) (h₀ : y.getMinimumValue = some s₀)
    (h₁ : y.getMaximumValue = some s₁) (hshr : shr x y = shrBounds x y) :
    ShrSound x y ↔ CountKept l x.getMaximumValue s₀ s₁ := by
  by_cases hneg : x.minNonNeg = true ∧ y.minNonNeg = true
  · exact shrBounds_iff hx hy hneg.1 hneg.2 hl h₀ h₁ hshr
  · refine iff_of_true (shrSound_unspecified (hshr.trans (shrBounds_negative hneg))) ?_
    intro hl₀ hs₀
    exact absurd ⟨by simpa [minNonNeg, hl] using hl₀, by simpa [minNonNeg, h₀] using hs₀⟩ hneg

theorem shr_bounded (hb : x.isBounded = true)
    (hy : ∀ s, y = literal s → ¬ (0 ≤ s ∧ s < 64)) : shr x y = shrBounds x y := by
  cases y with
  | literal s =>
    have hs := hy s rfl
    have hne : s ≠ 0 := by omega
    have hcount : ¬ (1 ≤ s ∧ s < 64) := by omega
    cases x <;> simp [isBounded] at hb <;> simp [shr, shrOther, if_neg hcount]
  | _ => cases x <;> simp [isBounded] at hb <;> simp [shr, shrOther]

/-- The general case with a literal value. -/
theorem shr_literal (hzero : ¬ (l = 0 ∧ y.minNonNeg = true)) (hlit : ∀ s, y ≠ literal s)
    (hy : y ≠ unspecifiedLiteral) : shr (literal l) y = shrBounds (literal l) y := by
  cases y <;> simp_all [shr, shrOther]

theorem shr_unspecified : shr unspecified y = unspecified := by
  have hneg : shrBounds unspecified y = unspecified :=
    shrBounds_negative fun h => by simp [minNonNeg, getMinimumValue] at h
  cases y with
  | literal s =>
    by_cases hs : s = 0
    · subst hs
      rfl
    · by_cases hcount : 1 ≤ s ∧ s < 64
      · simp [shr, shrOther, hcount, shrLiteral]
      · simp [shr, shrOther, if_neg hcount, hneg]
  | _ => simp [shr, shrOther, hneg]

theorem shrSound_of_unspecifiedLiteral : ShrSound unspecifiedLiteral y := by
  have hneg : shrBounds unspecifiedLiteral y = unspecified :=
    shrBounds_negative fun h => by simp [minNonNeg, getMinimumValue] at h
  cases y with
  | literal s => exact shrSound_unspecifiedLiteral (by simp [shr])
  | unspecifiedLiteral => exact shrSound_unspecifiedLiteral rfl
  | _ => exact shrSound_unspecified (by simp [shr, shrOther, hneg])

/-- Counts that may be negative. -/
theorem shrSound_of_counts (hshr : shr x y = shrBounds x y) (hy : y.getMinimumValue = none) :
    ShrSound x y := by
  refine shrSound_unspecified (hshr.trans (shrBounds_negative fun h => ?_))
  rw [minNonNeg, minNonNeg, hy] at h
  cases h.2

theorem shrSound_literal_iff (hl : InI64 l) (hy : y.WellFormed) :
    ShrSound (literal l) y ↔ ShrKeeps (literal l) y := by
  cases y with
  | literal s => exact iff_of_true (shrSound_literal hl) trivial
  | unspecifiedLiteral =>
    exact iff_of_true (shrSound_unspecifiedLiteral (by simp [shr])) trivial
  | unspecified =>
    refine iff_of_true (shrSound_of_counts (shr_literal ?_ (by simp) (by simp)) rfl) trivial
    simp [minNonNeg, getMinimumValue]
  | toValue s =>
    refine iff_of_true (shrSound_of_counts (shr_literal ?_ (by simp) (by simp)) rfl) trivial
    simp [minNonNeg, getMinimumValue]
  | fromValue s =>
    refine iff_of_true ?_ trivial
    by_cases hzero : l = 0 ∧ (fromValue s).minNonNeg = true
    · obtain ⟨rfl, hneg⟩ := hzero
      exact shrSound_zero hneg (by simp)
    · exact shrSound_of_open hl rfl (shr_literal hzero (by simp) (by simp))
  | range s₀ s₁ =>
    by_cases hzero : l = 0 ∧ (range s₀ s₁).minNonNeg = true
    · obtain ⟨rfl, hneg⟩ := hzero
      exact iff_of_true (shrSound_zero hneg (by simp)) countKept_zero
    · exact shrSound_bounds_iff hl hy rfl rfl rfl (shr_literal hzero (by simp) (by simp))

theorem shrKeeps_of_lt (hs : s < 2 ^ 32) : ShrKeeps x (literal s) := by
  cases x <;> first | trivial | exact countKept_of_lt hs

/-- The right shift of a type with ends, by counts of which both ends are known. -/
theorem shrSound_known_iff (hx : x.WellFormed) (hb : x.isBounded = true) (hy : y.WellFormed)
    (h₀ : y.getMinimumValue = some s₀) (h₁ : y.getMaximumValue = some s₁)
    (hshr : shr x y = shrBounds x y) : ShrSound x y ↔ ShrKeeps x y := by
  have hkeeps : ∀ l, x.getMinimumValue = some l →
      (ShrKeeps x y ↔ CountKept l x.getMaximumValue s₀ s₁) := by
    intro l hl
    cases x <;> cases y <;> simp_all [getMinimumValue, getMaximumValue, ShrKeeps, isBounded]
  cases hl : x.getMinimumValue with
  | some l =>
    rw [hkeeps l hl]
    exact shrSound_bounds_iff hx hy hl h₀ h₁ hshr
  | none =>
    refine iff_of_true (shrSound_unspecified (hshr.trans (shrBounds_negative ?_))) ?_
    · intro h
      rw [minNonNeg, hl] at h
      cases h.1
    · cases x <;> simp_all [getMinimumValue, isBounded]
      cases y <;> trivial

theorem shrSound_bounded_iff (hx : x.WellFormed) (hb : x.isBounded = true) (hy : y.WellFormed) :
    ShrSound x y ↔ ShrKeeps x y := by
  by_cases hcount : ∃ s, y = literal s ∧ 0 ≤ s ∧ s < 64
  · obtain ⟨s, rfl, hs⟩ := hcount
    exact iff_of_true (shrSound_count hx hb hs) (shrKeeps_of_lt (by omega))
  have hshr : shr x y = shrBounds x y := by
    apply shr_bounded hb
    intro s h hs
    exact hcount ⟨s, h, hs⟩
  cases y with
  | literal s => exact shrSound_known_iff hx hb hy rfl rfl hshr
  | range s₀ s₁ => exact shrSound_known_iff hx hb hy rfl rfl hshr
  | fromValue s =>
    refine iff_of_true (shrSound_of_open hx rfl hshr) ?_
    cases x <;> trivial
  | _ =>
    refine iff_of_true (shrSound_of_counts hshr rfl) ?_
    cases x <;> trivial

/-- The right shift of types is sound where the largest count is kept. -/
theorem shrSound_iff (hx : x.WellFormed) (hy : y.WellFormed) :
    ShrSound x y ↔ ShrKeeps x y := by
  cases x with
  | literal l => exact shrSound_literal_iff hx hy
  | unspecified =>
    refine iff_of_true (shrSound_unspecified shr_unspecified) ?_
    cases y <;> trivial
  | unspecifiedLiteral =>
    refine iff_of_true shrSound_of_unspecifiedLiteral ?_
    cases y <;> trivial
  | _ => exact shrSound_bounded_iff hx rfl hy

/-- Both shifts are sound exactly where the left shift keeps its bounds and the right shift its
largest count. -/
theorem shift_sound_iff (hx : x.WellFormed) (hy : y.WellFormed) :
    ShlSound x y ∧ ShrSound x y ↔ ShlKeeps x y ∧ ShrKeeps x y :=
  and_congr (shlSound_iff hx hy) (shrSound_iff hx hy)

theorem shift_sound_iff_range :
    ShlSound (range 1 5) (range 0 3) ∧ ShrSound (range 1 5) (range 0 3) ↔
      ShlKeeps (range 1 5) (range 0 3) ∧ ShrKeeps (range 1 5) (range 0 3) :=
  shift_sound_iff (by decide) (by decide)

/-- A positive integer shifted by one place may become the smallest integer. -/
theorem shift_not_sound : ¬ ∀ x y : TInteger, x.WellFormed → y.WellFormed →
    ShlSound x y ∧ ShrSound x y := by
  intro h
  obtain ⟨⟨_, hshl⟩, _⟩ := h (fromValue 1) (literal 1) (by decide) (by decide)
  have hwrong := hshl (2 ^ 62) 1 (by decide) (by decide) (by decide) rfl (by decide)
  exact absurd hwrong (by decide)

end Right

end TInteger

end Mago.Types
