import Mago.Types.Arithmetic
import Mathlib

/-!
# Quotient and remainder of integer types

Truncating division of 64-bit integers fails on a zero divisor and where the quotient is no
64-bit integer. The operators on types guard some of these inputs, not all.
-/
namespace Mago.Types

open Mago.Library

/-- A result out of range is an overflow. -/
def checked (n : ℤ) : Option ℤ := if InI64 n then some n else none

def checkedDiv (a b : ℤ) : Option ℤ := if b = 0 then none else checked (a.tdiv b)

/-- The remainder fails where the quotient does. -/
def checkedRem (a b : ℤ) : Option ℤ :=
  if b = 0 ∨ (a = i64Min ∧ b = -1) then none else some (a.tmod b)

section Truncation

variable {a b c l u : ℤ}

theorem checked_eq (h : InI64 a) : checked a = some a := if_pos h

theorem tdiv_le_tdiv_of_neg (hc : c < 0) (hab : a ≤ b) : b.tdiv c ≤ a.tdiv c := by
  have h := Int.tdiv_le_tdiv (c := -c) (by omega) hab
  simp only [Int.tdiv_neg] at h
  exact neg_le_neg_iff.mp h

theorem oneWay_tdiv_left (hb : b ≠ 0) : OneWay (fun x : ℤ => x.tdiv b) l u := by
  rcases lt_or_gt_of_ne hb with hb | hb
  · exact Or.inr fun x _ y _ hxy => tdiv_le_tdiv_of_neg hb hxy
  · exact Or.inl fun x _ y _ hxy => Int.tdiv_le_tdiv hb hxy

/-- On either side of zero the quotients of a nonnegative number fall as the divisor rises. -/
theorem tdiv_le_tdiv_of_nonneg (ha : 0 ≤ a) (hbc : b ≤ c) (hside : 0 < b ∨ c < 0) :
    a.tdiv c ≤ a.tdiv b := by
  have hpos : ∀ b c : ℤ, 0 < b → b ≤ c → a.tdiv c ≤ a.tdiv b := by
    intro b c hb hbc
    have hc : 0 < c := hb.trans_le hbc
    rw [Int.tdiv_eq_ediv_of_nonneg ha, Int.tdiv_eq_ediv_of_nonneg ha]
    apply Int.le_ediv_of_mul_le hb
    calc a / c * b ≤ a / c * c := mul_le_mul_of_nonneg_left hbc (Int.ediv_nonneg ha hc.le)
      _ ≤ a := Int.ediv_mul_le a hc.ne'
  rcases hside with hb | hc
  · exact hpos b c hb hbc
  · have h := hpos (-c) (-b) (by omega) (by omega)
    simp only [Int.tdiv_neg] at h
    exact neg_le_neg_iff.mp h

theorem tdiv_le_tdiv_of_nonpos (ha : a ≤ 0) (hbc : b ≤ c) (hside : 0 < b ∨ c < 0) :
    a.tdiv b ≤ a.tdiv c := by
  have h := tdiv_le_tdiv_of_nonneg (a := -a) (by omega) hbc hside
  simp only [Int.neg_tdiv] at h
  exact neg_le_neg_iff.mp h

theorem oneWay_tdiv_right (hside : 0 < l ∨ u < 0) : OneWay a.tdiv l u := by
  rcases le_total 0 a with ha | ha
  · refine Or.inr fun x hx y hy hxy => tdiv_le_tdiv_of_nonneg ha hxy ?_
    exact hside.imp (fun h => h.trans_le hx.1) (fun h => hy.2.trans_lt h)
  · refine Or.inl fun x hx y hy hxy => tdiv_le_tdiv_of_nonpos ha hxy ?_
    exact hside.imp (fun h => h.trans_le hx.1) (fun h => hy.2.trans_lt h)

theorem tdiv_nonpos_of_nonpos (ha : a ≤ 0) (hb : 0 ≤ b) : a.tdiv b ≤ 0 := by
  have h := Int.tdiv_nonneg (a := -a) (by omega) hb
  rw [Int.neg_tdiv] at h
  omega

/-- Only the quotient of the smallest integer by -1 is out of range. -/
theorem inI64_tdiv (ha : InI64 a) (hb : b ≠ 0) (h : ¬ (a = i64Min ∧ b = -1)) :
    InI64 (a.tdiv b) := by
  have habs := Int.natAbs_tdiv_le_natAbs a b
  by_cases hmin : a = i64Min
  · rcases lt_trichotomy b 0 with hneg | hzero | hpos
    · -- the quotient is at most half as large
      have hhalf : (a.tdiv b).natAbs ≤ a.natAbs / 2 := by
        rw [Int.natAbs_tdiv]
        exact Nat.div_le_div_left (by omega) (by decide)
      unfold InI64 i64Min i64Max at *
      omega
    · exact absurd hzero hb
    · have hquot := tdiv_nonpos_of_nonpos (a := a) (by subst hmin; decide) hpos.le
      unfold InI64 i64Min i64Max at *
      omega
  · unfold InI64 i64Min i64Max at *
    omega

theorem checkedDiv_eq (ha : InI64 a) (hb : b ≠ 0) (h : ¬ (a = i64Min ∧ b = -1)) :
    checkedDiv a b = some (a.tdiv b) := by
  rw [checkedDiv, if_neg hb, checked_eq (inI64_tdiv ha hb h)]

theorem eq_of_checked (h : checked a = some c) : c = a := by
  unfold checked at h
  split at h
  · exact (Option.some.inj h).symm
  · cases h

theorem eq_of_checkedDiv (h : checkedDiv a b = some c) : c = a.tdiv b := by
  unfold checkedDiv at h
  split at h
  · cases h
  · exact eq_of_checked h

theorem checkedDiv_eq_none_iff (ha : InI64 a) (hb : b ≠ 0) :
    checkedDiv a b = none ↔ a = i64Min ∧ b = -1 := by
  constructor
  · intro h
    by_contra hguard
    rw [checkedDiv_eq ha hb hguard] at h
    cases h
  · intro h
    obtain ⟨rfl, rfl⟩ := h
    decide

/-- A computation that starts with a quotient fails there or goes on with it. -/
theorem bind_checkedDiv_eq_none_iff {γ : Type*} {k : ℤ → Option γ} :
    (checkedDiv a b).bind k = none ↔ checkedDiv a b = none ∨ k (a.tdiv b) = none := by
  cases h : checkedDiv a b with
  | none => simp
  | some v =>
    rw [eq_of_checkedDiv h]
    simp

theorem checkedRem_eq (hb : b ≠ 0) (h : ¬ (a = i64Min ∧ b = -1)) :
    checkedRem a b = some (a.tmod b) := by
  rw [checkedRem, if_neg (by tauto)]

/-- The steps from a divisor to the largest remainder. -/
theorem checked_abs (ha : InI64 a) (hmin : a ≠ i64Min) (h₀ : a ≠ 0) :
    checked |a| = some |a| ∧ checked (|a| - 1) = some (|a| - 1) ∧
      checked (-(|a| - 1)) = some (-(|a| - 1)) := by
  have habs : |a| ≤ i64Max ∧ 1 ≤ |a| := by
    rw [Int.abs_eq_natAbs]
    unfold InI64 i64Min i64Max at *
    omega
  unfold InI64 i64Min i64Max at *
  refine ⟨checked_eq ?_, checked_eq ?_, checked_eq ?_⟩ <;>
    unfold InI64 i64Min i64Max <;> omega

/-- Where a remainder lies: on the side of the dividend, no further from zero than it, and
nearer to zero than the divisor. -/
theorem tmod_bounds (hb : b ≠ 0) :
    (0 ≤ a → 0 ≤ a.tmod b ∧ a.tmod b ≤ a) ∧ (a ≤ 0 → a ≤ a.tmod b ∧ a.tmod b ≤ 0) ∧
      -|b| < a.tmod b ∧ a.tmod b < |b| := by
  have heq := Int.natAbs_tmod a b
  have hlt : a.natAbs % b.natAbs < b.natAbs := Nat.mod_lt _ (by omega)
  have hle := Nat.mod_le a.natAbs b.natAbs
  have hpos : 0 ≤ a → 0 ≤ a.tmod b := Int.tmod_nonneg b
  have hneg : a ≤ 0 → 0 ≤ (-a).tmod b := fun h => Int.tmod_nonneg b (by omega)
  rw [Int.neg_tmod] at hneg
  rw [Int.abs_eq_natAbs]
  omega

end Truncation

namespace TInteger

/-- The quotient by a type without zero. -/
def divNonzero (self rhs : TInteger) : Option TInteger :=
  match self, rhs with
  | literal l₁, literal l₂ =>
    if l₁ = 0 then some (literal 0)
    else if l₁ = i64Min ∧ l₂ = -1 then some unspecified
    else do
      let v ← checkedDiv l₁ l₂
      return literal v
  | literal l, fromValue f => do
    let v ← checkedDiv l f
    if v = 0 then return literal 0
    else if 0 ≤ l then return range 0 v
    else return range v 0
  | literal l, toValue t => do
    let v ← checkedDiv l t
    if 0 ≤ l then return range v 0 else return range 0 v
  | fromValue f, literal l => do
    let v ← checkedDiv f l
    if 0 < l then return fromValue v else return toValue v
  | toValue t, literal l => do
    let v ← checkedDiv t l
    if 0 < l then return toValue v else return fromValue v
  | range f t, literal l => do
    let vf ← checkedDiv f l
    let vt ← checkedDiv t l
    if 0 < l then return range vf vt else return range vt vf
  | literal l, range f t => do
    let p₁ ← checkedDiv l f
    let p₂ ← checkedDiv l t
    return range (min p₁ p₂) (max p₁ p₂)
  | range f₁ t₁, range f₂ t₂ => do
    let p₁ ← checkedDiv f₁ f₂
    let p₂ ← checkedDiv f₁ t₂
    let p₃ ← checkedDiv t₁ f₂
    let p₄ ← checkedDiv t₁ t₂
    return range (min (min p₁ p₂) (min p₃ p₄)) (max (max p₁ p₂) (max p₃ p₄))
  | _, _ => some unspecified

/-- Nothing is returned where the program fails. -/
def div (self rhs : TInteger) : Option TInteger :=
  match self, rhs with
  | unspecified, _ | _, unspecified => some unspecified
  | unspecifiedLiteral, unspecifiedLiteral | literal _, unspecifiedLiteral
  | unspecifiedLiteral, literal _ =>
    if rhs.canBeZero then some unspecified else some unspecifiedLiteral
  | unspecifiedLiteral, _ | _, unspecifiedLiteral => some unspecified
  | _, _ => if rhs.canBeZero then some unspecified else divNonzero self rhs

/-- The remainder of any integer. -/
def remUnspecified : TInteger → Option TInteger
  | unspecified => some unspecified
  | unspecifiedLiteral => some unspecified
  | literal n =>
    if n = 0 then some unspecified
    else do
      let a ← checked |n|
      let v ← checked (a - 1)
      let w ← checked (-v)
      return range w v
  | fromValue _ => some unspecified
  | toValue _ => some unspecified
  | range n₁ n₂ =>
    if n₁ ≤ 0 ∧ 0 ≤ n₂ then some unspecified
    else if 0 < n₁ then do
      let v ← checked (n₂ - 1)
      let w ← checked (-v)
      return range w v
    else some (range (saturatingAdd n₁ 1) (saturatingSub (saturatingNeg n₁) 1))

/-- The remainder by a type without zero. -/
def remNonzero (self rhs : TInteger) : Option TInteger :=
  match self, rhs with
  | literal l₁, literal l₂ =>
    if l₁ = i64Min ∧ l₂ = -1 then some unspecified
    else do
      let v ← checkedRem l₁ l₂
      return literal v
  | _, literal 1 | _, literal (-1) => some (literal 0)
  | literal l, fromValue f =>
    if 0 < f then
      if 0 ≤ l then some (range 0 l) else some (range l 0)
    else some unspecified
  | fromValue f, literal l =>
    if 0 < l then do
      let v ← checked (l - 1)
      if 0 ≤ f then return range 0 v
      else
        let w ← checked (-v)
        return range w v
    else if 0 ≤ f then some (range 0 (saturatingSub (saturatingNeg l) 1))
    else some (range (saturatingAdd l 1) (saturatingSub (saturatingNeg l) 1))
  | toValue t, literal l => do
    let a ← checked |l|
    let v ← checked (a - 1)
    let w ← checked (-v)
    if t ≤ 0 then return range w 0 else return range w v
  | range f t, literal l => do
    let a ← checked |l|
    let v ← checked (a - 1)
    if 0 ≤ f then return range 0 (min v t)
    else
      let w ← checked (-v)
      if t ≤ 0 then return range (max w f) 0 else return range w v
  | _, _ => some unspecified

def rem (self rhs : TInteger) : Option TInteger :=
  match self, rhs with
  | unspecifiedLiteral, unspecifiedLiteral | literal _, unspecifiedLiteral
  | unspecifiedLiteral, literal _ =>
    if rhs.canBeZero then some unspecified else some unspecifiedLiteral
  | unspecifiedLiteral, _ | _, unspecifiedLiteral => some unspecified
  | unspecified, other => remUnspecified other
  | _, unspecified => some unspecified
  | _, _ => if rhs.canBeZero then some unspecified else remNonzero self rhs

section Sound

variable {x y q : TInteger}

/-- Every quotient that is a 64-bit integer is one of the type. -/
def DivSound (x y q : TInteger) : Prop :=
  ∀ a b, InI64 a → InI64 b → x.Has a → y.Has b → b ≠ 0 → InI64 (a.tdiv b) → q.Has (a.tdiv b)

theorem divSound_unspecified : DivSound x y unspecified := fun _ _ _ _ _ _ _ _ => trivial

theorem literal_div_from {l f : ℤ} (hf : 0 < f) (h : divNonzero (literal l) (fromValue f) = some q) :
    DivSound (literal l) (fromValue f) q := by
  intro a b _ _ ha hb _ _
  rw [has_literal] at ha
  rw [has_fromValue] at hb
  subst ha
  simp only [divNonzero, Option.bind_eq_bind, Option.bind_eq_some_iff] at h
  obtain ⟨v, hv, h⟩ := h
  have hv := eq_of_checkedDiv hv
  subst hv
  have hb₀ : 0 ≤ b := by omega
  rcases le_or_gt 0 a with ha | ha
  · have hle := tdiv_le_tdiv_of_nonneg ha hb (Or.inl hf)
    have hnonneg := Int.tdiv_nonneg ha hb₀
    split_ifs at h <;> cases h <;> simp <;> omega
  · have hle := tdiv_le_tdiv_of_nonpos ha.le hb (Or.inl hf)
    have hnonpos := tdiv_nonpos_of_nonpos ha.le hb₀
    split_ifs at h <;> cases h <;> simp <;> omega

theorem literal_div_to {l t : ℤ} (ht : t < 0) (h : divNonzero (literal l) (toValue t) = some q) :
    DivSound (literal l) (toValue t) q := by
  intro a b _ _ ha hb _ _
  rw [has_literal] at ha
  rw [has_toValue] at hb
  subst ha
  simp only [divNonzero, Option.bind_eq_bind, Option.bind_eq_some_iff] at h
  obtain ⟨v, hv, h⟩ := h
  have hv := eq_of_checkedDiv hv
  subst hv
  have hb₀ : b ≤ 0 := by omega
  rcases le_or_gt 0 a with ha | ha
  · have hle := tdiv_le_tdiv_of_nonneg ha hb (Or.inr ht)
    have hnonpos := Int.tdiv_nonpos_of_nonneg_of_nonpos ha hb₀
    rw [if_pos ha] at h
    cases h
    exact ⟨hle, hnonpos⟩
  · have hle := tdiv_le_tdiv_of_nonpos ha.le hb (Or.inr ht)
    have hnonneg := Int.tdiv_nonneg_of_nonpos_of_nonpos ha.le hb₀
    rw [if_neg (by omega)] at h
    cases h
    exact ⟨hnonneg, hle⟩

/-- A type divided by a literal: its ends are divided, and change places where the literal is
negative. -/
theorem div_literal {l : ℤ} (hl : l ≠ 0) (h : divNonzero x (literal l) = some q) :
    DivSound x (literal l) q := by
  intro a b _ _ ha hb _ _
  rw [has_literal] at hb
  subst hb
  have hpos : ∀ c d : ℤ, 0 < b → c ≤ d → c.tdiv b ≤ d.tdiv b := fun c d => Int.tdiv_le_tdiv
  have hneg : ∀ c d : ℤ, ¬ 0 < b → c ≤ d → d.tdiv b ≤ c.tdiv b := by
    intro c d hb hcd
    exact tdiv_le_tdiv_of_neg (by omega) hcd
  cases x with
  | unspecified => cases h; trivial
  | unspecifiedLiteral => cases h; trivial
  | literal l =>
    rw [has_literal] at ha
    subst ha
    simp only [divNonzero] at h
    split_ifs at h with h₁ h₂
    · cases h
      simp [h₁]
    · cases h
      trivial
    · simp only [Option.bind_eq_bind, Option.bind_eq_some_iff] at h
      obtain ⟨v, hv, h⟩ := h
      cases h
      exact (eq_of_checkedDiv hv).symm
  | fromValue f =>
    simp only [divNonzero, Option.bind_eq_bind, Option.bind_eq_some_iff] at h
    obtain ⟨v, hv, h⟩ := h
    have hv := eq_of_checkedDiv hv
    subst hv
    split_ifs at h with hb <;> cases h
    · exact hpos _ _ hb ha
    · exact hneg _ _ hb ha
  | toValue t =>
    simp only [divNonzero, Option.bind_eq_bind, Option.bind_eq_some_iff] at h
    obtain ⟨v, hv, h⟩ := h
    have hv := eq_of_checkedDiv hv
    subst hv
    split_ifs at h with hb <;> cases h
    · exact hpos _ _ hb ha
    · exact hneg _ _ hb ha
  | range f t =>
    obtain ⟨hf, ht⟩ := ha
    simp only [divNonzero, Option.bind_eq_bind, Option.bind_eq_some_iff] at h
    obtain ⟨v, hv, w, hw, h⟩ := h
    have hv := eq_of_checkedDiv hv
    have hw := eq_of_checkedDiv hw
    subst hv hw
    split_ifs at h with hb <;> cases h
    · exact ⟨hpos _ _ hb hf, hpos _ _ hb ht⟩
    · exact ⟨hneg _ _ hb ht, hneg _ _ hb hf⟩

theorem literal_div_range {l f t : ℤ} (hz : 0 < f ∨ t < 0)
    (h : divNonzero (literal l) (range f t) = some q) : DivSound (literal l) (range f t) q := by
  intro a b _ _ ha hb _ _
  rw [has_literal] at ha
  subst ha
  simp only [divNonzero, Option.bind_eq_bind, Option.bind_eq_some_iff] at h
  obtain ⟨v, hv, w, hw, h⟩ := h
  have hv := eq_of_checkedDiv hv
  have hw := eq_of_checkedDiv hw
  subst hv hw
  cases h
  exact (oneWay_tdiv_right hz).between hb

theorem range_div_range {f₁ t₁ f₂ t₂ : ℤ} (hz : 0 < f₂ ∨ t₂ < 0)
    (h : divNonzero (range f₁ t₁) (range f₂ t₂) = some q) :
    DivSound (range f₁ t₁) (range f₂ t₂) q := by
  intro a b _ _ ha hb hb₀ _
  simp only [divNonzero, Option.bind_eq_bind, Option.bind_eq_some_iff] at h
  obtain ⟨p₁, h₁, p₂, h₂, p₃, h₃, p₄, h₄, h⟩ := h
  have h₁ := eq_of_checkedDiv h₁
  have h₂ := eq_of_checkedDiv h₂
  have h₃ := eq_of_checkedDiv h₃
  have h₄ := eq_of_checkedDiv h₄
  subst h₁ h₂ h₃ h₄
  cases h
  exact between_corners (oneWay_tdiv_left hb₀) (fun _ => oneWay_tdiv_right hz) ha hb

theorem divNonzero_sound (hz : y.canBeZero = false) (h : divNonzero x y = some q) :
    DivSound x y q := by
  cases y with
  | unspecified => cases hz
  | unspecifiedLiteral =>
    rw [show divNonzero x unspecifiedLiteral = some unspecified by cases x <;> rfl] at h
    cases h
    exact divSound_unspecified
  | literal l =>
    simp only [canBeZero, decide_eq_false_iff_not] at hz
    exact div_literal hz h
  | fromValue f =>
    simp only [canBeZero, decide_eq_false_iff_not, not_le] at hz
    cases x with
    | literal l => exact literal_div_from hz h
    | _ => cases h; exact divSound_unspecified
  | toValue t =>
    simp only [canBeZero, decide_eq_false_iff_not, not_le] at hz
    cases x with
    | literal l => exact literal_div_to hz h
    | _ => cases h; exact divSound_unspecified
  | range f t =>
    simp only [canBeZero, Bool.and_eq_false_iff, decide_eq_false_iff_not, not_le] at hz
    cases x with
    | literal l => exact literal_div_range hz h
    | range f₁ t₁ => exact range_div_range hz h
    | _ => cases h; exact divSound_unspecified

/-- What division returns holds the quotients. -/
theorem div_sound (h : div x y = some q) : DivSound x y q := by
  by_cases hz : y.canBeZero = true
  · have hq : q = unspecified := by
      cases x <;> cases y <;> simp [div, canBeZero] at h hz <;> simp_all
    rw [hq]
    exact divSound_unspecified
  · rw [Bool.not_eq_true] at hz
    cases x <;> cases y <;> simp [div, hz] at h <;>
      first
        | exact divNonzero_sound hz h
        | (subst h; exact divSound_unspecified)

/-- The dividend ends at the smallest integer and the divisor at -1, and they are not both
literals. -/
def DivOverflows : TInteger → TInteger → Prop
  | fromValue f, literal l => f = i64Min ∧ l = -1
  | toValue t, literal l => t = i64Min ∧ l = -1
  | range f _, literal l => f = i64Min ∧ l = -1
  | literal l, toValue t => l = i64Min ∧ t = -1
  | literal l, range _ t => l = i64Min ∧ t = -1
  | range f _, range _ t => f = i64Min ∧ t = -1
  | _, _ => False

theorem divNonzero_eq_none_iff (hx : x.WellFormed) (hy : y.WellFormed)
    (hz : y.canBeZero = false) : divNonzero x y = none ↔ DivOverflows x y := by
  cases y with
  | unspecified => cases hz
  | unspecifiedLiteral => cases x <;> simp [divNonzero, DivOverflows]
  | literal l =>
    simp only [canBeZero, decide_eq_false_iff_not] at hz
    cases x with
    | unspecified => simp [divNonzero, DivOverflows]
    | unspecifiedLiteral => simp [divNonzero, DivOverflows]
    | literal l₁ =>
      simp only [divNonzero, DivOverflows, iff_false]
      split_ifs with h₁ h₂
      · simp
      · simp
      · simp [checkedDiv_eq hx hz h₂]
    | range f t =>
      obtain ⟨hf, hle, ht⟩ := hx
      have hmin := hf.1
      simp only [divNonzero, DivOverflows, Option.bind_eq_bind, bind_checkedDiv_eq_none_iff,
        checkedDiv_eq_none_iff hf hz, checkedDiv_eq_none_iff ht hz]
      split_ifs <;> simp <;> omega
    | fromValue f =>
      simp only [divNonzero, DivOverflows, Option.bind_eq_bind, bind_checkedDiv_eq_none_iff,
        checkedDiv_eq_none_iff hx hz]
      split_ifs <;> simp
    | toValue t =>
      simp only [divNonzero, DivOverflows, Option.bind_eq_bind, bind_checkedDiv_eq_none_iff,
        checkedDiv_eq_none_iff hx hz]
      split_ifs <;> simp
  | fromValue f =>
    simp only [canBeZero, decide_eq_false_iff_not, not_le] at hz
    cases x with
    | literal l =>
      simp only [divNonzero, DivOverflows, Option.bind_eq_bind, bind_checkedDiv_eq_none_iff,
        checkedDiv_eq_none_iff hx hz.ne']
      split_ifs <;> simp <;> omega
    | _ => simp [divNonzero, DivOverflows]
  | toValue t =>
    simp only [canBeZero, decide_eq_false_iff_not, not_le] at hz
    cases x with
    | literal l =>
      simp only [divNonzero, DivOverflows, Option.bind_eq_bind, bind_checkedDiv_eq_none_iff,
        checkedDiv_eq_none_iff hx hz.ne]
      split_ifs <;> simp
    | _ => simp [divNonzero, DivOverflows]
  | range f t =>
    simp only [canBeZero, Bool.and_eq_false_iff, decide_eq_false_iff_not, not_le] at hz
    have hle := hy.2.1
    have hf₀ : f ≠ 0 := by omega
    have ht₀ : t ≠ 0 := by omega
    cases x with
    | literal l =>
      simp only [divNonzero, DivOverflows, Option.bind_eq_bind, bind_checkedDiv_eq_none_iff,
        checkedDiv_eq_none_iff hx hf₀, checkedDiv_eq_none_iff hx ht₀]
      simp
      omega
    | range f₁ t₁ =>
      obtain ⟨hf₁, hle₁, ht₁⟩ := hx
      have hmin := hf₁.1
      simp only [divNonzero, DivOverflows, Option.bind_eq_bind, bind_checkedDiv_eq_none_iff,
        checkedDiv_eq_none_iff hf₁ hf₀, checkedDiv_eq_none_iff hf₁ ht₀,
        checkedDiv_eq_none_iff ht₁ hf₀, checkedDiv_eq_none_iff ht₁ ht₀]
      simp
      omega
    | _ => simp [divNonzero, DivOverflows]

/-- A divisor that ends at -1 excludes zero. -/
theorem canBeZero_of_divOverflows (h : DivOverflows x y) : y.canBeZero = false := by
  cases x <;> cases y <;> simp_all [DivOverflows, canBeZero]

/-- Division fails on these types only. -/
theorem div_eq_none_iff (hx : x.WellFormed) (hy : y.WellFormed) :
    div x y = none ↔ DivOverflows x y := by
  by_cases hz : y.canBeZero = true
  · have hno : ¬ DivOverflows x y := by
      intro h
      rw [canBeZero_of_divOverflows h] at hz
      cases hz
    cases x <;> cases y <;> simp [div, hno, hz]
  · rw [Bool.not_eq_true] at hz
    rw [← divNonzero_eq_none_iff hx hy hz]
    cases x <;> cases y <;> simp only [div, hz, Bool.false_eq_true, if_false] <;>
      simp [divNonzero]

/-- Every remainder is one of the type. -/
def RemSound (x y q : TInteger) : Prop :=
  ∀ a b, InI64 a → InI64 b → x.Has a → y.Has b → b ≠ 0 → q.Has (a.tmod b)

theorem remSound_unspecified : RemSound x y unspecified := fun _ _ _ _ _ _ _ => trivial

/-- The remainder is computed and holds what it should. -/
def RemCorrect (x y : TInteger) : Prop := ∃ q, rem x y = some q ∧ RemSound x y q

theorem remUnspecified_correct (hy : y.WellFormed) (hmin : y ≠ literal i64Min)
    (hneg : ∀ n, y = range i64Min n → 0 ≤ n) :
    ∃ q, remUnspecified y = some q ∧ RemSound unspecified y q := by
  cases y with
  | literal n =>
    by_cases hn : n = 0
    · exact ⟨unspecified, by simp [remUnspecified, hn], remSound_unspecified⟩
    have hne : n ≠ i64Min := fun h => hmin (by rw [h])
    obtain ⟨h₁, h₂, h₃⟩ := checked_abs hy hne hn
    refine ⟨range (-(|n| - 1)) (|n| - 1), ?_, ?_⟩
    · simp only [remUnspecified, if_neg hn, h₁, h₂, h₃, Option.bind_eq_bind, Option.bind_some]
      rfl
    intro a b _ _ _ hb hb₀
    rw [has_literal] at hb
    subst hb
    have hbounds := tmod_bounds (a := a) hb₀
    rw [has_range]
    omega
  | range n₁ n₂ =>
    obtain ⟨hn₁, hle, hn₂⟩ := hy
    by_cases hz : n₁ ≤ 0 ∧ 0 ≤ n₂
    · exact ⟨unspecified, by simp [remUnspecified, hz], remSound_unspecified⟩
    by_cases hpos : 0 < n₁
    · have h₁ : checked (n₂ - 1) = some (n₂ - 1) := by
        apply checked_eq
        unfold InI64 i64Min i64Max at *
        omega
      have h₂ : checked (-(n₂ - 1)) = some (-(n₂ - 1)) := by
        apply checked_eq
        unfold InI64 i64Min i64Max at *
        omega
      refine ⟨range (-(n₂ - 1)) (n₂ - 1), ?_, ?_⟩
      · simp only [remUnspecified, if_neg hz, if_pos hpos, h₁, h₂, Option.bind_eq_bind,
          Option.bind_some]
        rfl
      · intro a b _ _ _ hb hb₀
        have hbounds := tmod_bounds (a := a) hb₀
        rw [has_range] at hb ⊢
        rw [abs_of_pos (by omega)] at hbounds
        omega
    · have hne : n₁ ≠ i64Min := by
        intro h
        subst h
        have := hneg n₂ rfl
        unfold i64Min at hz
        omega
      refine ⟨_, by rw [remUnspecified, if_neg hz, if_neg hpos], ?_⟩
      intro a b _ _ _ hb hb₀
      have hbounds := tmod_bounds (a := a) hb₀
      rw [has_range] at hb ⊢
      rw [abs_of_neg (by omega)] at hbounds
      unfold InI64 i64Min i64Max at *
      simp only [saturatingAdd, saturatingSub, saturatingNeg, i64Min, i64Max]
      omega
  | _ => exact ⟨unspecified, rfl, remSound_unspecified⟩

/-- Every integer leaves no remainder by 1 and by -1. -/
theorem remSound_unit {l : ℤ} (hl : l = 1 ∨ l = -1) : RemSound x (literal l) (literal 0) := by
  intro a b _ _ _ hb _
  rw [has_literal] at hb ⊢
  rcases hl with rfl | rfl
  · rw [hb, Int.tmod_one]
  · rw [hb, Int.tmod_neg, Int.tmod_one]

theorem literal_rem_from {l f : ℤ} (hf : 0 < f) :
    ∃ q, remNonzero (literal l) (fromValue f) = some q ∧
      RemSound (literal l) (fromValue f) q := by
  by_cases hl : 0 ≤ l
  · refine ⟨range 0 l, by simp [remNonzero, hf, hl], ?_⟩
    intro a b _ _ ha hb hb₀
    rw [has_literal] at ha
    subst ha
    have hbounds := tmod_bounds (a := a) hb₀
    rw [has_range]
    omega
  · refine ⟨range l 0, by simp [remNonzero, hf, hl], ?_⟩
    intro a b _ _ ha hb hb₀
    rw [has_literal] at ha
    subst ha
    have hbounds := tmod_bounds (a := a) hb₀
    rw [has_range]
    omega

theorem from_rem_literal {f l : ℤ} (hl : InI64 l) (hl₀ : l ≠ 0) (hmin : l ≠ i64Min) :
    ∃ q, remNonzero (fromValue f) (literal l) = some q ∧
      RemSound (fromValue f) (literal l) q := by
  by_cases hunit : l = 1 ∨ l = -1
  · refine ⟨literal 0, ?_, remSound_unit hunit⟩
    rcases hunit with rfl | rfl <;> rfl
  obtain ⟨hne₁, hne₂⟩ := not_or.mp hunit
  obtain ⟨h₁, h₂, h₃⟩ := checked_abs hl hmin hl₀
  by_cases hpos : 0 < l
  · rw [abs_of_pos hpos] at h₂ h₃
    by_cases hf : 0 ≤ f
    · refine ⟨range 0 (l - 1), ?_, ?_⟩
      · simp only [remNonzero, if_pos hpos, if_pos hf, h₂, Option.bind_eq_bind, Option.bind_some]
        rfl
      · intro a b _ _ ha hb hb₀
        have hbounds := tmod_bounds (a := a) hb₀
        rw [has_literal] at hb
        rw [has_fromValue] at ha
        subst hb
        rw [abs_of_pos hpos] at hbounds
        rw [has_range]
        omega
    · refine ⟨range (-(l - 1)) (l - 1), ?_, ?_⟩
      · simp only [remNonzero, if_pos hpos, if_neg hf, h₂, h₃, Option.bind_eq_bind,
          Option.bind_some]
        rfl
      · intro a b _ _ ha hb hb₀
        have hbounds := tmod_bounds (a := a) hb₀
        rw [has_literal] at hb
        subst hb
        rw [abs_of_pos hpos] at hbounds
        rw [has_range]
        omega
  · have hneg : l < 0 := by omega
    by_cases hf : 0 ≤ f
    · refine ⟨range 0 (saturatingSub (saturatingNeg l) 1), by
        simp [remNonzero, hpos, hf], ?_⟩
      intro a b _ _ ha hb hb₀
      have hbounds := tmod_bounds (a := a) hb₀
      rw [has_literal] at hb
      rw [has_fromValue] at ha
      subst hb
      rw [abs_of_neg hneg] at hbounds
      rw [has_range]
      unfold InI64 i64Min i64Max at *
      simp only [saturatingSub, saturatingNeg, i64Min, i64Max]
      omega
    · refine ⟨range (saturatingAdd l 1) (saturatingSub (saturatingNeg l) 1), by
        simp [remNonzero, hpos, hf], ?_⟩
      intro a b _ _ ha hb hb₀
      have hbounds := tmod_bounds (a := a) hb₀
      rw [has_literal] at hb
      subst hb
      rw [abs_of_neg hneg] at hbounds
      rw [has_range]
      unfold InI64 i64Min i64Max at *
      simp only [saturatingAdd, saturatingSub, saturatingNeg, i64Min, i64Max]
      omega

theorem to_rem_literal {t l : ℤ} (hl : InI64 l) (hl₀ : l ≠ 0) (hmin : l ≠ i64Min) :
    ∃ q, remNonzero (toValue t) (literal l) = some q ∧
      RemSound (toValue t) (literal l) q := by
  by_cases hunit : l = 1 ∨ l = -1
  · refine ⟨literal 0, ?_, remSound_unit hunit⟩
    rcases hunit with rfl | rfl <;> rfl
  obtain ⟨hne₁, hne₂⟩ := not_or.mp hunit
  obtain ⟨h₁, h₂, h₃⟩ := checked_abs hl hmin hl₀
  by_cases ht : t ≤ 0
  · refine ⟨range (-(|l| - 1)) 0, ?_, ?_⟩
    · simp only [remNonzero, if_pos ht, h₁, h₂, h₃, Option.bind_eq_bind, Option.bind_some]
      rfl
    · intro a b _ _ ha hb hb₀
      have hbounds := tmod_bounds (a := a) hb₀
      rw [has_literal] at hb
      rw [has_toValue] at ha
      subst hb
      rw [has_range]
      omega
  · refine ⟨range (-(|l| - 1)) (|l| - 1), ?_, ?_⟩
    · simp only [remNonzero, if_neg ht, h₁, h₂, h₃, Option.bind_eq_bind, Option.bind_some]
      rfl
    · intro a b _ _ ha hb hb₀
      have hbounds := tmod_bounds (a := a) hb₀
      rw [has_literal] at hb
      subst hb
      rw [has_range]
      omega

theorem range_rem_literal {f t l : ℤ} (hl : InI64 l) (hl₀ : l ≠ 0) (hmin : l ≠ i64Min) :
    ∃ q, remNonzero (range f t) (literal l) = some q ∧
      RemSound (range f t) (literal l) q := by
  by_cases hunit : l = 1 ∨ l = -1
  · refine ⟨literal 0, ?_, remSound_unit hunit⟩
    rcases hunit with rfl | rfl <;> rfl
  obtain ⟨hne₁, hne₂⟩ := not_or.mp hunit
  obtain ⟨h₁, h₂, h₃⟩ := checked_abs hl hmin hl₀
  by_cases hf : 0 ≤ f
  · refine ⟨range 0 (min (|l| - 1) t), ?_, ?_⟩
    · simp only [remNonzero, if_pos hf, h₁, h₂, Option.bind_eq_bind, Option.bind_some]
      rfl
    · intro a b _ _ ha hb hb₀
      have hbounds := tmod_bounds (a := a) hb₀
      rw [has_literal] at hb
      rw [has_range] at ha
      subst hb
      rw [has_range]
      omega
  · by_cases ht : t ≤ 0
    · refine ⟨range (max (-(|l| - 1)) f) 0, ?_, ?_⟩
      · simp only [remNonzero, if_neg hf, if_pos ht, h₁, h₂, h₃, Option.bind_eq_bind,
          Option.bind_some]
        rfl
      · intro a b _ _ ha hb hb₀
        have hbounds := tmod_bounds (a := a) hb₀
        rw [has_literal] at hb
        rw [has_range] at ha
        subst hb
        rw [has_range]
        omega
    · refine ⟨range (-(|l| - 1)) (|l| - 1), ?_, ?_⟩
      · simp only [remNonzero, if_neg hf, if_neg ht, h₁, h₂, h₃, Option.bind_eq_bind,
          Option.bind_some]
        rfl
      · intro a b _ _ ha hb hb₀
        have hbounds := tmod_bounds (a := a) hb₀
        rw [has_literal] at hb
        subst hb
        rw [has_range]
        omega

theorem literal_rem_literal {l₁ l₂ : ℤ} (hl₀ : l₂ ≠ 0) :
    ∃ q, remNonzero (literal l₁) (literal l₂) = some q ∧
      RemSound (literal l₁) (literal l₂) q := by
  by_cases hguard : l₁ = i64Min ∧ l₂ = -1
  · exact ⟨unspecified, by simp only [remNonzero, if_pos hguard], remSound_unspecified⟩
  · refine ⟨literal (l₁.tmod l₂), ?_, ?_⟩
    · simp only [remNonzero, if_neg hguard, checkedRem_eq hl₀ hguard, Option.bind_eq_bind,
        Option.bind_some]
      rfl
    · intro a b _ _ ha hb _
      rw [has_literal] at ha hb ⊢
      rw [ha, hb]

/-- The divisor may be the smallest integer, whose absolute value is out of range, and the
dividend is not a literal. -/
def RemMisses : TInteger → TInteger → Prop
  | unspecified, literal l => l = i64Min
  | fromValue _, literal l => l = i64Min
  | toValue _, literal l => l = i64Min
  | range _ _, literal l => l = i64Min
  | unspecified, range n₁ n₂ => n₁ = i64Min ∧ n₂ < 0
  | _, _ => False

theorem remNonzero_correct (hx : x ≠ unspecified) (hx' : x ≠ unspecifiedLiteral)
    (hy : y.WellFormed) (hz : y.canBeZero = false) (hmiss : ¬ RemMisses x y) :
    ∃ q, remNonzero x y = some q ∧ RemSound x y q := by
  cases y with
  | literal l =>
    simp only [canBeZero, decide_eq_false_iff_not] at hz
    cases x with
    | literal l₁ => exact literal_rem_literal hz
    | fromValue f => exact from_rem_literal hy hz hmiss
    | toValue t => exact to_rem_literal hy hz hmiss
    | range f t => exact range_rem_literal hy hz hmiss
    | unspecified => exact absurd rfl hx
    | unspecifiedLiteral => exact absurd rfl hx'
  | fromValue f =>
    simp only [canBeZero, decide_eq_false_iff_not, not_le] at hz
    cases x with
    | literal l => exact literal_rem_from hz
    | _ => exact ⟨unspecified, rfl, remSound_unspecified⟩
  | _ => cases x <;> exact ⟨unspecified, rfl, remSound_unspecified⟩

/-- The remainder by a type that may be zero is any integer. -/
theorem rem_of_canBeZero (hx : x ≠ unspecified) (hz : y.canBeZero = true) :
    rem x y = some unspecified := by
  cases x <;> cases y <;> simp_all [rem, canBeZero]

theorem rem_of_nonzero (hx : x ≠ unspecified) (hx' : x ≠ unspecifiedLiteral)
    (hy : y ≠ unspecifiedLiteral) (hz : y.canBeZero = false) : rem x y = remNonzero x y := by
  cases x <;> cases y <;> simp_all [rem, canBeZero]

theorem rem_unspecifiedLiteral :
    rem unspecifiedLiteral y = some unspecified ∨
      rem unspecifiedLiteral y = some unspecifiedLiteral := by
  cases y <;> simp [rem]

theorem rem_by_unspecifiedLiteral :
    rem x unspecifiedLiteral = some unspecified ∨
      rem x unspecifiedLiteral = some unspecifiedLiteral := by
  cases x <;> simp [rem, canBeZero]

theorem remCorrect_of_open (h : rem x y = some unspecified ∨ rem x y = some unspecifiedLiteral) :
    RemCorrect x y :=
  h.elim (fun h => ⟨unspecified, h, remSound_unspecified⟩)
    fun h => ⟨unspecifiedLiteral, h, fun _ _ _ _ _ _ _ => trivial⟩

theorem rem_correct (hy : y.WellFormed) (hmiss : ¬ RemMisses x y) : RemCorrect x y := by
  by_cases hx : x = unspecified
  · subst hx
    have hmin : y ≠ literal i64Min := by
      intro h
      subst h
      exact hmiss rfl
    have hneg : ∀ n, y = range i64Min n → 0 ≤ n := by
      intro n h
      subst h
      by_contra hneg
      exact hmiss ⟨rfl, not_le.mp hneg⟩
    have hrem : rem unspecified y = remUnspecified y := by
      cases y <;> rfl
    rw [RemCorrect, hrem]
    exact remUnspecified_correct hy hmin hneg
  by_cases hx' : x = unspecifiedLiteral
  · subst hx'
    exact remCorrect_of_open rem_unspecifiedLiteral
  by_cases hy' : y = unspecifiedLiteral
  · subst hy'
    exact remCorrect_of_open rem_by_unspecifiedLiteral
  by_cases hz : y.canBeZero = true
  · exact remCorrect_of_open (Or.inl (rem_of_canBeZero hx hz))
  · rw [Bool.not_eq_true] at hz
    rw [RemCorrect, rem_of_nonzero hx hx' hy' hz]
    exact remNonzero_correct hx hx' hy hz hmiss

/-- The remainder of the largest integer by the smallest is itself. -/
theorem tmod_max_min : i64Max.tmod i64Min = i64Max := by decide

theorem RemSound.has_max (h : RemSound x y q) (hmax : x.Has i64Max) (hmin : y.Has i64Min) :
    q.Has i64Max := by
  have hmod := h i64Max i64Min inI64_max inI64_min hmax hmin (by decide)
  rwa [tmod_max_min] at hmod

theorem not_remCorrect (hx : x.WellFormed) (hy : y.WellFormed) (hmiss : RemMisses x y) :
    ¬ RemCorrect x y := by
  intro h
  obtain ⟨q, hq, hsound⟩ := h
  cases x with
  | literal l => cases y <;> exact hmiss
  | unspecifiedLiteral => cases y <;> exact hmiss
  | unspecified =>
    cases y with
    | literal l =>
      change l = i64Min at hmiss
      subst hmiss
      have hnone : rem unspecified (literal i64Min) = none := by decide
      rw [hnone] at hq
      cases hq
    | range n₁ n₂ =>
      obtain ⟨rfl, hneg⟩ := hmiss
      have hguard : ¬ (i64Min ≤ 0 ∧ 0 ≤ n₂) := by omega
      simp only [rem, remUnspecified, if_neg hguard] at hq
      cases hq
      exact absurd (hsound.has_max trivial ⟨le_rfl, hy.2.1⟩) (by decide)
    | _ => exact hmiss
  | fromValue f =>
    cases y with
    | literal l =>
      change l = i64Min at hmiss
      subst hmiss
      have hrem : rem (fromValue f) (literal i64Min) =
          if 0 ≤ f then some (range 0 (saturatingSub (saturatingNeg i64Min) 1))
          else some (range (saturatingAdd i64Min 1)
            (saturatingSub (saturatingNeg i64Min) 1)) := rfl
      rw [hrem] at hq
      split_ifs at hq <;> cases hq
      · exact absurd (hsound.has_max hx.2 rfl) (by decide)
      · exact absurd (hsound.has_max hx.2 rfl) (by decide)
    | _ => exact hmiss
  | toValue t =>
    cases y with
    | literal l =>
      change l = i64Min at hmiss
      subst hmiss
      have hnone : rem (toValue t) (literal i64Min) = none := rfl
      rw [hnone] at hq
      cases hq
    | _ => exact hmiss
  | range f t =>
    cases y with
    | literal l =>
      change l = i64Min at hmiss
      subst hmiss
      have hnone : rem (range f t) (literal i64Min) = none := rfl
      rw [hnone] at hq
      cases hq
    | _ => exact hmiss

theorem remCorrect_iff (hx : x.WellFormed) (hy : y.WellFormed) :
    RemCorrect x y ↔ ¬ RemMisses x y :=
  ⟨fun h hmiss => not_remCorrect hx hy hmiss h, rem_correct hy⟩

/-- The quotient is computed and holds what it should. -/
def DivCorrect (x y : TInteger) : Prop := ∃ q, div x y = some q ∧ DivSound x y q

theorem divCorrect_iff (hx : x.WellFormed) (hy : y.WellFormed) :
    DivCorrect x y ↔ ¬ DivOverflows x y := by
  rw [← div_eq_none_iff hx hy]
  constructor
  · intro h hnone
    obtain ⟨q, hq, _⟩ := h
    rw [hnone] at hq
    cases hq
  · intro h
    obtain ⟨q, hq⟩ := Option.ne_none_iff_exists'.mp h
    exact ⟨q, hq, div_sound hq⟩

/-- Division and remainder neither fail nor miss a result exactly where -1 divides no type that
ends at the smallest integer, two literals apart, and the smallest integer divides at most a
literal. -/
theorem division_sound_iff (hx : x.WellFormed) (hy : y.WellFormed) :
    DivCorrect x y ∧ RemCorrect x y ↔ ¬ DivOverflows x y ∧ ¬ RemMisses x y :=
  and_congr (divCorrect_iff hx hy) (remCorrect_iff hx hy)

theorem division_sound_iff_range :
    DivCorrect (range (-7) 9) (range 2 3) ∧ RemCorrect (range (-7) 9) (range 2 3) ↔
      ¬ DivOverflows (range (-7) 9) (range 2 3) ∧ ¬ RemMisses (range (-7) 9) (range 2 3) :=
  division_sound_iff (by decide) (by decide)

/-- The smallest integer is an end of the dividend. -/
theorem division_not_sound : ¬ ∀ x y : TInteger, x.WellFormed → y.WellFormed →
    DivCorrect x y ∧ RemCorrect x y := by
  intro h
  obtain ⟨⟨q, hq, _⟩, _⟩ := h (range i64Min 0) (literal (-1)) (by decide) (by decide)
  have hnone : div (range i64Min 0) (literal (-1)) = none := by decide
  rw [hnone] at hq
  cases hq

end Sound

end TInteger

end Mago.Types
