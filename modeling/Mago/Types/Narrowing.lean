import Mago.Types.Arithmetic
import Mathlib

/-!
# Narrowing by a comparison

What is left of an integer type when its value is known to be below or above a number. A strict
comparison is the weak one with the next number, where there is one.
-/
namespace Mago.Types.TInteger

def toLessThanOrEqual (self : TInteger) (n : ℤ) : Option TInteger :=
  let narrowedUpper := match self.getMaximumValue with
    | some existingUpper => min existingUpper n
    | none => n
  let newLowerBound := self.getMinimumValue
  if newLowerBound.any fun minB => narrowedUpper < minB then none
  else some (fromBounds newLowerBound (some narrowedUpper))

def toLessThan (self : TInteger) (n : ℤ) : Option TInteger :=
  self.toLessThanOrEqual (saturatingSub n 1)

def toGreaterThanOrEqual (self : TInteger) (n : ℤ) : Option TInteger :=
  let narrowedLower := match self.getMinimumValue with
    | some existingLower => max existingLower n
    | none => n
  let newUpperBound := self.getMaximumValue
  if newUpperBound.any fun maxB => maxB < narrowedLower then none
  else some (fromBounds (some narrowedLower) newUpperBound)

def toGreaterThan (self : TInteger) (n : ℤ) : Option TInteger :=
  self.toGreaterThanOrEqual (saturatingAdd n 1)

/-- The result has the 64-bit integers of a type that satisfy a condition, and there is none
exactly where no integer does. -/
structure Narrows (x : TInteger) (condition : ℤ → Prop) (result : Option TInteger) : Prop where
  eq_none : result = none ↔ ∀ m, InI64 m → x.Has m → ¬ condition m
  wellFormed : ∀ narrowed ∈ result, narrowed.WellFormed
  has : ∀ narrowed ∈ result, ∀ m, InI64 m → (narrowed.Has m ↔ x.Has m ∧ condition m)

variable {x : TInteger} {n m lower upper : ℤ}

/-- Two conditions that no integer of the type tells apart. -/
theorem Narrows.congr {condition condition' : ℤ → Prop} {result : Option TInteger}
    (h : x.Narrows condition result)
    (hcongr : ∀ m, InI64 m → x.Has m → (condition m ↔ condition' m)) :
    x.Narrows condition' result where
  eq_none := h.eq_none.trans
    ⟨fun hnot m hm hx hc => hnot m hm hx ((hcongr m hm hx).mpr hc),
      fun hnot m hm hx hc => hnot m hm hx ((hcongr m hm hx).mp hc)⟩
  wellFormed := h.wellFormed
  has narrowed hnarrowed m hm := by
    rw [h.has narrowed hnarrowed m hm]
    exact and_congr_right (hcongr m hm)

theorem has_iff_bounds :
    x.Has m ↔ (∀ l ∈ x.getMinimumValue, l ≤ m) ∧ ∀ u ∈ x.getMaximumValue, m ≤ u := by
  cases x with
  | literal value =>
    simp only [has_literal, getMinimumValue, getMaximumValue, Option.mem_some_iff, forall_eq']
    omega
  | _ => simp [getMinimumValue, getMaximumValue]

theorem WellFormed.bounds (h : x.WellFormed) :
    (∀ l ∈ x.getMinimumValue, InI64 l) ∧ ∀ u ∈ x.getMaximumValue, InI64 u := by
  cases x with
  | range l u => exact ⟨by simpa [getMinimumValue] using h.1, by simpa [getMaximumValue] using h.2.2⟩
  | _ => simp_all [getMinimumValue, getMaximumValue]

/-- No integer is above the one and below the other. -/
def Crossed (lower upper : Option ℤ) : Prop := ∃ l ∈ lower, ∃ u ∈ upper, u < l

section Bounds

variable {lower upper : Option ℤ}

theorem has_fromBounds_of_not_crossed (h : ¬ Crossed lower upper) :
    (fromBounds lower upper).Has m ↔ (∀ l ∈ lower, l ≤ m) ∧ ∀ u ∈ upper, m ≤ u := by
  cases lower with
  | none => cases upper <;> simp [fromBounds]
  | some l =>
    cases upper with
    | none => simp [fromBounds]
    | some u =>
      have hle : l ≤ u := not_lt.mp fun hlt => h ⟨l, rfl, u, rfl, hlt⟩
      simp only [fromBounds, Option.mem_some_iff, forall_eq']
      split
      · rw [has_literal]
        omega
      · rw [if_pos (by omega), has_range]

theorem wellFormed_fromBounds_of_not_crossed (h : ¬ Crossed lower upper) (hlower : ∀ l ∈ lower, InI64 l)
    (hupper : ∀ u ∈ upper, InI64 u) : (fromBounds lower upper).WellFormed := by
  cases lower with
  | none => cases upper <;> simp_all [fromBounds]
  | some l =>
    cases upper with
    | none => simpa [fromBounds] using hlower
    | some u =>
      have hle : l ≤ u := not_lt.mp fun hlt => h ⟨l, rfl, u, rfl, hlt⟩
      simp only [fromBounds]
      split
      · exact hlower l rfl
      · rw [if_pos (by omega)]
        exact ⟨hlower l rfl, hle, hupper u rfl⟩

theorem exists_of_not_crossed (h : ¬ Crossed lower upper) (hlower : ∀ l ∈ lower, InI64 l)
    (hupper : ∀ u ∈ upper, InI64 u) :
    ∃ m, InI64 m ∧ (∀ l ∈ lower, l ≤ m) ∧ ∀ u ∈ upper, m ≤ u := by
  cases lower with
  | some l =>
    refine ⟨l, hlower l rfl, by simp, fun u hu => not_lt.mp fun hlt => h ⟨l, rfl, u, hu, hlt⟩⟩
  | none =>
    cases upper with
    | some u => exact ⟨u, hupper u rfl, by simp, by simp⟩
    | none => exact ⟨i64Min, inI64_min, by simp, by simp⟩

/-- A result between the bounds that stand for the type and the condition. -/
theorem narrows_of_bounds {condition : ℤ → Prop} {result : Option TInteger}
    (hlower : ∀ l ∈ lower, InI64 l) (hupper : ∀ u ∈ upper, InI64 u)
    (hbounds : ∀ m, x.Has m ∧ condition m ↔ (∀ l ∈ lower, l ≤ m) ∧ ∀ u ∈ upper, m ≤ u)
    (hnone : result = none ↔ Crossed lower upper)
    (hsome : ∀ narrowed ∈ result, narrowed = fromBounds lower upper) :
    x.Narrows condition result := by
  have hcrossed : ∀ narrowed ∈ result, ¬ Crossed lower upper := by
    intro narrowed hnarrowed hcross
    rw [hnone.mpr hcross] at hnarrowed
    cases hnarrowed
  constructor
  · rw [hnone]
    constructor
    · rintro ⟨l, hl, u, hu, hlt⟩ m - hx hc
      obtain ⟨hle, hge⟩ := (hbounds m).mp ⟨hx, hc⟩
      have hl := hle l hl
      have hu := hge u hu
      omega
    · intro hempty
      by_contra hcross
      obtain ⟨m, hm, hbetween⟩ := exists_of_not_crossed hcross hlower hupper
      obtain ⟨hx, hc⟩ := (hbounds m).mpr hbetween
      exact hempty m hm hx hc
  · intro narrowed hnarrowed
    rw [hsome narrowed hnarrowed]
    exact wellFormed_fromBounds_of_not_crossed (hcrossed narrowed hnarrowed) hlower hupper
  · intro narrowed hnarrowed m _
    rw [hsome narrowed hnarrowed, has_fromBounds_of_not_crossed (hcrossed narrowed hnarrowed), hbounds]

end Bounds

/-- The upper end becomes the number, unless it is below it already. -/
theorem narrows_toLessThanOrEqual (hx : x.WellFormed) (hn : InI64 n) :
    x.Narrows (fun m => m ≤ n) (x.toLessThanOrEqual n) := by
  obtain ⟨hlower, hupper⟩ := hx.bounds
  have hnarrowed : ∃ narrowedUpper, x.toLessThanOrEqual n =
      (if x.getMinimumValue.any fun minB => narrowedUpper < minB then none
        else some (fromBounds x.getMinimumValue (some narrowedUpper))) ∧
      InI64 narrowedUpper ∧
      ∀ m, m ≤ narrowedUpper ↔ (∀ u ∈ x.getMaximumValue, m ≤ u) ∧ m ≤ n := by
    refine ⟨_, rfl, ?_⟩
    cases hmax : x.getMaximumValue with
    | none => exact ⟨hn, by simp⟩
    | some existingUpper =>
      have hexisting := hupper _ hmax
      exact ⟨⟨le_min hexisting.1 hn.1, (min_le_left _ _).trans hexisting.2⟩, by simp⟩
  obtain ⟨narrowedUpper, hresult, hin, hle⟩ := hnarrowed
  rw [hresult]
  have hnew : ∀ u ∈ some narrowedUpper, InI64 u := by simpa using hin
  apply narrows_of_bounds hlower hnew
  · intro m
    rw [has_iff_bounds, and_assoc, ← hle m]
    simp
  · simp [Crossed, Option.any_eq_true]
  · simp

/-- The lower end becomes the number, unless it is above it already. -/
theorem narrows_toGreaterThanOrEqual (hx : x.WellFormed) (hn : InI64 n) :
    x.Narrows (fun m => n ≤ m) (x.toGreaterThanOrEqual n) := by
  obtain ⟨hlower, hupper⟩ := hx.bounds
  have hnarrowed : ∃ narrowedLower, x.toGreaterThanOrEqual n =
      (if x.getMaximumValue.any fun maxB => maxB < narrowedLower then none
        else some (fromBounds (some narrowedLower) x.getMaximumValue)) ∧
      InI64 narrowedLower ∧
      ∀ m, narrowedLower ≤ m ↔ (∀ l ∈ x.getMinimumValue, l ≤ m) ∧ n ≤ m := by
    refine ⟨_, rfl, ?_⟩
    cases hmin : x.getMinimumValue with
    | none => exact ⟨hn, by simp⟩
    | some existingLower =>
      have hexisting := hlower _ hmin
      exact ⟨⟨hexisting.1.trans (le_max_left _ _), max_le hexisting.2 hn.2⟩, by simp⟩
  obtain ⟨narrowedLower, hresult, hin, hle⟩ := hnarrowed
  rw [hresult]
  have hnew : ∀ l ∈ some narrowedLower, InI64 l := by simpa using hin
  apply narrows_of_bounds hnew hupper
  · intro m
    rw [has_iff_bounds, and_right_comm, ← hle m]
    simp
  · simp [Crossed, Option.any_eq_true]
  · simp

/-! ## Strict comparisons -/

/-- There is no number below the least one to compare with. -/
theorem narrows_toLessThan_iff (hx : x.WellFormed) (hn : InI64 n) :
    x.Narrows (fun m => m < n) (x.toLessThan n) ↔ ¬ (n = i64Min ∧ x.Has i64Min) := by
  have hweak := narrows_toLessThanOrEqual hx inI64_saturatingSub (n := saturatingSub n 1)
  constructor
  · rintro hstrict ⟨rfl, hmin⟩
    have hnone : x.toLessThan i64Min = none :=
      hstrict.eq_none.mpr fun m hm _ hlt => not_lt.mpr hm.1 hlt
    exact hweak.eq_none.mp hnone i64Min inI64_min hmin inI64_saturatingSub.1
  · intro hne
    refine hweak.congr fun m hm hxm => ?_
    by_cases heq : n = i64Min
    · have hm' : m ≠ i64Min := by
        rintro rfl
        exact hne ⟨heq, hxm⟩
      unfold saturatingSub InI64 i64Min i64Max at *
      omega
    · unfold saturatingSub InI64 i64Min i64Max at *
      omega

theorem narrows_toGreaterThan_iff (hx : x.WellFormed) (hn : InI64 n) :
    x.Narrows (fun m => n < m) (x.toGreaterThan n) ↔ ¬ (n = i64Max ∧ x.Has i64Max) := by
  have hweak := narrows_toGreaterThanOrEqual hx inI64_saturatingAdd (n := saturatingAdd n 1)
  constructor
  · rintro hstrict ⟨rfl, hmax⟩
    have hnone : x.toGreaterThan i64Max = none :=
      hstrict.eq_none.mpr fun m hm _ hlt => not_lt.mpr hm.2 hlt
    exact hweak.eq_none.mp hnone i64Max inI64_max hmax inI64_saturatingAdd.2
  · intro hne
    refine hweak.congr fun m hm hxm => ?_
    by_cases heq : n = i64Max
    · have hm' : m ≠ i64Max := by
        rintro rfl
        exact hne ⟨heq, hxm⟩
      unfold saturatingAdd InI64 i64Min i64Max at *
      omega
    · unfold saturatingAdd InI64 i64Min i64Max at *
      omega

/-- The four comparisons are exact but for a strict one with the end of the 64-bit integers that
the type reaches. -/
theorem narrowing_exact_iff (hx : x.WellFormed) (hn : InI64 n) :
    (x.Narrows (fun m => m < n) (x.toLessThan n) ∧
        x.Narrows (fun m => m ≤ n) (x.toLessThanOrEqual n) ∧
        x.Narrows (fun m => n < m) (x.toGreaterThan n) ∧
        x.Narrows (fun m => n ≤ m) (x.toGreaterThanOrEqual n)) ↔
      ¬ (n = i64Min ∧ x.Has i64Min) ∧ ¬ (n = i64Max ∧ x.Has i64Max) := by
  rw [narrows_toLessThan_iff hx hn, narrows_toGreaterThan_iff hx hn,
    and_iff_right (narrows_toLessThanOrEqual hx hn),
    and_iff_left (narrows_toGreaterThanOrEqual hx hn)]

theorem narrowing_exact_iff_five :
    ((fromValue 3).Narrows (fun m => m < 5) ((fromValue 3).toLessThan 5) ∧
        (fromValue 3).Narrows (fun m => m ≤ 5) ((fromValue 3).toLessThanOrEqual 5) ∧
        (fromValue 3).Narrows (fun m => 5 < m) ((fromValue 3).toGreaterThan 5) ∧
        (fromValue 3).Narrows (fun m => 5 ≤ m) ((fromValue 3).toGreaterThanOrEqual 5)) ↔
      ¬ ((5 : ℤ) = i64Min ∧ (fromValue 3).Has i64Min) ∧
        ¬ ((5 : ℤ) = i64Max ∧ (fromValue 3).Has i64Max) :=
  narrowing_exact_iff (by decide) (by decide)

/-- Nothing is below the least integer, and the result is that integer. -/
theorem toLessThan_min :
    unspecified.toLessThan i64Min = some (toValue i64Min) ∧
      ¬ unspecified.Narrows (fun m => m < i64Min) (unspecified.toLessThan i64Min) := by
  refine ⟨by decide, fun h => ?_⟩
  have hnone := h.eq_none.mpr fun m hm _ hlt => not_lt.mpr hm.1 hlt
  exact absurd hnone (by decide)

end Mago.Types.TInteger
