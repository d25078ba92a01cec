import Mago.Codebase.Metadata
import Mago.Library.Coverage
import Mago.Library.StableSort

/-!
# Availability in a range of versions

The constraints that attributes and merges build, and the question whether one of them allows
every version of a range. Version ids have 32 bits; a missing bound is the least or the
greatest of them.
-/
namespace Mago.Codebase
open Mago.Library

/-- The greatest version id. -/
def maxVersion : PHPVersion := 2 ^ 32 - 1

namespace PHPVersionRange

/-- The range from a version on. -/
def fromVersion (version : PHPVersion) : PHPVersionRange := ⟨some version, none⟩

/-- The range up to and including a version. -/
def untilVersion (version : PHPVersion) : PHPVersionRange := ⟨none, some version⟩

def lower (range : PHPVersionRange) : PHPVersion := range.min.getD 0

def upper (range : PHPVersionRange) : PHPVersion := range.max.getD maxVersion

def bounds (range : PHPVersionRange) : PHPVersion × PHPVersion := (range.lower, range.upper)

/-- The order of the lower bounds, a missing one first. -/
def minLe (range range' : PHPVersionRange) : Bool :=
  match range.min, range'.min with
  | none, _ => true
  | some _, none => false
  | some min, some min' => decide (min ≤ min')

end PHPVersionRange

def saturatingSucc (version : PHPVersion) : PHPVersion := min (version + 1) maxVersion

namespace VersionConstraint

def unconstrained : VersionConstraint := ⟨[]⟩

def pushSince (constraint : VersionConstraint) (version : PHPVersion) : VersionConstraint :=
  ⟨constraint.ranges ++ [.fromVersion version]⟩

/-- Closes the last range when it is open, else starts one without a lower bound. -/
def pushUntil (constraint : VersionConstraint) (version : PHPVersion) : VersionConstraint :=
  match constraint.ranges.getLast? with
  | some ⟨min, none⟩ => ⟨constraint.ranges.dropLast ++ [⟨min, some version⟩]⟩
  | _ => ⟨constraint.ranges ++ [.untilVersion version]⟩

/-- Whether the ranges cover all versions from the lower to the upper bound. -/
def allowsVersionRange (constraint : VersionConstraint) (range : PHPVersionRange) : Bool :=
  if constraint.ranges.isEmpty then true
  else if range.upper < range.lower then true
  else
    let sorted := constraint.ranges.insertionSort fun r r' => r.minLe r' = true
    sweepCoverage saturatingSucc range.upper range.lower (sorted.map PHPVersionRange.bounds)

end VersionConstraint

/-- The bounds of a range are version ids. -/
structure PHPVersionRange.Fits (range : PHPVersionRange) : Prop where
  min_le : ∀ min ∈ range.min, min ≤ maxVersion
  max_le : ∀ max ∈ range.max, max ≤ maxVersion

theorem toNat_le_maxVersion (version : UInt32) : version.toNat ≤ maxVersion := by
  have h := version.toNat_lt
  unfold maxVersion
  omega

/-- A version id is in a range when it is between the bounds, missing ones filled in. -/
theorem PHPVersionRange.includes_iff (range : PHPVersionRange) {version : PHPVersion}
    (hversion : version ≤ maxVersion) :
    range.includes version = true ↔ range.lower ≤ version ∧ version ≤ range.upper := by
  obtain ⟨min, max⟩ := range
  cases min <;> cases max <;> simp [includes, lower, upper, hversion]

theorem VersionConstraint.allowsVersion_iff (constraint : VersionConstraint)
    {version : PHPVersion} (hversion : version ≤ maxVersion) :
    constraint.allowsVersion version = true ↔ constraint.ranges = [] ∨
      Covered (constraint.ranges.map PHPVersionRange.bounds) version := by
  unfold VersionConstraint.allowsVersion Covered
  cases hranges : constraint.ranges with
  | nil => simp
  | cons range rest =>
    simp only [List.isEmpty_cons, Bool.false_eq_true, if_false, List.any_eq_true,
      reduceCtorEq, false_or]
    constructor
    · intro h
      obtain ⟨r, hr, hin⟩ := h
      exact ⟨r.bounds, List.mem_map_of_mem hr, (r.includes_iff hversion).mp hin⟩
    · intro h
      obtain ⟨bounds, hbounds, hin⟩ := h
      obtain ⟨r, hr, rfl⟩ := List.mem_map.mp hbounds
      exact ⟨r, hr, (r.includes_iff hversion).mpr hin⟩

theorem PHPVersionRange.lower_le_of_minLe {range range' : PHPVersionRange}
    (h : range.minLe range' = true) : range.lower ≤ range'.lower := by
  obtain ⟨min, max⟩ := range
  obtain ⟨min', max'⟩ := range'
  cases min with
  | none => exact Nat.zero_le _
  | some min =>
    cases min' with
    | none => simp [minLe] at h
    | some min' => simpa [minLe, lower] using h

theorem PHPVersionRange.minLe_trans (a b c : PHPVersionRange) (hab : a.minLe b = true)
    (hbc : b.minLe c = true) : a.minLe c = true := by
  obtain ⟨min, max⟩ := a
  obtain ⟨min', max'⟩ := b
  obtain ⟨min'', max''⟩ := c
  cases min <;> cases min' <;> cases min'' <;> simp [minLe] at hab hbc ⊢
  exact hab.trans hbc

theorem PHPVersionRange.minLe_total (a b : PHPVersionRange) :
    a.minLe b = true ∨ b.minLe a = true := by
  obtain ⟨min, max⟩ := a
  obtain ⟨min', max'⟩ := b
  cases min <;> cases min' <;> simp [minLe]
  exact le_total _ _

theorem PHPVersionRange.Fits.upper_le {range : PHPVersionRange} (h : range.Fits) :
    range.upper ≤ maxVersion := by
  obtain ⟨min, max⟩ := range
  cases max with
  | none => exact le_rfl
  | some max => exact h.max_le max rfl

/-- The successor below the greatest version does not saturate. -/
theorem saturatingSucc_le_iff {last : PHPVersion} (hlast : last ≤ maxVersion) (a v : PHPVersion)
    (ha : a < last) : saturatingSucc a ≤ v ↔ a < v := by
  have hmin : saturatingSucc a = a + 1 := min_eq_left (Nat.succ_le_of_lt (ha.trans_le hlast))
  rw [hmin]
  exact Nat.succ_le_iff

/-- A range is allowed exactly when every version between its bounds is. -/
theorem VersionConstraint.allowsVersionRange_iff_forall (constraint : VersionConstraint)
    {range : PHPVersionRange} (hrange : range.Fits) :
    constraint.allowsVersionRange range = true ↔
      ∀ version, range.lower ≤ version → version ≤ range.upper →
        constraint.allowsVersion version = true := by
  have hle := hrange.upper_le
  unfold allowsVersionRange
  cases hranges : constraint.ranges with
  | nil => simp [allowsVersion, hranges]
  | cons r rest =>
    have hallows (version : PHPVersion) (hversion : version ≤ range.upper) :
        constraint.allowsVersion version = true ↔
          Covered (constraint.ranges.map PHPVersionRange.bounds) version := by
      rw [constraint.allowsVersion_iff (hversion.trans hle), hranges]
      simp
    rw [← hranges]
    by_cases hinverted : range.upper < range.lower
    · simp only [hranges, List.isEmpty_cons, Bool.false_eq_true, if_false, if_pos hinverted,
        true_iff]
      intro version hlower hupper
      exact absurd (hlower.trans hupper) (not_le.mpr hinverted)
    · let sorted := constraint.ranges.insertionSort fun r r' => r.minLe r' = true
      have hperm : sorted.Perm constraint.ranges := List.perm_insertionSort _ _
      have hsorted : (sorted.map PHPVersionRange.bounds).Pairwise fun i j => i.1 ≤ j.1 :=
        List.pairwise_map.mpr ((pairwise_insertionSort_le PHPVersionRange.minLe_total
          PHPVersionRange.minLe_trans constraint.ranges).imp PHPVersionRange.lower_le_of_minLe)
      have hcovered (version : PHPVersion) : Covered (sorted.map PHPVersionRange.bounds) version ↔
          Covered (constraint.ranges.map PHPVersionRange.bounds) version :=
        ⟨covered_of_perm (hperm.map _), covered_of_perm (hperm.map _).symm⟩
      have hempty : constraint.ranges.isEmpty = false := by simp [hranges]
      rw [hempty, if_neg (by simp), if_neg hinverted,
        sweepCoverage_iff (saturatingSucc_le_iff hle) hsorted (not_lt.mp hinverted)]
      constructor
      · intro h version hlower hupper
        exact (hallows version hupper).mpr ((hcovered version).mp (h version hlower hupper))
      · intro h version hlower hupper
        exact (hcovered version).mpr ((hallows version hupper).mp (h version hlower hupper))

/-- A range of versions is allowed exactly when each of its versions is, and a merge allows what
one of its parts allows. -/
theorem availability_exact (constraint other : VersionConstraint) :
    (∀ min max : Option UInt32,
      let range : PHPVersionRange := ⟨min.map UInt32.toNat, max.map UInt32.toNat⟩
      constraint.allowsVersionRange range = true ↔
        ∀ version : UInt32, range.lower ≤ version.toNat → version.toNat ≤ range.upper →
          constraint.allowsVersion version.toNat = true) ∧
      ∀ version : UInt32, (constraint.merge other).allowsVersion version.toNat = true ↔
        constraint.allowsVersion version.toNat = true ∨
          other.allowsVersion version.toNat = true := by
  constructor
  · intro min max range
    have hfits : range.Fits := by
      constructor
      · intro bound hbound
        obtain ⟨version, -, rfl⟩ := Option.map_eq_some_iff.mp hbound
        exact toNat_le_maxVersion version
      · intro bound hbound
        obtain ⟨version, -, rfl⟩ := Option.map_eq_some_iff.mp hbound
        exact toNat_le_maxVersion version
    rw [constraint.allowsVersionRange_iff_forall hfits]
    constructor
    · exact fun hall version hlower hupper => hall version.toNat hlower hupper
    · intro hall version hlower hupper
      -- every number up to the upper bound is a version id
      have hle := hupper.trans hfits.upper_le
      have hlt : version < 2 ^ 32 := Nat.lt_of_le_pred (by norm_num) hle
      have hid : (UInt32.ofNat version).toNat = version := UInt32.toNat_ofNat_of_lt' hlt
      rw [← hid]
      exact hall (UInt32.ofNat version) (by rwa [hid]) (by rwa [hid])
  · intro version
    rw [allowsVersion_merge, Bool.or_eq_true]

/-- Versions 1 to 3 and from 5 on. -/
def withGap : VersionConstraint :=
  ((VersionConstraint.unconstrained.pushSince 1).pushUntil 3).pushSince 5

example : withGap.allowsVersionRange ⟨some 2, some 6⟩ = false ∧
    withGap.allowsVersionRange ⟨some 5, none⟩ = true := by decide +kernel

end Mago.Codebase
