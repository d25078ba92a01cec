import Mago.Types.Containment
import Mathlib

/-!
# Taking a container away

What a step leaves of the ends, and what a container that was dropped leaves behind: it is
disjoint from what is left, unless an end saturated at a bound of the 64-bit integers.
-/
namespace Mago.Types

open Mago.Library

namespace Bounds

variable {b : Bounds} {c : TInteger} {n : ℤ}

/-- The ends are 64-bit integers. -/
structure Valid (b : Bounds) : Prop where
  lower : ∀ m ∈ b.minBound, InI64 m
  upper : ∀ m ∈ b.maxBound, InI64 m

/-- Between the ends. -/
def Within (b : Bounds) (n : ℤ) : Prop := (∀ m ∈ b.minBound, m ≤ n) ∧ ∀ m ∈ b.maxBound, n ≤ m

theorem isEmpty_iff :
    b.isEmpty = true ↔ ∃ m M, b.minBound = some m ∧ b.maxBound = some M ∧ M < m := by
  obtain ⟨_ | m, _ | M⟩ := b <;> simp [isEmpty]

theorem reduce_range_fst {f t : ℤ} : (b.reduce (.range f t)).1 =
    ⟨if b.minWithin f t then some (saturatingAdd t 1) else b.minBound,
      if b.maxWithin f t then some (saturatingSub f 1) else b.maxBound⟩ := by
  simp only [reduce]
  split_ifs <;> simp_all [maxWithin]

theorem reduce_range_snd {f t : ℤ} :
    (b.reduce (.range f t)).2 = !(b.minWithin f t || b.maxWithin f t) := by
  simp only [reduce]
  split_ifs <;> simp_all [maxWithin]

theorem valid_reduce (hb : b.Valid) : (b.reduce c).1.Valid := by
  obtain ⟨hl, hu⟩ := hb
  cases c with
  | range f t =>
    rw [reduce_range_fst]
    constructor
    · split_ifs <;> simp_all [inI64_saturatingAdd]
    · split_ifs <;> simp_all [inI64_saturatingSub]
  | literal v =>
    simp only [reduce]
    split_ifs <;> constructor <;> simp_all [inI64_saturatingAdd, inI64_saturatingSub]
  | fromValue f =>
    simp only [reduce]
    split_ifs <;> constructor <;> simp_all [inI64_saturatingSub]
  | toValue t =>
    simp only [reduce]
    split_ifs <;> constructor <;> simp_all [inI64_saturatingAdd]
  | _ => exact ⟨hl, hu⟩

theorem not_within_of_isEmpty (h : b.isEmpty = true) : ¬ b.Within n := by
  obtain ⟨m, M, hm, hM, hlt⟩ := isEmpty_iff.mp h
  intro hn
  have h₁ := hn.1 m hm
  have h₂ := hn.2 M hM
  omega

/-- What a container does not have stays. -/
theorem within_reduce (hn : InI64 n) (hc : ¬ c.Has n) (h : b.Within n) :
    (b.reduce c).1.Within n := by
  obtain ⟨hmin, hmax⟩ := hn
  cases c with
  | range f t =>
    rw [reduce_range_fst]
    obtain ⟨_ | m, _ | M⟩ := b <;>
      simp [Within, minWithin, maxWithin, saturatingAdd, saturatingSub] at h hc ⊢ <;>
      (try split_ifs) <;> simp_all <;> omega
  | _ =>
    obtain ⟨_ | m, _ | M⟩ := b <;>
      simp [Within, reduce, saturatingAdd, saturatingSub] at h hc ⊢ <;>
      (try split_ifs) <;> simp_all <;> omega

theorem isEmpty_reduce (hb : b.Valid) (hc : c.WellFormed) (h : b.isEmpty = true) :
    (b.reduce c).1.isEmpty = true := by
  obtain ⟨_ | m, _ | M⟩ := b <;> simp [isEmpty] at h
  obtain ⟨hl, hu⟩ := hb
  simp [InI64] at hl hu
  cases c with
  | range f t =>
    rw [reduce_range_fst]
    simp [minWithin, maxWithin, isEmpty, InI64, saturatingAdd, saturatingSub] at hc ⊢
    split_ifs <;> simp_all <;> omega
  | _ =>
    simp [reduce, isEmpty, InI64, saturatingAdd, saturatingSub] at hc ⊢
    (try split_ifs) <;> simp_all <;> omega

/-- The mark of a container that was dropped: what is left is disjoint from it, unless an end
saturated. -/
def Mark (b : Bounds) : TInteger → Prop
  | .literal v =>
    (∃ m ∈ b.minBound, v < m) ∨ (∃ M ∈ b.maxBound, M < v) ∨
      (v = i64Max ∧ b.minBound = some i64Max) ∨
      (v = i64Min ∧ b.minBound = none ∧ b.maxBound = some i64Min)
  | .range f t =>
    (∃ m ∈ b.minBound, t < m) ∨ (∃ M ∈ b.maxBound, M < f) ∨
      (t = i64Max ∧ b.minBound = some i64Max ∧ b.maxBound = none) ∨
      (f = i64Min ∧ b.minBound = none ∧ b.maxBound = some i64Min)
  | .fromValue f => f = i64Min ∧ b.minBound = some i64Min ∧ b.maxBound = some i64Min
  | .toValue t => t = i64Max ∧ b.minBound = some i64Max ∧ b.maxBound = some i64Max
  | _ => True

def Spent (c : TInteger) (b : Bounds) : Prop := b.isEmpty = true ∨ b.Mark c

theorem spent_of_dropped (hb : b.Valid) (hc : c.WellFormed) (h : (b.reduce c).2 = false) :
    Spent c (b.reduce c).1 := by
  by_cases hempty : b.isEmpty = true
  · exact Or.inl (isEmpty_reduce hb hc hempty)
  obtain ⟨hl, hu⟩ := hb
  unfold Spent
  rw [isEmpty_iff]
  cases c with
  | range f t =>
    rw [reduce_range_snd] at h
    rw [reduce_range_fst]
    obtain ⟨_ | m, _ | M⟩ := b <;>
      simp [Mark, minWithin, maxWithin, isEmpty, InI64, saturatingAdd, saturatingSub, i64Min,
        i64Max] at h hc hl hu hempty ⊢ <;>
      (try split_ifs) <;> simp_all <;> omega
  | _ =>
    obtain ⟨_ | m, _ | M⟩ := b <;>
      simp [Mark, reduce, isEmpty, InI64, saturatingAdd, saturatingSub, i64Min,
        i64Max] at h hc hl hu hempty ⊢ <;>
      (try split_ifs at h ⊢) <;> simp_all <;> omega

/-- The ends move towards each other; an open end is closed only where a half-line saturates. -/
structure Shrinks (b b' : Bounds) : Prop where
  lower : ∀ m ∈ b.minBound, ∃ m' ∈ b'.minBound, m ≤ m'
  upper : ∀ M ∈ b.maxBound, ∃ M' ∈ b'.maxBound, M' ≤ M
  open_lower : b.minBound = none → b'.minBound = none ∨ b.maxBound = some i64Max
  open_upper : b.maxBound = none → b'.maxBound = none ∨ b.minBound = some i64Min

theorem Shrinks.refl : b.Shrinks b :=
  ⟨fun m hm => ⟨m, hm, le_rfl⟩, fun M hM => ⟨M, hM, le_rfl⟩, Or.inl, Or.inl⟩

theorem shrinks_raise {m m' : ℤ} (hm : b.minBound = some m) (hle : m ≤ m') :
    b.Shrinks {b with minBound := some m'} := by
  refine ⟨fun k hk => ⟨m', rfl, ?_⟩, fun M hM => ⟨M, hM, le_rfl⟩, fun h => ?_, Or.inl⟩
  · rw [hm] at hk
    rwa [← Option.mem_some.mp hk]
  · rw [hm] at h
    cases h

theorem shrinks_lower {M M' : ℤ} (hM : b.maxBound = some M) (hle : M' ≤ M) :
    b.Shrinks {b with maxBound := some M'} := by
  refine ⟨fun m hm => ⟨m, hm, le_rfl⟩, fun k hk => ⟨M', rfl, ?_⟩, Or.inl, fun h => ?_⟩
  · rw [hM] at hk
    rwa [← Option.mem_some.mp hk]
  · rw [hM] at h
    cases h

theorem Shrinks.both {m' M' : Option ℤ} (hm : b.Shrinks {b with minBound := m'})
    (hM : b.Shrinks {b with maxBound := M'}) : b.Shrinks ⟨m', M'⟩ :=
  ⟨hm.lower, hM.upper, hm.open_lower, hM.open_upper⟩

theorem le_saturatingAdd_one {m t : ℤ} (hm : InI64 m) (hle : m ≤ t) :
    m ≤ saturatingAdd t 1 := by
  obtain ⟨_, hmax⟩ := hm
  unfold saturatingAdd
  omega

theorem saturatingSub_one_le {M f : ℤ} (hM : InI64 M) (hle : f ≤ M) :
    saturatingSub f 1 ≤ M := by
  obtain ⟨hmin, _⟩ := hM
  unfold saturatingSub
  omega

theorem shrinks_reduce (hb : b.Valid) (hc : c.WellFormed) (h : (b.reduce c).1.isEmpty ≠ true) :
    b.Shrinks (b.reduce c).1 := by
  obtain ⟨hl, hu⟩ := hb
  cases c with
  | literal v =>
    simp only [reduce]
    split_ifs with hmin hmax
    · exact shrinks_raise hmin.symm (le_saturatingAdd_one hc le_rfl)
    · exact shrinks_lower hmax.symm (saturatingSub_one_le hc le_rfl)
    · exact Shrinks.refl
  | range f t =>
    rw [reduce_range_fst]
    apply Shrinks.both
    · split_ifs with hin
      · rw [minWithin, Option.any_eq_true] at hin
        obtain ⟨m, hm, hin⟩ := hin
        simp only [Bool.and_eq_true, decide_eq_true_eq] at hin
        exact shrinks_raise hm (le_saturatingAdd_one (hl m hm) hin.2)
      · exact Shrinks.refl
    · split_ifs with hin
      · rw [maxWithin, Option.any_eq_true] at hin
        obtain ⟨M, hM, hin⟩ := hin
        simp only [Bool.and_eq_true, decide_eq_true_eq] at hin
        exact shrinks_lower hM (saturatingSub_one_le (hu M hM) hin.1)
      · exact Shrinks.refl
  | fromValue f =>
    simp only [reduce] at h ⊢
    split_ifs at h ⊢ with hin
    · rw [Option.any_eq_true] at hin
      obtain ⟨m, hm, hin⟩ := hin
      rw [decide_eq_true_eq] at hin
      -- what is left is not empty, so the new end is not below `m`
      have hleft : m ≤ saturatingSub f 1 := by
        by_contra hlt
        exact h (isEmpty_iff.mpr ⟨m, _, hm, rfl, not_le.mp hlt⟩)
      have hmin : m = i64Min ∧ saturatingSub f 1 = i64Min := by
        obtain ⟨hf, _⟩ := hc
        unfold saturatingSub i64Min i64Max at *
        omega
      rw [hmin.2]
      cases hM : b.maxBound with
      | some M => exact shrinks_lower hM (hu M hM).1
      | none =>
        refine ⟨fun m hm => ⟨m, hm, le_rfl⟩, fun M hM' => ?_, Or.inl, fun _ => Or.inr ?_⟩
        · rw [hM] at hM'
          cases hM'
        · rw [hm, hmin.1]
    · exact Shrinks.refl
  | toValue t =>
    simp only [reduce] at h ⊢
    split_ifs at h ⊢ with hin
    · rw [Option.any_eq_true] at hin
      obtain ⟨M, hM, hin⟩ := hin
      rw [decide_eq_true_eq] at hin
      have hleft : saturatingAdd t 1 ≤ M := by
        by_contra hlt
        exact h (isEmpty_iff.mpr ⟨_, M, rfl, hM, not_le.mp hlt⟩)
      have hmax : M = i64Max ∧ saturatingAdd t 1 = i64Max := by
        obtain ⟨_, ht⟩ := hc
        unfold saturatingAdd i64Min i64Max at *
        omega
      rw [hmax.2]
      cases hm : b.minBound with
      | some m => exact shrinks_raise hm (hl m hm).2
      | none =>
        refine ⟨fun m hm' => ?_, fun M hM => ⟨M, hM, le_rfl⟩, fun _ => Or.inr ?_, Or.inl⟩
        · rw [hm] at hm'
          cases hm'
        · rw [hM, hmax.1]
    · exact Shrinks.refl
  | _ => exact Shrinks.refl

theorem mark_of_shrinks {b' : Bounds} (hb' : b'.Valid) (hshrinks : b.Shrinks b')
    (hleft : b'.isEmpty ≠ true) (h : b.Mark c) : b'.Mark c := by
  obtain ⟨hlower, hupper, hopenl, hopenu⟩ := hshrinks
  have hmin : b.minBound = some i64Max → b'.minBound = some i64Max := by
    intro hm
    obtain ⟨m', hm', hle⟩ := hlower _ hm
    rw [Option.mem_def.mp hm', le_antisymm (hb'.lower m' hm').2 hle]
  have hmax : b.maxBound = some i64Min → b'.maxBound = some i64Min := by
    intro hM
    obtain ⟨M', hM', hle⟩ := hupper _ hM
    rw [Option.mem_def.mp hM', le_antisymm hle (hb'.upper M' hM').1]
  have hraised : ∀ v, (∃ m ∈ b.minBound, v < m) → ∃ m ∈ b'.minBound, v < m := by
    intro v hv
    obtain ⟨m, hm, hlt⟩ := hv
    obtain ⟨m', hm', hle⟩ := hlower m hm
    exact ⟨m', hm', lt_of_lt_of_le hlt hle⟩
  have hlowered : ∀ v, (∃ M ∈ b.maxBound, M < v) → ∃ M ∈ b'.maxBound, M < v := by
    intro v hv
    obtain ⟨M, hM, hlt⟩ := hv
    obtain ⟨M', hM', hle⟩ := hupper M hM
    exact ⟨M', hM', lt_of_le_of_lt hle hlt⟩
  have hbounds : i64Min ≠ i64Max := by decide
  cases c with
  | literal v =>
    rcases h with h | h | ⟨hv, h⟩ | ⟨hv, hopen, h⟩
    · exact Or.inl (hraised v h)
    · exact Or.inr (Or.inl (hlowered v h))
    · exact Or.inr (Or.inr (Or.inl ⟨hv, hmin h⟩))
    · refine Or.inr (Or.inr (Or.inr ⟨hv, (hopenl hopen).resolve_right ?_, hmax h⟩))
      rw [h]
      simpa using hbounds
  | range f t =>
    rcases h with h | h | ⟨ht, h, hopen⟩ | ⟨hf, hopen, h⟩
    · exact Or.inl (hraised t h)
    · exact Or.inr (Or.inl (hlowered f h))
    · refine Or.inr (Or.inr (Or.inl ⟨ht, hmin h, (hopenu hopen).resolve_right ?_⟩))
      rw [h]
      simpa using hbounds.symm
    · refine Or.inr (Or.inr (Or.inr ⟨hf, (hopenl hopen).resolve_right ?_, hmax h⟩))
      rw [h]
      simpa using hbounds
  | fromValue f =>
    obtain ⟨hf, hm, hM⟩ := h
    obtain ⟨m', hm', hle⟩ := hlower _ hm
    have hM' := hmax hM
    have hleft' : m' ≤ i64Min := by
      by_contra hlt
      exact hleft (isEmpty_iff.mpr ⟨m', _, hm', hM', not_le.mp hlt⟩)
    refine ⟨hf, ?_, hM'⟩
    rw [Option.mem_def.mp hm', le_antisymm hleft' hle]
  | toValue t =>
    obtain ⟨ht, hm, hM⟩ := h
    obtain ⟨M', hM', hle⟩ := hupper _ hM
    have hm' := hmin hm
    have hleft' : i64Max ≤ M' := by
      by_contra hlt
      exact hleft (isEmpty_iff.mpr ⟨_, M', hm', hM', not_le.mp hlt⟩)
    refine ⟨ht, hm', ?_⟩
    rw [Option.mem_def.mp hM', le_antisymm hle hleft']
  | _ => trivial

/-- The steps after it do not remove the mark. -/
theorem spent_reduce {d : TInteger} (hb : b.Valid) (hd : d.WellFormed) (h : Spent c b) :
    Spent c (b.reduce d).1 := by
  rcases h with h | h
  · exact Or.inl (isEmpty_reduce hb hd h)
  · by_cases hempty : (b.reduce d).1.isEmpty = true
    · exact Or.inl hempty
    · exact Or.inr (mark_of_shrinks (valid_reduce hb) (shrinks_reduce hb hd hempty) hempty h)

end Bounds

end Mago.Types
