import Mago.Library.Intervals

/-!
# Coverage by intervals

Whether closed intervals, sorted by their lower ends, cover everything from one point to
another, decided by one sweep that keeps the least point still to be covered. An interval whose
ends are the wrong way round covers nothing.
-/
namespace Mago.Library

variable {α : Type*} [LinearOrder α] (next : α → α)

/-- The sweep towards `last` with the least point that is not covered yet. -/
def sweepCoverage (last : α) : α → List (α × α) → Bool
  | _, [] => false
  | required, i :: rest =>
    if i.2 < required then sweepCoverage last required rest
    else if required < i.1 then false
    else if last ≤ i.2 then true
    else sweepCoverage last (next i.2) rest

variable {next} {last : α}

/-- No interval that starts behind a point covers it. -/
theorem not_covered_of_lt {intervals : List (α × α)} {v : α} (h : ∀ i ∈ intervals, v < i.1) :
    ¬ Covered intervals v := by
  intro hcovered
  obtain ⟨i, hi, hle, -⟩ := hcovered
  exact absurd hle (not_le.mpr (h i hi))

/-- The sweep succeeds exactly when every point up to the last one is covered. -/
theorem sweepCoverage_iff (hnext : ∀ a v, a < last → (next a ≤ v ↔ a < v)) {intervals : List (α × α)}
    (hsorted : intervals.Pairwise fun i j => i.1 ≤ j.1) {required : α}
    (hrequired : required ≤ last) :
    sweepCoverage next last required intervals = true ↔
      ∀ v, required ≤ v → v ≤ last → Covered intervals v := by
  induction intervals generalizing required with
  | nil =>
    simp only [sweepCoverage, Bool.false_eq_true, false_iff]
    intro h
    obtain ⟨i, hi, -⟩ := h required le_rfl hrequired
    exact List.not_mem_nil hi
  | cons i rest ih =>
    obtain ⟨hfirst, hrest⟩ := List.pairwise_cons.mp hsorted
    simp only [sweepCoverage]
    by_cases hpassed : i.2 < required
    · -- the interval ends too early for every point that is left
      rw [if_pos hpassed, ih hrest hrequired]
      have hnot (v : α) (hv : required ≤ v) : ¬ (i.1 ≤ v ∧ v ≤ i.2) :=
        fun h => absurd (hv.trans h.2) (not_le.mpr hpassed)
      constructor
      · intro h v hv hlast
        exact covered_cons.mpr (.inr (h v hv hlast))
      · intro h v hv hlast
        exact (covered_cons.mp (h v hv hlast)).resolve_left (hnot v hv)
    · rw [if_neg hpassed]
      by_cases hgap : required < i.1
      · -- nothing that follows starts early enough for the required point
        rw [if_pos hgap]
        simp only [Bool.false_eq_true, false_iff]
        intro h
        have hcovered := h required le_rfl hrequired
        refine not_covered_of_lt ?_ hcovered
        intro j hj
        cases hj with
        | head => exact hgap
        | tail _ hj => exact hgap.trans_le (hfirst j hj)
      · rw [if_neg hgap]
        have hlo : i.1 ≤ required := not_lt.mp hgap
        by_cases hend : last ≤ i.2
        · rw [if_pos hend]
          simp only [true_iff]
          intro v hv hlast
          exact covered_cons.mpr (.inl ⟨hlo.trans hv, hlast.trans hend⟩)
        · rw [if_neg hend]
          have hlt : i.2 < last := not_le.mp hend
          have hstep : next i.2 ≤ last := (hnext _ _ hlt).mpr hlt
          rw [ih hrest hstep]
          constructor
          · intro h v hv hlast
            rcases le_or_gt v (i.2) with hle | hgt
            · exact covered_cons.mpr (.inl ⟨hlo.trans hv, hle⟩)
            · exact covered_cons.mpr (.inr (h v ((hnext _ _ hlt).mpr hgt) hlast))
          · intro h v hv hlast
            have hgt : i.2 < v := (hnext _ _ hlt).mp hv
            have hrequired' : required ≤ v := (not_lt.mp hpassed).trans hgt.le
            exact (covered_cons.mp (h v hrequired' hlast)).resolve_left
              fun hin => absurd hin.2 (not_le.mpr hgt)

end Mago.Library
