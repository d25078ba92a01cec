import Mathlib

/-!
# Replayed logs

A log of batches in which the batch of a group takes the place of the group's earlier batches. Who
replays the log and takes part in every batch since has seen what the log says.
-/
namespace Mago.Library

variable {α γ : Type} [DecidableEq γ] (group : α → Option γ)

/-- The log after a batch. -/
def replaceGroup (g : Option γ) (batch log : List α) : List α :=
  (if g.isSome then log.filter fun a => decide (group a ≠ g) else log) ++ batch

/-- The history starts with the log of some time and goes on with every batch since. -/
inductive Replays : List α → List α → Prop
  | replay (log : List α) : Replays log log
  | batch {history log : List α} (h : Replays history log) (g : Option γ) (batch : List α)
      (hbatch : ∀ a ∈ batch, group a = g) :
      Replays (history ++ batch) (replaceGroup group g batch log)

variable {group}

namespace Replays

/-- What belongs to no group is in the log as it was seen. -/
theorem ungrouped {history log : List α} (h : Replays group history log) :
    log.filter (fun a => decide (group a = none)) =
      history.filter fun a => decide (group a = none) := by
  induction h with
  | replay log => rfl
  | batch _ g batch _ ih =>
    rw [replaceGroup, List.filter_append, List.filter_append, ← ih]
    congr 1
    split_ifs with hg
    · rw [List.filter_filter]
      refine List.filter_congr ?_
      intro a _
      obtain ⟨k, rfl⟩ := Option.isSome_iff_exists.mp hg
      cases group a <;> simp
    · rfl

/-- For each group the log ends as the history does. -/
theorem latest {history log : List α} (h : Replays group history log) (k : γ) :
    log.filter (fun a => decide (group a = some k)) <:+
      history.filter fun a => decide (group a = some k) := by
  induction h with
  | replay log => exact List.suffix_refl _
  | @batch history log _ g batch hbatch ih =>
    rw [replaceGroup, List.filter_append, List.filter_append]
    have hlog : (if g.isSome then log.filter fun a => decide (group a ≠ g) else log).filter
        (fun a => decide (group a = some k)) =
          if g = some k then [] else log.filter fun a => decide (group a = some k) := by
      split_ifs with hg hk hk
      · rw [List.filter_filter, List.filter_eq_nil_iff]
        intro a _
        simp [hk]
      · rw [List.filter_filter]
        refine List.filter_congr ?_
        intro a _
        by_cases ha : group a = some k
        · simp [ha, Ne.symm hk]
        · simp [ha]
      · simp [hk] at hg
      · rfl
    rw [hlog]
    split_ifs with hk
    · exact List.suffix_append _ _
    · have hnone : batch.filter (fun a => decide (group a = some k)) = [] := by
        rw [List.filter_eq_nil_iff]
        intro a ha
        simp [hbatch a ha, hk]
      rw [hnone, List.append_nil, List.append_nil]
      exact ih

end Replays

end Mago.Library
