import Mathlib

/-!
# Closed intervals

A list of closed intervals over a linear order stands for the union of its members.
Coalescing a list that is sorted by lower end joins each interval to the running one when
the two touch, for any notion of touching, and loses no point.
-/
namespace Mago.Library

variable {α : Type*} [LinearOrder α]

/-- The intervals that hold a point. -/
def Covered (intervals : List (α × α)) (x : α) : Prop :=
  ∃ p ∈ intervals, p.1 ≤ x ∧ x ≤ p.2

@[simp] theorem not_covered_nil {x : α} : ¬ Covered [] x := by
  simp [Covered]

@[simp] theorem covered_cons {p : α × α} {ps : List (α × α)} {x : α} :
    Covered (p :: ps) x ↔ (p.1 ≤ x ∧ x ≤ p.2) ∨ Covered ps x := by
  simp [Covered]

@[simp] theorem covered_append {ps qs : List (α × α)} {x : α} :
    Covered (ps ++ qs) x ↔ Covered ps x ∨ Covered qs x := by
  simp only [Covered, List.mem_append, or_and_right, exists_or]

theorem covered_of_perm {ps qs : List (α × α)} (h : ps.Perm qs) {x : α} (hx : Covered ps x) :
    Covered qs x := by
  obtain ⟨p, hp, hpx⟩ := hx
  exact ⟨p, h.mem_iff.mp hp, hpx⟩

/-- Join every interval to the running one as long as they touch. -/
def coalesce (touch : α → α → Bool) : α × α → List (α × α) → List (α × α)
  | current, [] => [current]
  | current, next :: rest =>
    if touch current.2 next.1 then
      coalesce touch (current.1, if current.2 < next.2 then next.2 else current.2) rest
    else
      current :: coalesce touch next rest

/-- The lower ends must not decrease: a running interval only grows upwards. -/
theorem covered_coalesce (touch : α → α → Bool) {current : α × α} {rest : List (α × α)}
    (hsorted : (current :: rest).Pairwise fun p q => p.1 ≤ q.1) {x : α}
    (hx : Covered (current :: rest) x) : Covered (coalesce touch current rest) x := by
  induction rest generalizing current with
  | nil => simpa [coalesce] using hx
  | cons next rest ih =>
    rw [List.pairwise_cons] at hsorted
    obtain ⟨hcurrent, hrest⟩ := hsorted
    rw [coalesce]
    split
    · apply ih
      · refine List.pairwise_cons.mpr ⟨fun q hq => ?_, (List.pairwise_cons.mp hrest).2⟩
        exact hcurrent q (List.mem_cons_of_mem _ hq)
      · have hnext : current.1 ≤ next.1 := hcurrent next (by simp)
        rw [covered_cons, covered_cons] at hx
        rw [covered_cons]
        rcases hx with ⟨hlow, hhigh⟩ | ⟨hlow, hhigh⟩ | hx
        · refine Or.inl ⟨hlow, ?_⟩
          split
          · exact hhigh.trans (le_of_lt ‹_›)
          · exact hhigh
        · refine Or.inl ⟨hnext.trans hlow, ?_⟩
          split
          · exact hhigh
          · exact hhigh.trans (not_lt.mp ‹_›)
        · exact Or.inr hx
    · rw [covered_cons] at hx ⊢
      exact hx.imp id fun hx => ih hrest hx

/-- What joining keeps of two intervals holds of all that coalescing returns. -/
theorem forall_mem_coalesce (touch : α → α → Bool) {P : α × α → Prop} {current : α × α}
    {rest : List (α × α)} (hP : ∀ p ∈ current :: rest, P p)
    (hjoin : ∀ p q, P p → P q → P (p.1, if p.2 < q.2 then q.2 else p.2)) :
    ∀ p ∈ coalesce touch current rest, P p := by
  induction rest generalizing current with
  | nil => simpa [coalesce] using hP
  | cons next rest ih =>
    rw [List.forall_mem_cons, List.forall_mem_cons] at hP
    obtain ⟨hcurrent, hnext, hrest⟩ := hP
    rw [coalesce]
    split
    · exact ih (List.forall_mem_cons.mpr ⟨hjoin current next hcurrent hnext, hrest⟩)
    · rw [List.forall_mem_cons]
      exact ⟨hcurrent, ih (List.forall_mem_cons.mpr ⟨hnext, hrest⟩)⟩

/-- A point that does not lie between intervals that touch is not added. -/
theorem covered_of_covered_coalesce {touch : α → α → Bool} {x : α}
    (htouch : ∀ stop start, touch stop start = true → stop < x → start ≤ x)
    {current : α × α} {rest : List (α × α)} (hx : Covered (coalesce touch current rest) x) :
    Covered (current :: rest) x := by
  induction rest generalizing current with
  | nil => simpa [coalesce] using hx
  | cons next rest ih =>
    rw [coalesce] at hx
    split at hx
    · rename_i hjoined
      have hx := ih hx
      rw [covered_cons] at hx
      rw [covered_cons, covered_cons]
      rcases hx with ⟨hlow, hhigh⟩ | hx
      · by_cases hle : x ≤ current.2
        · exact Or.inl ⟨hlow, hle⟩
        · have hlt := not_le.mp hle
          refine Or.inr (Or.inl ⟨htouch _ _ hjoined hlt, ?_⟩)
          split at hhigh
          · exact hhigh
          · exact absurd hhigh hle
      · exact Or.inr (Or.inr hx)
    · rw [covered_cons] at hx ⊢
      exact hx.imp id ih

/-- No two of the returned intervals touch. -/
theorem pairwise_coalesce {touch : α → α → Bool}
    (hmono : ∀ stop start start', start ≤ start' → touch stop start' = true →
      touch stop start = true)
    {current : α × α} {rest : List (α × α)}
    (hsorted : (current :: rest).Pairwise fun p q => p.1 ≤ q.1) :
    (coalesce touch current rest).Pairwise fun p q => touch p.2 q.1 = false := by
  induction rest generalizing current with
  | nil => simp [coalesce]
  | cons next rest ih =>
    rw [List.pairwise_cons] at hsorted
    obtain ⟨hcurrent, hrest⟩ := hsorted
    rw [coalesce]
    split
    · apply ih
      refine List.pairwise_cons.mpr ⟨fun q hq => ?_, (List.pairwise_cons.mp hrest).2⟩
      exact hcurrent q (List.mem_cons_of_mem _ hq)
    · rename_i hapart
      refine List.pairwise_cons.mpr ⟨fun q hq => ?_, ih hrest⟩
      have hstart : next.1 ≤ q.1 := by
        refine forall_mem_coalesce touch (P := fun p => next.1 ≤ p.1) ?_ ?_ q hq
        · exact List.forall_mem_cons.mpr ⟨le_rfl, (List.pairwise_cons.mp hrest).1⟩
        · intro p r hp _
          exact hp
      rw [Bool.eq_false_iff]
      exact fun h => hapart (hmono _ _ _ hstart h)

end Mago.Library
