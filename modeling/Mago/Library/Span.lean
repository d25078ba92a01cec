import Mathlib

/-!
# Ordered spans

Spans over a linear order, given by their two end points `lo` and `hi`. A span with
`lo = hi` is a point. Two spans conflict when one reaches into the interior of the
other, so points never conflict with each other or with the boundary of a span.
-/
namespace Mago.Library

variable {α β : Type*} [LinearOrder α] (lo hi : β → α)

def Conflict (x y : β) : Prop := lo x < hi y ∧ lo y < hi x

/-- The span `x` ends before or where `y` starts. -/
def Precedes (x y : β) : Prop := hi x ≤ lo y

/-- Lexicographic order on the pair of end points. -/
def SpanLe (x y : β) : Prop := lo x < lo y ∨ lo x = lo y ∧ hi x ≤ hi y

instance (x y : β) : Decidable (Conflict lo hi x y) := inferInstanceAs (Decidable (_ ∧ _))

instance (x y : β) : Decidable (SpanLe lo hi x y) := inferInstanceAs (Decidable (_ ∨ _))

variable {lo hi}

theorem Conflict.symm {x y : β} (h : Conflict lo hi x y) : Conflict lo hi y x := ⟨h.2, h.1⟩

theorem SpanLe.lo_le {x y : β} (h : SpanLe lo hi x y) : lo x ≤ lo y := by
  rcases h with h | h
  · exact h.le
  · exact h.1.le

theorem SpanLe.trans {x y z : β} (hxy : SpanLe lo hi x y) (hyz : SpanLe lo hi y z) :
    SpanLe lo hi x z := by
  rcases hxy with hxy | ⟨hxy, hxy'⟩
  · exact .inl (hxy.trans_le hyz.lo_le)
  · rcases hyz with hyz | ⟨hyz, hyz'⟩
    · exact .inl (hxy ▸ hyz)
    · exact .inr ⟨hxy.trans hyz, hxy'.trans hyz'⟩

theorem SpanLe.total (x y : β) : SpanLe lo hi x y ∨ SpanLe lo hi y x := by
  rcases lt_trichotomy (lo x) (lo y) with h | h | h
  · exact .inl (.inl h)
  · rcases le_total (hi x) (hi y) with h' | h'
    · exact .inl (.inr ⟨h, h'⟩)
    · exact .inr (.inr ⟨h.symm, h'⟩)
  · exact .inr (.inl h)

theorem Precedes.not_conflict {x y : β} (h : Precedes lo hi x y) : ¬ Conflict lo hi x y :=
  fun hc => not_lt_of_ge h hc.2

theorem Precedes.trans {x y z : β} (hxy : Precedes lo hi x y) (hy : lo y ≤ hi y)
    (hyz : Precedes lo hi y z) : Precedes lo hi x z :=
  le_trans hxy (le_trans hy hyz)

theorem Precedes.spanLe {x y : β} (h : Precedes lo hi x y) (hx : lo x ≤ hi x)
    (hy : lo y ≤ hi y) : SpanLe lo hi x y := by
  rcases (le_trans hx h).lt_or_eq with hlt | heq
  · exact .inl hlt
  · exact .inr ⟨heq, le_trans h hy⟩

/-- In lexicographic order a span that does not conflict with its successor ends before it. -/
theorem SpanLe.precedes {x y : β} (h : SpanLe lo hi x y) (hy : lo y ≤ hi y)
    (hc : ¬ Conflict lo hi x y) : Precedes lo hi x y := by
  by_contra hp
  have hlt : lo y < hi x := not_le.mp hp
  have hle : hi y ≤ lo x := not_lt.mp fun hxy => hc ⟨hxy, hlt⟩
  rcases h with h | ⟨h, h'⟩
  · exact absurd (h.trans_le hy) (not_lt.mpr hle)
  · exact absurd (hlt.trans_le (h'.trans hle)) (by rw [h]; exact lt_irrefl _)

theorem pairwise_precedes_of_isChain {xs : List β} (hw : ∀ x ∈ xs, lo x ≤ hi x)
    (hle : xs.Pairwise (SpanLe lo hi)) (hc : xs.IsChain fun x y => ¬ Conflict lo hi x y) :
    xs.Pairwise (Precedes lo hi) := by
  induction xs with
  | nil => exact List.Pairwise.nil
  | cons x xs ih =>
    obtain ⟨hx, hxs⟩ := List.pairwise_cons.mp hle
    have htail := ih (fun y hy => hw y (List.mem_cons_of_mem _ hy)) hxs hc.tail
    refine List.pairwise_cons.mpr ⟨?_, htail⟩
    cases xs with
    | nil => simp
    | cons y ys =>
      have hwy := hw y (by simp)
      have hxy : Precedes lo hi x y :=
        (hx y (by simp)).precedes hwy (List.isChain_cons_cons.mp hc).1
      intro z hz
      rcases List.mem_cons.mp hz with rfl | hz
      · exact hxy
      · exact hxy.trans hwy ((List.pairwise_cons.mp htail).1 z hz)

/-- For ordered spans, being free of conflicts and following one another is the same. -/
theorem pairwise_precedes_iff {xs : List β} (hw : ∀ x ∈ xs, lo x ≤ hi x) :
    xs.Pairwise (Precedes lo hi) ↔
      xs.Pairwise (SpanLe lo hi) ∧ xs.Pairwise fun x y => ¬ Conflict lo hi x y := by
  constructor
  · intro h
    refine ⟨?_, h.imp Precedes.not_conflict⟩
    exact h.imp_of_mem fun hx hy hxy => hxy.spanLe (hw _ hx) (hw _ hy)
  · rintro ⟨hle, hc⟩
    exact (hle.and hc).imp_of_mem fun _ hy h => h.1.precedes (hw _ hy) h.2

/-! ## Merge sweep

The sweep walks two lists in parallel, testing their heads for a conflict. It drops the
head of the first list when that one comes strictly before the other, and otherwise the
head of the second list. -/

section Sweep
variable (conflict before : β → β → Bool)

/-- Advance the second list under the head `x` of the first; `rest` continues after `x`. -/
def sweepHead (x : β) (rest : List β → Bool) : List β → Bool
  | [] => false
  | y :: ys =>
    if conflict x y then true
    else if before x y then rest (y :: ys)
    else sweepHead x rest ys

def sweep : List β → List β → Bool
  | [] => fun _ => false
  | x :: xs => sweepHead conflict before x (sweep xs)

@[simp] theorem sweep_nil_left (ys : List β) : sweep conflict before [] ys = false := rfl

@[simp] theorem sweep_nil_right (xs : List β) : sweep conflict before xs [] = false := by
  cases xs <;> rfl

theorem sweep_cons_cons (x y : β) (xs ys : List β) :
    sweep conflict before (x :: xs) (y :: ys) =
      if conflict x y then true
      else if before x y then sweep conflict before xs (y :: ys)
      else sweep conflict before (x :: xs) ys := rfl

end Sweep

variable (lo hi) in
/-- A point of `xs` stands exactly where `y` starts. -/
def Masked (xs : List β) (y : β) : Prop := ∃ x ∈ xs, lo x = lo y ∧ hi x = lo y

theorem not_masked_of_conflict {x y : β} {xs : List β}
    (hxs : ∀ x' ∈ xs, Precedes lo hi x x') (hc : Conflict lo hi x y) :
    ¬ Masked lo hi (x :: xs) y := by
  rintro ⟨e, he, hlo, hhi⟩
  rcases List.mem_cons.mp he with rfl | he
  · exact absurd hc.2 (by rw [hhi]; exact lt_irrefl _)
  · have hle : hi x ≤ lo y := hlo ▸ hxs e he
    exact absurd hc.2 (not_lt.mpr hle)

/-- A span that is passed before `y` neither conflicts with nor masks `y` or a later span. -/
theorem precedes_of_passed {x y z : β} {ys : List β} (hyw : ∀ y' ∈ y :: ys, lo y' ≤ hi y')
    (hys : (y :: ys).Pairwise (Precedes lo hi)) (hc : ¬ Conflict lo hi x y) (hlt : lo x < lo y)
    (hz : z ∈ y :: ys) : Precedes lo hi x z ∧ lo x < lo z := by
  have hwy := hyw y (by simp)
  have hxy : Precedes lo hi x y := not_lt.mp fun h => hc ⟨hlt.trans_le hwy, h⟩
  rcases List.mem_cons.mp hz with rfl | hz
  · exact ⟨hxy, hlt⟩
  · have hyz : hi y ≤ lo z := (List.pairwise_cons.mp hys).1 z hz
    exact ⟨hxy.trans hwy hyz, hlt.trans_le (hwy.trans hyz)⟩

/-- A conflict that the sweep skips by dropping `y` is masked by the head of the first list. -/
theorem masked_of_skipped {x x' y : β} {xs : List β} (hxw : ∀ x' ∈ x :: xs, lo x' ≤ hi x')
    (hxs : (x :: xs).Pairwise (Precedes lo hi)) (hc : ¬ Conflict lo hi x y)
    (hle : lo y ≤ lo x) (hx' : x' ∈ x :: xs) (hc' : Conflict lo hi x' y) :
    Masked lo hi (x :: xs) y := by
  have hwx := hxw x (by simp)
  have hxx' : lo x ≤ lo x' := by
    rcases List.mem_cons.mp hx' with rfl | hx'
    · exact le_rfl
    · exact hwx.trans ((List.pairwise_cons.mp hxs).1 x' hx')
  have hhi : hi x ≤ lo y := not_lt.mp fun h => hc ⟨hxx'.trans_lt hc'.1, h⟩
  exact ⟨x, by simp, le_antisymm (hwx.trans hhi) hle, le_antisymm hhi (hle.trans hwx)⟩

/-- The sweep reports exactly the conflicts whose second span is not masked by a point
of the first list. -/
theorem sweep_eq_true_iff {conflict before : β → β → Bool}
    (hconflict : ∀ x y, conflict x y = true ↔ Conflict lo hi x y)
    (hbefore : ∀ x y, before x y = true ↔ lo x < lo y) {xs ys : List β}
    (hxw : ∀ x ∈ xs, lo x ≤ hi x) (hyw : ∀ y ∈ ys, lo y ≤ hi y)
    (hxs : xs.Pairwise (Precedes lo hi)) (hys : ys.Pairwise (Precedes lo hi)) :
    sweep conflict before xs ys = true ↔
      ∃ x ∈ xs, ∃ y ∈ ys, Conflict lo hi x y ∧ ¬ Masked lo hi xs y := by
  induction xs generalizing ys with
  | nil => simp
  | cons x xs ihx =>
    induction ys with
    | nil => simp
    | cons y ys ihy =>
      rw [sweep_cons_cons]
      simp only [hconflict, hbefore]
      split_ifs with hc hlt
      · have hm := not_masked_of_conflict (List.pairwise_cons.mp hxs).1 hc
        exact ⟨fun _ => ⟨x, by simp, y, by simp, hc, hm⟩, fun _ => rfl⟩
      · rw [ihx (fun z hz => hxw z (by simp [hz])) hyw hxs.of_cons hys]
        have hlate : ∀ z ∈ y :: ys, Precedes lo hi x z ∧ lo x < lo z :=
          fun z hz => precedes_of_passed hyw hys hc hlt hz
        have hmask : ∀ z ∈ y :: ys, Masked lo hi (x :: xs) z ↔ Masked lo hi xs z := by
          intro z hz
          have hne : lo x ≠ lo z := (hlate z hz).2.ne
          simp [Masked, hne]
        constructor
        · rintro ⟨x', hx', z, hz, hcz, hmz⟩
          exact ⟨x', by simp [hx'], z, hz, hcz, fun h => hmz ((hmask z hz).mp h)⟩
        · rintro ⟨x', hx', z, hz, hcz, hmz⟩
          rcases List.mem_cons.mp hx' with rfl | hx'
          · exact absurd hcz (hlate z hz).1.not_conflict
          · exact ⟨x', hx', z, hz, hcz, fun h => hmz ((hmask z hz).mpr h)⟩
      · rw [ihy (fun z hz => hyw z (by simp [hz])) hys.of_cons]
        constructor
        · rintro ⟨x', hx', z, hz, h⟩
          exact ⟨x', hx', z, by simp [hz], h⟩
        · rintro ⟨x', hx', z, hz, hcz, hmz⟩
          rcases List.mem_cons.mp hz with rfl | hz
          · exact absurd (masked_of_skipped hxw hxs hc (not_lt.mp hlt) hx' hcz) hmz
          · exact ⟨x', hx', z, hz, hcz, hmz⟩

end Mago.Library
