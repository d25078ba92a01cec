import Mathlib

/-!
# Extreme values at the corners of a box

A function that is monotone or antitone in each of its arguments, in whatever combination,
takes its extreme values on a box at the corners of the box.
-/
namespace Mago.Library

variable {α β : Type*} [LinearOrder α] [LinearOrder β]

/-- On the interval the function rises throughout or falls throughout. -/
def OneWay (f : α → β) (l u : α) : Prop :=
  MonotoneOn f (Set.Icc l u) ∨ AntitoneOn f (Set.Icc l u)

/-- A bound for both ends bounds what lies between. -/
theorem OneWay.between {f : α → β} {l u x : α} (h : OneWay f l u) (hx : x ∈ Set.Icc l u) :
    min (f l) (f u) ≤ f x ∧ f x ≤ max (f l) (f u) := by
  obtain ⟨hlx, hxu⟩ := hx
  have hlu := hlx.trans hxu
  have hl : l ∈ Set.Icc l u := ⟨le_rfl, hlu⟩
  have hu : u ∈ Set.Icc l u := ⟨hlu, le_rfl⟩
  rcases h with h | h
  · exact ⟨(min_le_left _ _).trans (h hl ⟨hlx, hxu⟩ hlx),
      (h ⟨hlx, hxu⟩ hu hxu).trans (le_max_right _ _)⟩
  · exact ⟨(min_le_right _ _).trans (h ⟨hlx, hxu⟩ hu hxu),
      (h hl ⟨hlx, hxu⟩ hlx).trans (le_max_left _ _)⟩

def lowest (f : α → α → β) (l₁ u₁ l₂ u₂ : α) : β :=
  min (min (f l₁ l₂) (f l₁ u₂)) (min (f u₁ l₂) (f u₁ u₂))

def highest (f : α → α → β) (l₁ u₁ l₂ u₂ : α) : β :=
  max (max (f l₁ l₂) (f l₁ u₂)) (max (f u₁ l₂) (f u₁ u₂))

variable {f : α → α → β} {l₁ u₁ l₂ u₂ x y : α}

section Order

omit [LinearOrder α]

theorem lowest_le_highest : lowest f l₁ u₁ l₂ u₂ ≤ highest f l₁ u₁ l₂ u₂ :=
  ((min_le_left _ _).trans (min_le_left _ _)).trans
    ((le_max_left _ _).trans (le_max_left _ _))

/-- What holds of the corners holds of the lowest of them. -/
theorem lowest_of_corners {P : β → Prop} (h₁ : P (f l₁ l₂)) (h₂ : P (f l₁ u₂))
    (h₃ : P (f u₁ l₂)) (h₄ : P (f u₁ u₂)) : P (lowest f l₁ u₁ l₂ u₂) :=
  min_rec' P (min_rec' P h₁ h₂) (min_rec' P h₃ h₄)

theorem highest_of_corners {P : β → Prop} (h₁ : P (f l₁ l₂)) (h₂ : P (f l₁ u₂))
    (h₃ : P (f u₁ l₂)) (h₄ : P (f u₁ u₂)) : P (highest f l₁ u₁ l₂ u₂) :=
  max_rec' P (max_rec' P h₁ h₂) (max_rec' P h₃ h₄)

end Order

/-- The values on the box lie between those at the corners. -/
theorem between_corners (h₁ : OneWay (fun x => f x y) l₁ u₁)
    (h₂ : ∀ x, OneWay (f x) l₂ u₂) (hx : x ∈ Set.Icc l₁ u₁) (hy : y ∈ Set.Icc l₂ u₂) :
    lowest f l₁ u₁ l₂ u₂ ≤ f x y ∧ f x y ≤ highest f l₁ u₁ l₂ u₂ := by
  obtain ⟨hlow, hhigh⟩ := h₁.between hx
  obtain ⟨hlow₁, hhigh₁⟩ := (h₂ l₁).between hy
  obtain ⟨hlow₂, hhigh₂⟩ := (h₂ u₁).between hy
  exact ⟨(min_le_min hlow₁ hlow₂).trans hlow, hhigh.trans (max_le_max hhigh₁ hhigh₂)⟩

end Mago.Library
