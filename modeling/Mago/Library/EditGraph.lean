import Mathlib

/-!
# Edit graphs

Paths from the origin of a grid that step right and down at a cost, and diagonally for free
where two positions match. Paths may leave the grid to the right and below, where nothing
matches. A furthest point of a diagonal is the end of a run of free steps.
-/
namespace Mago.Library

variable {n m : ℕ} {same : ℕ → ℕ → Prop}

/-- A free step inside the grid. -/
def Matches (n m : ℕ) (same : ℕ → ℕ → Prop) (x y : ℕ) : Prop := x < n ∧ y < m ∧ same x y

/-- The points that paths of a cost lead to. -/
inductive Reach (n m : ℕ) (same : ℕ → ℕ → Prop) : ℕ → ℕ → ℕ → Prop
  | origin : Reach n m same 0 0 0
  | right {d x y : ℕ} : Reach n m same d x y → Reach n m same (d + 1) (x + 1) y
  | down {d x y : ℕ} : Reach n m same d x y → Reach n m same (d + 1) x (y + 1)
  | diagonal {d x y : ℕ} : Reach n m same d x y → Matches n m same x y →
      Reach n m same d (x + 1) (y + 1)

/-- A run of free steps. -/
def Snake (n m : ℕ) (same : ℕ → ℕ → Prop) (x₀ y₀ x y : ℕ) : Prop :=
  ∃ j, x = x₀ + j ∧ y = y₀ + j ∧ ∀ i < j, Matches n m same (x₀ + i) (y₀ + i)

/-- Where the last run of free steps of a path can start. -/
def Starts (n m : ℕ) (same : ℕ → ℕ → Prop) : ℕ → ℕ → ℕ → Prop
  | 0, x, y => x = 0 ∧ y = 0
  | d + 1, x, y => ∃ p q, Reach n m same d p q ∧ (x = p + 1 ∧ y = q ∨ x = p ∧ y = q + 1)

/-- The furthest point that paths of a cost lead to on a diagonal. -/
structure Furthest (n m : ℕ) (same : ℕ → ℕ → Prop) (d : ℕ) (k : ℤ) (x : ℕ) : Prop where
  reach : ∃ y : ℕ, (x : ℤ) - y = k ∧ Reach n m same d x y
  le : ∀ x' y' : ℕ, Reach n m same d x' y' → (x' : ℤ) - y' = k → x' ≤ x

namespace Reach

theorem diagonal_bounds {d x y : ℕ} (h : Reach n m same d x y) :
    -(d : ℤ) ≤ (x : ℤ) - y ∧ (x : ℤ) - y ≤ d := by
  induction h with
  | origin => simp
  | right _ ih => omega
  | down _ ih => omega
  | diagonal _ _ ih => omega

theorem diagonal_parity {d x y : ℕ} (h : Reach n m same d x y) :
    ((x : ℤ) - y) % 2 = (d : ℤ) % 2 := by
  induction h with
  | origin => rfl
  | right _ ih => omega
  | down _ ih => omega
  | diagonal _ _ ih => omega

/-- Every path leaves the grid at a cost. -/
theorem clamp {d x y : ℕ} (h : Reach n m same d x y) :
    ∃ d', d' + (x - n) + (y - m) = d ∧ Reach n m same d' (min x n) (min y m) := by
  induction h with
  | origin => exact ⟨0, by simp, by simpa using origin⟩
  | @right d x y _ ih =>
    obtain ⟨d', hd, hreach⟩ := ih
    by_cases hx : x < n
    · refine ⟨d' + 1, by omega, ?_⟩
      rw [min_eq_left hx]
      rw [min_eq_left hx.le] at hreach
      exact hreach.right
    · refine ⟨d', by omega, ?_⟩
      rw [min_eq_right (by omega)]
      rwa [min_eq_right (by omega)] at hreach
  | @down d x y _ ih =>
    obtain ⟨d', hd, hreach⟩ := ih
    by_cases hy : y < m
    · refine ⟨d' + 1, by omega, ?_⟩
      rw [min_eq_left (b := m) hy]
      rw [min_eq_left (a := y) hy.le] at hreach
      exact hreach.down
    · refine ⟨d', by omega, ?_⟩
      rw [min_eq_right (a := y + 1) (by omega)]
      rwa [min_eq_right (a := y) (by omega)] at hreach
  | @diagonal d x y _ hmatch ih =>
    obtain ⟨d', hd, hreach⟩ := ih
    obtain ⟨hx, hy, hsame⟩ := hmatch
    refine ⟨d', by omega, ?_⟩
    rw [min_eq_left hx, min_eq_left (b := m) hy]
    rw [min_eq_left hx.le, min_eq_left (b := m) hy.le] at hreach
    exact hreach.diagonal ⟨hx, hy, hsame⟩

/-- Without free steps the end is as far as both lists are long. -/
theorem all_steps (n m : ℕ) (same : ℕ → ℕ → Prop) : Reach n m same (n + m) n m := by
  have hright : ∀ x, Reach n m same x x 0 := by
    intro x
    induction x with
    | zero => exact origin
    | succ x ih => exact ih.right
  have hdown : ∀ y, Reach n m same (n + y) n y := by
    intro y
    induction y with
    | zero => exact hright n
    | succ y ih => exact ih.down
  exact hdown m

theorem snake {d x₀ y₀ x y : ℕ} (h : Reach n m same d x₀ y₀)
    (hsnake : Snake n m same x₀ y₀ x y) : Reach n m same d x y := by
  obtain ⟨j, rfl, rfl, hmatch⟩ := hsnake
  induction j with
  | zero => exact h
  | succ j ih => exact (ih fun i hi => hmatch i (by omega)).diagonal (hmatch j (by omega))

end Reach

theorem Snake.refl (x y : ℕ) : Snake n m same x y x y :=
  ⟨0, rfl, rfl, fun i hi => absurd hi (Nat.not_lt_zero i)⟩

theorem Snake.diagonal {x₀ y₀ x y : ℕ} (h : Snake n m same x₀ y₀ x y)
    (hmatch : Matches n m same x y) : Snake n m same x₀ y₀ (x + 1) (y + 1) := by
  obtain ⟨j, rfl, rfl, hall⟩ := h
  refine ⟨j + 1, rfl, rfl, fun i hi => ?_⟩
  rcases Nat.lt_succ_iff_lt_or_eq.mp hi with hlt | rfl
  · exact hall i hlt
  · exact hmatch

theorem Snake.prepend {x₀ y₀ x y : ℕ} (hmatch : Matches n m same x₀ y₀)
    (h : Snake n m same (x₀ + 1) (y₀ + 1) x y) : Snake n m same x₀ y₀ x y := by
  obtain ⟨j, rfl, rfl, hall⟩ := h
  refine ⟨j + 1, by omega, by omega, fun i hi => ?_⟩
  cases i with
  | zero => exact hmatch
  | succ i =>
    have := hall i (by omega)
    rwa [Nat.add_right_comm, Nat.add_right_comm y₀] at this

theorem Starts.reach {d x y : ℕ} (h : Starts n m same d x y) : Reach n m same d x y := by
  cases d with
  | zero =>
    obtain ⟨rfl, rfl⟩ := h
    exact .origin
  | succ d =>
    obtain ⟨p, q, hreach, ⟨rfl, rfl⟩ | ⟨rfl, rfl⟩⟩ := h
    · exact hreach.right
    · exact hreach.down

/-- A path ends with a run of free steps. -/
theorem Reach.exists_starts {d x y : ℕ} (h : Reach n m same d x y) :
    ∃ x₀ y₀, Starts n m same d x₀ y₀ ∧ Snake n m same x₀ y₀ x y := by
  induction h with
  | origin => exact ⟨0, 0, ⟨rfl, rfl⟩, .refl 0 0⟩
  | @right d x y h _ => exact ⟨x + 1, y, ⟨x, y, h, .inl ⟨rfl, rfl⟩⟩, .refl _ _⟩
  | @down d x y h _ => exact ⟨x, y + 1, ⟨x, y, h, .inr ⟨rfl, rfl⟩⟩, .refl _ _⟩
  | diagonal _ hmatch ih =>
    obtain ⟨x₀, y₀, hstarts, hsnake⟩ := ih
    exact ⟨x₀, y₀, hstarts, hsnake.diagonal hmatch⟩

namespace Furthest

theorem unique {d : ℕ} {k : ℤ} {x x' : ℕ} (h : Furthest n m same d k x)
    (h' : Furthest n m same d k x') : x = x' := by
  obtain ⟨y, hk, hreach⟩ := h.reach
  obtain ⟨y', hk', hreach'⟩ := h'.reach
  exact le_antisymm (h'.le x y hreach hk) (h.le x' y' hreach' hk')

/-- From the furthest start a run of free steps that cannot go on leads to the furthest
point. -/
theorem of_starts {d x₀ y₀ x y : ℕ} (hstarts : Starts n m same d x₀ y₀)
    (hfurthest : ∀ x₁ y₁ : ℕ, Starts n m same d x₁ y₁ → (x₁ : ℤ) - y₁ = (x₀ : ℤ) - y₀ → x₁ ≤ x₀)
    (hsnake : Snake n m same x₀ y₀ x y) (hstuck : ¬ Matches n m same x y) :
    Furthest n m same d ((x₀ : ℤ) - y₀) x := by
  refine ⟨⟨y, ?_, hstarts.reach.snake hsnake⟩, fun x' y' hreach' hk => ?_⟩
  · obtain ⟨j, rfl, rfl, -⟩ := hsnake
    omega
  · obtain ⟨x₁, y₁, hstarts', j', rfl, rfl, hmatch'⟩ := hreach'.exists_starts
    have hle := hfurthest x₁ y₁ hstarts' (by omega)
    obtain ⟨j, rfl, rfl, -⟩ := hsnake
    by_contra hlt
    -- the other path matches where this one is stuck
    have hmatch := hmatch' (x₀ + j - x₁) (by omega)
    have hx : x₁ + (x₀ + j - x₁) = x₀ + j := by omega
    have hy : y₁ + (x₀ + j - x₁) = y₀ + j := by omega
    rw [hx, hy] at hmatch
    exact hstuck hmatch

end Furthest

end Mago.Library
