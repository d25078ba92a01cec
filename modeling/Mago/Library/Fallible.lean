import Mathlib

/-!
# Loops that may fail

A loop over a list that stops at the first failure. Where it succeeds, every step has succeeded,
so what the steps keep of the part that is done holds at the end.
-/
namespace Mago.Library

universe u

variable {ε α β γ : Type u}

/-- A step followed by another one succeeds as both do. -/
theorem bind_eq_ok_iff {x : Except ε α} {f : α → Except ε β} {b : β} :
    x >>= f = .ok b ↔ ∃ a, x = .ok a ∧ f a = .ok b := by
  cases x with
  | error e =>
    constructor
    · intro h
      cases h
    · intro h
      obtain ⟨_, h, _⟩ := h
      cases h
  | ok a =>
    constructor
    · intro h
      exact ⟨a, rfl, h⟩
    · intro h
      obtain ⟨_, h, hf⟩ := h
      cases h
      exact hf

/-- An error of two steps is one of either. -/
theorem bind_ne_error {x : Except ε α} {f : α → Except ε β} {bad : ε} (hx : x ≠ .error bad)
    (hf : ∀ a, x = .ok a → f a ≠ .error bad) : x >>= f ≠ .error bad := by
  cases x with
  | error e =>
    intro h
    cases h
    exact hx rfl
  | ok a => exact hf a rfl

theorem mapError_ne_error {δ : Type u} {x : Except ε α} {f : ε → δ} {bad : δ}
    (h : ∀ e, f e ≠ bad) : x.mapError f ≠ .error bad := by
  cases x with
  | error e =>
    intro hbad
    exact h e (Except.error.inj hbad)
  | ok a =>
    intro hbad
    cases hbad

theorem mapError_eq_ok_iff {δ : Type u} {x : Except ε α} {f : ε → δ} {a : α} :
    x.mapError f = .ok a ↔ x = .ok a := by
  cases x with
  | error e => exact iff_of_false nofun nofun
  | ok b => rw [Except.mapError, Except.ok.injEq, Except.ok.injEq]

theorem foldlM_cons_eq_ok_iff {f : β → α → Except ε β} {x : α} {xs : List α} {b b' : β} :
    (x :: xs).foldlM f b = .ok b' ↔ ∃ b'', f b x = .ok b'' ∧ xs.foldlM f b'' = .ok b' := by
  rw [List.foldlM_cons, bind_eq_ok_iff]

/-- What holds of the part that is done and is kept by every step holds of the whole. -/
theorem foldlM_invariant {f : β → α → Except ε β} {P : List α → β → Prop} {xs : List α} {b b' : β}
    (hnil : P [] b)
    (hstep : ∀ done x b b', P done b → f b x = .ok b' → P (done ++ [x]) b')
    (h : xs.foldlM f b = .ok b') : P xs b' := by
  suffices hfrom : ∀ done b, P done b → xs.foldlM f b = .ok b' → P (done ++ xs) b' from
    hfrom [] b hnil h
  clear hnil h b
  induction xs with
  | nil =>
    intro done b hP h
    cases h
    rwa [List.append_nil]
  | cons x xs ih =>
    intro done b hP h
    obtain ⟨b'', hx, hxs⟩ := foldlM_cons_eq_ok_iff.mp h
    rw [List.append_cons]
    exact ih _ _ (hstep _ _ _ _ hP hx) hxs

/-- An error of the loop is one of a step. -/
theorem foldlM_ne_error {f : β → α → Except ε β} {bad : ε} {xs : List α} {b : β}
    (h : ∀ b, ∀ x ∈ xs, f b x ≠ .error bad) : xs.foldlM f b ≠ .error bad := by
  induction xs generalizing b with
  | nil => exact nofun
  | cons x xs ih =>
    rw [List.foldlM_cons]
    exact bind_ne_error (h b x List.mem_cons_self) fun _ _ =>
      ih fun b x hx => h b x (List.mem_cons_of_mem _ hx)

theorem mapM_eq_ok_iff {f : α → Except ε γ} {xs : List α} {ys : List γ} :
    xs.mapM f = .ok ys ↔ List.Forall₂ (fun x y => f x = .ok y) xs ys := by
  induction xs generalizing ys with
  | nil =>
    rw [List.mapM_nil, List.forall₂_nil_left_iff]
    constructor
    · intro h
      cases h
      rfl
    · intro h
      rw [h]
      rfl
  | cons x xs ih =>
    rw [List.mapM_cons, List.forall₂_cons_left_iff, bind_eq_ok_iff]
    simp only [bind_eq_ok_iff, ih]
    constructor
    · intro h
      obtain ⟨y, hy, ys', hys, h⟩ := h
      cases h
      exact ⟨y, ys', hy, hys, rfl⟩
    · intro h
      obtain ⟨y, ys', hy, hys, rfl⟩ := h
      exact ⟨y, hy, ys', hys, rfl⟩

end Mago.Library
