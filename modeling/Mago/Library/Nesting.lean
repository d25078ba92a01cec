import Mathlib.Data.List.Basic
import Mathlib.Data.Nat.Notation
import Mathlib.Tactic

/-!
# Nested words

A letter opens, closes or leaves alone; a word is nested when every closing letter meets the
opening letter of its kind that was opened last, and none stays open.
-/
namespace Mago.Library

inductive Nesting (κ : Type*)
  | opens (k : κ)
  | closes (k : κ)
  | within
  deriving DecidableEq, Repr

namespace Nesting

variable {κ : Type*} [DecidableEq κ]

/-- What is open behind a letter, the last one first. -/
def step (pending : List κ) : Nesting κ → Option (List κ)
  | opens k => some (k :: pending)
  | closes k =>
    match pending with
    | [] => none
    | top :: rest => if top = k then some rest else none
  | within => some pending

/-- What is open behind a word. -/
def run : List κ → List (Nesting κ) → Option (List κ)
  | pending, [] => some pending
  | pending, letter :: word => (step pending letter).bind fun after => run after word

def WellNested (word : List (Nesting κ)) : Prop := run [] word = some []

instance (word : List (Nesting κ)) : Decidable (WellNested word) :=
  inferInstanceAs (Decidable (run [] word = some []))

/-- How many letters open a kind for which `p` holds. -/
def opened (p : κ → Bool) (word : List (Nesting κ)) : ℕ :=
  word.countP fun letter => match letter with
    | opens k => p k
    | _ => false

def closed (p : κ → Bool) (word : List (Nesting κ)) : ℕ :=
  word.countP fun letter => match letter with
    | closes k => p k
    | _ => false

omit [DecidableEq κ] in
theorem opened_cons (p : κ → Bool) (letter : Nesting κ) (word : List (Nesting κ)) :
    opened p (letter :: word) = opened p [letter] + opened p word := by
  simp only [opened, List.countP_cons, List.countP_nil]
  omega

omit [DecidableEq κ] in
theorem closed_cons (p : κ → Bool) (letter : Nesting κ) (word : List (Nesting κ)) :
    closed p (letter :: word) = closed p [letter] + closed p word := by
  simp only [closed, List.countP_cons, List.countP_nil]
  omega

theorem count_step {p : κ → Bool} {pending after : List κ} {letter : Nesting κ}
    (h : step pending letter = some after) :
    opened p [letter] + pending.countP p = closed p [letter] + after.countP p := by
  cases letter with
  | opens k =>
    cases h
    simp only [opened, closed, List.countP_cons, List.countP_nil]
    simp
    omega
  | closes k =>
    cases pending with
    | nil => cases h
    | cons top rest =>
      unfold step at h
      dsimp only at h
      split_ifs at h with htop
      cases h
      simp only [opened, closed, List.countP_cons, List.countP_nil, htop]
      simp
      omega
  | within =>
    cases h
    simp [opened, closed]

/-- What is opened and not closed stays open. -/
theorem count_run {p : κ → Bool} {pending after : List κ} {word : List (Nesting κ)}
    (h : run pending word = some after) :
    opened p word + pending.countP p = closed p word + after.countP p := by
  induction word generalizing pending with
  | nil =>
    cases h
    simp [opened, closed]
  | cons letter word ih =>
    obtain ⟨next, hstep, hrun⟩ := Option.bind_eq_some_iff.mp h
    have hletter := count_step (p := p) hstep
    have hword := ih hrun
    rw [opened_cons, closed_cons]
    omega

theorem WellNested.count {p : κ → Bool} {word : List (Nesting κ)} (h : WellNested word) :
    opened p word = closed p word := by
  have hcount := count_run (p := p) h
  simpa using hcount

end Nesting

end Mago.Library
