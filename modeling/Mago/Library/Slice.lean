import Mathlib

/-!
# Slices

A slice of a list with the position where it starts. Cutting a slice gives parts of it, and
being a part is transitive, so whatever is cut from a list in many steps still lies in it.
-/
namespace Mago.Library

structure Slice (α : Type*) where
  start : ℕ
  elems : List α
  deriving DecidableEq, Repr

namespace Slice

variable {α : Type*}

def whole (xs : List α) : Slice α := ⟨0, xs⟩

def length (s : Slice α) : ℕ := s.elems.length

def stop (s : Slice α) : ℕ := s.start + s.length

def isEmpty (s : Slice α) : Bool := s.elems.isEmpty

def take (n : ℕ) (s : Slice α) : Slice α := ⟨s.start, s.elems.take n⟩

def drop (n : ℕ) (s : Slice α) : Slice α := ⟨s.start + min n s.length, s.elems.drop n⟩

def dropWhile (p : α → Bool) (s : Slice α) : Slice α := s.drop (s.elems.takeWhile p).length

def rdropWhile (p : α → Bool) (s : Slice α) : Slice α := s.take (s.elems.rdropWhile p).length

/-- Without the elements of a kind at both ends. -/
def trim (p : α → Bool) (s : Slice α) : Slice α := (s.dropWhile p).rdropWhile p

@[simp] theorem stop_eq (s : Slice α) : s.stop = s.start + s.elems.length := rfl

/-! ## Parts -/

/-- The slice `s` is cut from `t`. -/
def Part (s t : Slice α) : Prop :=
  ∃ before after, t.elems = before ++ s.elems ++ after ∧ s.start = t.start + before.length

theorem Part.refl (s : Slice α) : Part s s := ⟨[], [], by simp, by simp⟩

theorem Part.trans {s t u : Slice α} (hst : Part s t) (htu : Part t u) : Part s u := by
  obtain ⟨before, after, helems, hstart⟩ := hst
  obtain ⟨before', after', helems', hstart'⟩ := htu
  refine ⟨before' ++ before, after ++ after', ?_, ?_⟩
  · rw [helems', helems]
    simp only [List.append_assoc]
  · rw [hstart, hstart', List.length_append]
    omega

theorem Part.start_le {s t : Slice α} (h : Part s t) : t.start ≤ s.start := by
  obtain ⟨before, after, -, hstart⟩ := h
  omega

theorem Part.stop_le {s t : Slice α} (h : Part s t) : s.stop ≤ t.stop := by
  obtain ⟨before, after, helems, hstart⟩ := h
  rw [stop_eq, stop_eq, helems, hstart]
  simp only [List.length_append]
  omega

theorem part_take (n : ℕ) (s : Slice α) : Part (s.take n) s :=
  ⟨[], s.elems.drop n, by simp [take], by simp [take]⟩

theorem part_drop (n : ℕ) (s : Slice α) : Part (s.drop n) s :=
  ⟨s.elems.take n, [], by simp [drop], by simp [drop, length]⟩

theorem part_dropWhile (p : α → Bool) (s : Slice α) : Part (s.dropWhile p) s := part_drop _ s

theorem part_rdropWhile (p : α → Bool) (s : Slice α) : Part (s.rdropWhile p) s := part_take _ s

theorem part_trim (p : α → Bool) (s : Slice α) : Part (s.trim p) s :=
  (part_rdropWhile p _).trans (part_dropWhile p s)

/-- Cutting at the front keeps the end. -/
theorem stop_drop (n : ℕ) (s : Slice α) : (s.drop n).stop = s.stop := by
  simp only [stop_eq, drop, length, List.length_drop]
  omega

theorem stop_dropWhile (p : α → Bool) (s : Slice α) : (s.dropWhile p).stop = s.stop :=
  stop_drop _ s

/-- The elements between two positions of a list. -/
def between (xs : List α) (start stop : ℕ) : List α := (xs.take stop).drop start

/-- What a part of a list holds is what the list holds there. -/
theorem Part.between_eq {xs : List α} {s : Slice α} (h : Part s (whole xs)) :
    between xs s.start s.stop = s.elems := by
  obtain ⟨before, after, helems, hstart⟩ := h
  have hwhole : xs = before ++ s.elems ++ after := helems
  have hstart' : s.start = before.length := by simpa [whole] using hstart
  have htake : xs.take (before.length + s.elems.length) = before ++ s.elems := by
    rw [hwhole, ← List.length_append]
    exact List.take_left
  rw [between, stop_eq, hstart', htake]
  exact List.drop_left

/-! ## Pieces -/

/-- The pieces between the elements of a kind, as slices from a position on. -/
def piecesFrom (p : α → Bool) (start : ℕ) : List α → List (Slice α)
  | [] => [⟨start, []⟩]
  | x :: xs =>
    if p x then ⟨start, []⟩ :: piecesFrom p (start + 1) xs
    else match piecesFrom p (start + 1) xs with
      | [] => [⟨start, [x]⟩]
      | piece :: pieces => ⟨start, x :: piece.elems⟩ :: pieces

def pieces (p : α → Bool) (s : Slice α) : List (Slice α) := piecesFrom p s.start s.elems

/-- Slices of a list that follow one another, with something between any two. -/
def Successive (s : Slice α) (parts : List (Slice α)) : Prop :=
  (∀ part ∈ parts, Part part s) ∧ parts.Pairwise fun a b => a.stop < b.start

theorem part_cons {s : Slice α} {start : ℕ} {xs : List α} (x : α)
    (h : Part s ⟨start + 1, xs⟩) : Part s ⟨start, x :: xs⟩ := by
  obtain ⟨before, after, helems, hstart⟩ := h
  have hxs : xs = before ++ s.elems ++ after := helems
  have hstart' : s.start = start + 1 + before.length := hstart
  refine ⟨x :: before, after, ?_, ?_⟩
  · simp [hxs]
  · simp only [List.length_cons]
    omega

/-- The first piece starts with the list and runs on when an element is put in front. -/
theorem part_extend {start : ℕ} {elems xs : List α} (x : α)
    (h : Part ⟨start + 1, elems⟩ ⟨start + 1, xs⟩) : Part ⟨start, x :: elems⟩ ⟨start, x :: xs⟩ := by
  obtain ⟨before, after, helems, hstart⟩ := h
  have hbefore : before = [] := List.length_eq_zero_iff.mp (by simpa using hstart)
  have hxs : xs = before ++ elems ++ after := helems
  refine ⟨[], after, ?_, by simp⟩
  simp [hxs, hbefore]

theorem piecesFrom_start (p : α → Bool) (start : ℕ) (xs : List α) :
    ∃ elems pieces, piecesFrom p start xs = ⟨start, elems⟩ :: pieces := by
  cases xs with
  | nil => exact ⟨[], [], rfl⟩
  | cons x xs =>
    cases hx : p x with
    | true => exact ⟨[], piecesFrom p (start + 1) xs, by simp [piecesFrom, hx]⟩
    | false =>
      simp only [piecesFrom, hx, Bool.false_eq_true, if_false]
      cases piecesFrom p (start + 1) xs with
      | nil => exact ⟨[x], [], rfl⟩
      | cons piece pieces => exact ⟨x :: piece.elems, pieces, rfl⟩

theorem successive_piecesFrom (p : α → Bool) (start : ℕ) (xs : List α) :
    Successive ⟨start, xs⟩ (piecesFrom p start xs) := by
  induction xs generalizing start with
  | nil => exact ⟨by simpa [piecesFrom] using Part.refl _, by simp [piecesFrom]⟩
  | cons x xs ih =>
    obtain ⟨hparts, hpairwise⟩ := ih (start + 1)
    cases hx : p x with
    | true =>
      simp only [piecesFrom, hx, if_true]
      constructor
      · intro part hpart
        cases hpart with
        | head => exact ⟨[], x :: xs, rfl, rfl⟩
        | tail _ hpart => exact part_cons x (hparts part hpart)
      · refine List.pairwise_cons.mpr ⟨fun part hpart => ?_, hpairwise⟩
        have hle := (hparts part hpart).start_le
        simp only [stop_eq, List.length_nil] at hle ⊢
        omega
    | false =>
      obtain ⟨elems, pieces, hpieces⟩ := piecesFrom_start p (start + 1) xs
      rw [hpieces] at hparts hpairwise
      obtain ⟨hfirst, hrest⟩ := List.pairwise_cons.mp hpairwise
      simp only [piecesFrom, hx, hpieces, Bool.false_eq_true, if_false]
      constructor
      · intro part hpart
        cases hpart with
        | head => exact part_extend x (hparts _ List.mem_cons_self)
        | tail _ hpart => exact part_cons x (hparts part (List.mem_cons_of_mem _ hpart))
      · refine List.pairwise_cons.mpr ⟨fun part hpart => ?_, hrest⟩
        have hlt := hfirst part hpart
        simp only [stop_eq, List.length_cons] at hlt ⊢
        omega

theorem successive_pieces (p : α → Bool) (s : Slice α) : Successive s (s.pieces p) :=
  successive_piecesFrom p s.start s.elems

/-- Parts of successive slices are successive. -/
theorem Successive.map {s : Slice α} {parts : List (Slice α)} (h : Successive s parts)
    {f : Slice α → Slice α} (hf : ∀ part, Part (f part) part) : Successive s (parts.map f) := by
  obtain ⟨hparts, hpairwise⟩ := h
  constructor
  · intro part hpart
    obtain ⟨part', hpart', rfl⟩ := List.mem_map.mp hpart
    exact (hf part').trans (hparts part' hpart')
  · refine List.pairwise_map.mpr (hpairwise.imp fun {a b} hab => ?_)
    have hstop := (hf a).stop_le
    have hstart := (hf b).start_le
    omega

end Slice

end Mago.Library
