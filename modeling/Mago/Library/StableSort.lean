import Mathlib

/-!
# Stable sorting and merging

For a total and transitive boolean comparison, a sorted list is determined by the order of
its ties. Insertion sort keeps the order of ties and a merge puts those of the first list
before those of the second, so merging two sorted lists is sorting their concatenation.
-/
namespace Mago.Library

variable {α : Type*} {le : α → α → Bool}

/-- Neither comes before the other. -/
def tie (le : α → α → Bool) (a b : α) : Bool := le a b && le b a

theorem tie_self (htotal : ∀ a b, le a b = true ∨ le b a = true) (a : α) : tie le a a = true := by
  have := htotal a a
  simp_all [tie]

/-- Sorted lists whose ties agree are equal. -/
theorem eq_of_ties (htotal : ∀ a b, le a b = true ∨ le b a = true) {xs ys : List α}
    (hx : xs.Pairwise fun a b => le a b = true) (hy : ys.Pairwise fun a b => le a b = true)
    (h : ∀ a, xs.filter (tie le a) = ys.filter (tie le a)) : xs = ys := by
  have hmem : ∀ z, z ∈ xs ↔ z ∈ ys := by
    intro z
    have := congrArg (z ∈ ·) (h z)
    simpa [List.mem_filter, tie_self htotal z] using this
  induction xs generalizing ys with
  | nil =>
    cases ys with
    | nil => rfl
    | cons y ys => simpa using hmem y
  | cons x xs ih =>
    cases ys with
    | nil => simpa using hmem x
    | cons y ys =>
      rw [List.pairwise_cons] at hx hy
      have hxy : le x y = true := by
        rcases List.mem_cons.mp ((hmem y).mpr (by simp)) with rfl | hin
        · simpa [tie] using tie_self htotal y
        · exact hx.1 y hin
      have hyx : le y x = true := by
        rcases List.mem_cons.mp ((hmem x).mp (by simp)) with rfl | hin
        · simpa [tie] using tie_self htotal x
        · exact hy.1 x hin
      have hhead : x = y := by
        have := h x
        rw [List.filter_cons_of_pos (tie_self htotal x),
          List.filter_cons_of_pos (by simp [tie, hxy, hyx])] at this
        exact (List.cons.inj this).1
      subst hhead
      have htail : ∀ a, xs.filter (tie le a) = ys.filter (tie le a) := by
        intro a
        have := h a
        simp only [List.filter_cons] at this
        split at this
        · exact (List.cons.inj this).2
        · exact this
      refine congrArg _ (ih hx.2 hy.2 htail fun z => ?_)
      have := congrArg (z ∈ ·) (htail z)
      simpa [List.mem_filter, tie_self htotal z] using this

section Insertion

variable (htrans : ∀ a b c, le a b = true → le b c = true → le a c = true)
include htrans

/-- An element is inserted before its ties. -/
theorem filter_orderedInsert (x a : α) (l : List α) :
    (l.orderedInsert (fun a b => le a b = true) x).filter (tie le a) =
      (x :: l).filter (tie le a) := by
  induction l with
  | nil => rfl
  | cons y l ih =>
    rw [List.orderedInsert_cons]
    split
    · rfl
    · rename_i hxy
      rw [List.filter_cons, ih]
      simp only [List.filter_cons]
      split
      · rename_i hy
        have hx : tie le a x = false := by
          by_contra hx
          simp only [Bool.not_eq_false, tie, Bool.and_eq_true] at hx hy
          exact hxy (htrans x a y hx.2 hy.1)
        rw [hx]
        rfl
      · rfl

theorem filter_insertionSort (a : α) (l : List α) :
    (l.insertionSort fun a b => le a b = true).filter (tie le a) = l.filter (tie le a) := by
  induction l with
  | nil => rfl
  | cons x l ih =>
    rw [List.insertionSort_cons, filter_orderedInsert htrans, List.filter_cons, List.filter_cons, ih]

/-- The ties of the first list come first. -/
theorem filter_merge (a : α) {xs ys : List α} (hx : xs.Pairwise fun a b => le a b = true) :
    (xs.merge ys le).filter (tie le a) = xs.filter (tie le a) ++ ys.filter (tie le a) := by
  induction xs generalizing ys with
  | nil => simp
  | cons x xs ih =>
    rw [List.pairwise_cons] at hx
    induction ys with
    | nil => simp
    | cons y ys ihy =>
      by_cases hxy : le x y = true
      · rw [List.cons_merge_cons_pos _ _ _ hxy, List.filter_cons, ih hx.2,
          List.filter_cons (x := x)]
        split <;> rfl
      · rw [List.cons_merge_cons_neg _ _ _ hxy, List.filter_cons, ihy]
        split
        · rename_i hy
          -- a tie of `y` would follow an element of the first list
          have hnone : (x :: xs).filter (tie le a) = [] := by
            refine List.filter_eq_nil_iff.mpr fun z hz htie => hxy ?_
            simp only [tie, Bool.and_eq_true] at htie hy
            have hzy := htrans z a y htie.2 hy.1
            rcases List.mem_cons.mp hz with rfl | hz
            · exact hzy
            · exact htrans x z y (hx.1 z hz) hzy
          rw [hnone, List.filter_cons_of_pos hy]
          rfl
        · rename_i hy
          rw [List.filter_cons_of_neg hy]

end Insertion

theorem pairwise_insertionSort_le (htotal : ∀ a b, le a b = true ∨ le b a = true)
    (htrans : ∀ a b c, le a b = true → le b c = true → le a c = true) (l : List α) :
    (l.insertionSort fun a b => le a b = true).Pairwise fun a b => le a b = true := by
  have : IsTrans α fun a b => le a b = true := ⟨htrans⟩
  have : Std.Total fun a b : α => le a b = true := ⟨htotal⟩
  exact List.pairwise_insertionSort _ l

/-- Merging sorted lists is sorting their concatenation. -/
theorem merge_eq_insertionSort (htotal : ∀ a b, le a b = true ∨ le b a = true)
    (htrans : ∀ a b c, le a b = true → le b c = true → le a c = true) {xs ys : List α}
    (hx : xs.Pairwise fun a b => le a b = true) (hy : ys.Pairwise fun a b => le a b = true) :
    xs.merge ys le = (xs ++ ys).insertionSort fun a b => le a b = true := by
  refine eq_of_ties htotal ?_ (pairwise_insertionSort_le htotal htrans _) fun a => ?_
  · exact List.pairwise_merge htrans (fun a b => by simpa using htotal a b) xs ys hx hy
  · rw [filter_merge htrans a hx, filter_insertionSort htrans, List.filter_append]

/-- One element merges in behind those that do not follow it. -/
theorem merge_singleton {xs ys : List α} {z : α} (hx : ∀ x ∈ xs, le x z = true)
    (hy : ∀ y, ys.head? = some y → le y z = false) :
    (xs ++ ys).merge [z] le = xs ++ z :: ys := by
  induction xs with
  | nil =>
    cases ys with
    | nil => simp
    | cons y ys =>
      rw [List.nil_append, List.cons_merge_cons_neg _ _ _ (by simp [hy y rfl])]
      simp
  | cons x xs ih =>
    rw [List.cons_append, List.cons_merge_cons_pos _ _ _ (hx x (by simp)),
      ih fun x' hx' => hx x' (List.mem_cons_of_mem _ hx')]
    rfl

end Mago.Library
