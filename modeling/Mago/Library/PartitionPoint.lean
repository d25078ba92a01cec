import Mathlib

/-!
# Partition points

`partitionPoint p xs` is a binary search for the first element that fails `p`.
On a list that `p` splits into a prefix where it holds and a suffix where it
fails, the search returns the length of that prefix.
-/
namespace Mago.Library

variable {α : Type*}

/-- Search the window `[lo, hi)`; the fuel bounds the number of halvings. -/
def partitionSearch (p : α → Bool) (xs : List α) : ℕ → ℕ → ℕ → ℕ
  | 0, lo, _ => lo
  | fuel + 1, lo, hi =>
    if lo < hi then
      let mid := (lo + hi) / 2
      match xs[mid]? with
      | some x =>
        if p x then partitionSearch p xs fuel (mid + 1) hi else partitionSearch p xs fuel lo mid
      | none => lo
    else lo

def partitionPoint (p : α → Bool) (xs : List α) : ℕ :=
  partitionSearch p xs xs.length 0 xs.length

/-- Every element that satisfies `p` stands before every element that does not. -/
def Partitioned (p : α → Bool) (xs : List α) : Prop :=
  xs.Pairwise fun x y => p y = true → p x = true

theorem partitionSearch_eq (p : α → Bool) (pre post : List α)
    (hpre : ∀ x ∈ pre, p x = true) (hpost : ∀ x ∈ post, p x = false) {fuel lo hi : ℕ}
    (hlo : lo ≤ pre.length) (hhi : pre.length ≤ hi) (hlen : hi ≤ (pre ++ post).length)
    (hfuel : hi - lo ≤ fuel) :
    partitionSearch p (pre ++ post) fuel lo hi = pre.length := by
  induction fuel generalizing lo hi with
  | zero =>
    simp only [partitionSearch]
    omega
  | succ fuel ih =>
    simp only [partitionSearch]
    split_ifs with h
    · have hmid : (lo + hi) / 2 < (pre ++ post).length := by omega
      simp only [List.getElem?_eq_getElem hmid]
      by_cases hm : (lo + hi) / 2 < pre.length
      · have hp : p (pre ++ post)[(lo + hi) / 2] = true := by
          rw [List.getElem_append_left hm]
          exact hpre _ (List.getElem_mem hm)
        rw [if_pos hp]
        exact ih (by omega) hhi hlen (by omega)
      · have hp : p (pre ++ post)[(lo + hi) / 2] = false := by
          rw [List.getElem_append_right (by omega)]
          exact hpost _ (List.getElem_mem _)
        rw [if_neg (by simp [hp])]
        exact ih hlo (by omega) (by omega) (by omega)
    · omega

theorem partitionPoint_append (p : α → Bool) (pre post : List α)
    (hpre : ∀ x ∈ pre, p x = true) (hpost : ∀ x ∈ post, p x = false) :
    partitionPoint p (pre ++ post) = pre.length :=
  partitionSearch_eq p pre post hpre hpost (Nat.zero_le _) (by simp) le_rfl (by simp)

theorem Partitioned.dropWhile_false {p : α → Bool} {xs : List α} (h : Partitioned p xs) :
    ∀ x ∈ xs.dropWhile p, p x = false := by
  induction xs with
  | nil => simp
  | cons a xs ih =>
    obtain ⟨ha, hxs⟩ := List.pairwise_cons.mp h
    by_cases hp : p a = true
    · rw [List.dropWhile_cons_of_pos hp]
      exact ih hxs
    · rw [List.dropWhile_cons_of_neg hp]
      intro x hx
      rcases List.mem_cons.mp hx with rfl | hx
      · simpa using hp
      · by_contra hc
        exact hp (ha x hx (by simpa using hc))

/-- On a partitioned list the binary search agrees with the linear one. -/
theorem partitionPoint_eq_takeWhile {p : α → Bool} {xs : List α} (h : Partitioned p xs) :
    partitionPoint p xs = (xs.takeWhile p).length := by
  have hs := partitionPoint_append p (xs.takeWhile p) (xs.dropWhile p)
    (fun x hx => List.mem_takeWhile_imp hx) h.dropWhile_false
  rwa [List.takeWhile_append_dropWhile] at hs

private theorem insertIdx_length_append (pre post : List α) (a : α) :
    (pre ++ post).insertIdx pre.length a = pre ++ a :: post := by
  induction pre with
  | nil => rfl
  | cons b pre ih => simp [ih]

theorem insertIdx_partitionPoint {p : α → Bool} {xs : List α} (h : Partitioned p xs) (a : α) :
    xs.insertIdx (partitionPoint p xs) a = xs.takeWhile p ++ a :: xs.dropWhile p := by
  rw [partitionPoint_eq_takeWhile h]
  have hs := insertIdx_length_append (xs.takeWhile p) (xs.dropWhile p) a
  rwa [List.takeWhile_append_dropWhile] at hs

theorem getElem?_partitionPoint {p : α → Bool} {xs : List α} (h : Partitioned p xs) :
    xs[partitionPoint p xs]? = (xs.dropWhile p).head? := by
  rw [partitionPoint_eq_takeWhile h, List.head?_eq_getElem?]
  have hs : (xs.takeWhile p ++ xs.dropWhile p)[(xs.takeWhile p).length]? =
      (xs.dropWhile p)[(xs.takeWhile p).length - (xs.takeWhile p).length]? :=
    List.getElem?_append_right (le_refl _)
  rwa [List.takeWhile_append_dropWhile, Nat.sub_self] at hs

end Mago.Library
