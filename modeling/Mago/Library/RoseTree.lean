import Mathlib

/-!
# Trees with any number of children

A node has a value and a list of children. Its subtrees are listed in preorder, each node before
its children and these from left to right.
-/
namespace Mago.Library

inductive RoseTree (α : Type*) where
  | node (value : α) (children : List (RoseTree α))

namespace RoseTree

variable {α : Type*}

def value : RoseTree α → α
  | node value _ => value

def children : RoseTree α → List (RoseTree α)
  | node _ children => children

mutual

def size : RoseTree α → ℕ
  | node _ children => sizeForest children + 1

def sizeForest : List (RoseTree α) → ℕ
  | [] => 0
  | t :: ts => t.size + sizeForest ts

end

mutual

def subtrees : RoseTree α → List (RoseTree α)
  | node value children => node value children :: subtreesForest children

def subtreesForest : List (RoseTree α) → List (RoseTree α)
  | [] => []
  | t :: ts => t.subtrees ++ subtreesForest ts

end

/-- What holds of a node where it holds of all its children holds of every tree. -/
theorem induction {P : RoseTree α → Prop}
    (node : ∀ value children, (∀ t ∈ children, P t) → P (.node value children))
    (t : RoseTree α) : P t :=
  match t with
  | .node value children => node value children fun t _ => induction node t

theorem size_pos (t : RoseTree α) : 0 < t.size := by
  cases t
  rw [size]
  exact Nat.succ_pos _

theorem size_eq (t : RoseTree α) : t.size = sizeForest t.children + 1 := by
  cases t
  rw [size, children]

@[simp] theorem sizeForest_append (ts us : List (RoseTree α)) :
    sizeForest (ts ++ us) = sizeForest ts + sizeForest us := by
  induction ts with
  | nil => simp [sizeForest]
  | cons t ts ih => rw [List.cons_append, sizeForest, sizeForest, ih, Nat.add_assoc]

theorem mem_subtreesForest {ts : List (RoseTree α)} {s : RoseTree α} :
    s ∈ subtreesForest ts ↔ ∃ t ∈ ts, s ∈ t.subtrees := by
  induction ts with
  | nil => simp [subtreesForest]
  | cons t ts ih => rw [subtreesForest, List.mem_append, ih, List.exists_mem_cons_iff]

theorem length_subtreesForest_of {ts : List (RoseTree α)}
    (h : ∀ t ∈ ts, t.subtrees.length = t.size) :
    (subtreesForest ts).length = sizeForest ts := by
  induction ts with
  | nil => rfl
  | cons t ts ih =>
    rw [subtreesForest, sizeForest, List.length_append, h t (by simp),
      ih fun u hu => h u (by simp [hu])]

@[simp] theorem length_subtrees (t : RoseTree α) : t.subtrees.length = t.size := by
  induction t using induction with
  | node value children ih =>
    rw [subtrees, size, List.length_cons, length_subtreesForest_of ih]

@[simp] theorem length_subtreesForest (ts : List (RoseTree α)) :
    (subtreesForest ts).length = sizeForest ts :=
  length_subtreesForest_of fun t _ => length_subtrees t

end RoseTree

end Mago.Library
