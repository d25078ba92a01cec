import Mathlib

/-!
# A heap of cells

Cells are allocated one after the other and overwritten in place. A reference is the position
of its cell, so a new cell is behind all the others.
-/
namespace Mago.Library

abbrev Ref := ℕ

structure Heap (α : Type*) where
  cells : List α

namespace Heap

variable {α : Type*}

def empty : Heap α := ⟨[]⟩

def read (heap : Heap α) (r : Ref) : Option α := heap.cells[r]?

def alloc (heap : Heap α) (a : α) : Heap α × Ref := (⟨heap.cells ++ [a]⟩, heap.cells.length)

def write (heap : Heap α) (r : Ref) (a : α) : Heap α := ⟨heap.cells.set r a⟩

@[simp] theorem read_alloc_self (heap : Heap α) (a : α) :
    (heap.alloc a).1.read (heap.alloc a).2 = some a := by
  simp [alloc, read]

/-- A new cell leaves the cells that can be read. -/
theorem read_alloc_of_some {heap : Heap α} {r : Ref} {b : α} (h : heap.read r = some b) (a : α) :
    (heap.alloc a).1.read r = some b := by
  obtain ⟨hlt, -⟩ := List.getElem?_eq_some_iff.mp h
  rw [read, alloc, List.getElem?_append_left hlt]
  exact h

theorem read_write_self {heap : Heap α} {r : Ref} {b : α} (h : heap.read r = some b) (a : α) :
    (heap.write r a).read r = some a := by
  obtain ⟨hlt, -⟩ := List.getElem?_eq_some_iff.mp h
  exact List.getElem?_set_self hlt

theorem read_write_of_ne {r r' : Ref} (h : r' ≠ r) (heap : Heap α) (a : α) :
    (heap.write r a).read r' = heap.read r' :=
  List.getElem?_set_ne h.symm

end Heap

end Mago.Library
