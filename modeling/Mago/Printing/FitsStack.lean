import Mago.Printing.Printer

/-!
# The stack of the look ahead

Sixteen frames are kept inline and the ones above them in an overflow vector. Slots above the
depth keep old frames. What the calls return is what a plain stack of lists would return.
-/
namespace Mago.Printing

variable {δ : Type}

def inlineDepth : ℕ := 16

abbrev Frame (δ : Type) := Mode × List δ

structure FitsStack (δ : Type) where
  inline : Vector (Frame δ) inlineDepth
  overflow : List (Frame δ)
  depth : ℕ

namespace FitsStack

def new : FitsStack δ := ⟨Vector.replicate inlineDepth (.flat, []), [], 0⟩

def push (s : FitsStack δ) (mode : Mode) (documents : List δ) : FitsStack δ :=
  if documents.isEmpty then s
  else if h : s.depth < inlineDepth then
    { s with inline := s.inline.set s.depth (mode, documents) h, depth := s.depth + 1 }
  else { s with overflow := s.overflow ++ [(mode, documents)], depth := s.depth + 1 }

/-- The frame at the depth, where there is one. -/
def top (s : FitsStack δ) : Option (Frame δ) :=
  if s.depth ≤ inlineDepth then s.inline[s.depth - 1]? else s.overflow.getLast?

def setTop (s : FitsStack δ) (frame : Frame δ) : FitsStack δ :=
  if s.depth ≤ inlineDepth then
    { s with inline := s.inline.setIfInBounds (s.depth - 1) frame }
  else { s with overflow := s.overflow.dropLast ++ [frame] }

def pop (s : FitsStack δ) : FitsStack δ :=
  { s with
    overflow := if inlineDepth < s.depth then s.overflow.dropLast else s.overflow
    depth := s.depth - 1 }

def next (s : FitsStack δ) : Option (Mode × δ) × FitsStack δ :=
  if _hdepth : s.depth = 0 then (none, s)
  else
    match s.top with
    | none => (none, s)
    | some (mode, document :: remaining) =>
      (some (mode, document),
        if remaining.isEmpty then s.pop else s.setTop (mode, remaining))
    | some (_, []) => s.pop.next
termination_by s.depth
decreasing_by exact Nat.sub_one_lt _hdepth

end FitsStack

/-! ## A plain stack -/

/-- The head of the top list is taken, lists without one are discarded. -/
def plainNext : List (Frame δ) → Option (Mode × δ) × List (Frame δ)
  | [] => (none, [])
  | (_, []) :: rest => plainNext rest
  | (mode, document :: remaining) :: rest => (some (mode, document), (mode, remaining) :: rest)

/-! ## Representation -/

namespace FitsStack

/-- The frame in a slot, old ones included. -/
def slot (s : FitsStack δ) (i : ℕ) : Option (Frame δ) :=
  if i < inlineDepth then s.inline[i]? else s.overflow[i - inlineDepth]?

def Holds (s : FitsStack δ) : List (Frame δ) → Prop
  | [] => True
  | frame :: rest => s.slot rest.length = some frame ∧ Holds s rest

/-- The slots up to the depth hold the frames of a stack, none of them exhausted. -/
structure Represents (s : FitsStack δ) (stack : List (Frame δ)) : Prop where
  depth : s.depth = stack.length
  overflow : s.overflow.length = s.depth - inlineDepth
  holds : s.Holds stack
  nonempty : ∀ frame ∈ stack, frame.2 ≠ []

variable {s t : FitsStack δ} {stack : List (Frame δ)}

/-- Slots above a stack do not matter to it. -/
theorem holds_congr (h : ∀ i < stack.length, t.slot i = s.slot i) :
    t.Holds stack ↔ s.Holds stack := by
  induction stack with
  | nil => exact Iff.rfl
  | cons frame rest ih =>
    have htop := h rest.length (Nat.lt_succ_self _)
    have hrest := ih fun i hi => h i (hi.trans (Nat.lt_succ_self _))
    rw [Holds, Holds, htop, hrest]

theorem represents_new : (new : FitsStack δ).Represents [] :=
  ⟨rfl, rfl, trivial, fun _ h => absurd h List.not_mem_nil⟩

theorem Represents.push (h : s.Represents stack) (mode : Mode) {documents : List δ}
    (hne : documents ≠ []) : (s.push mode documents).Represents ((mode, documents) :: stack) := by
  have hdepth := h.depth
  have hoverflow := h.overflow
  have hempty : ¬documents.isEmpty = true := by simpa using hne
  have hframes : ∀ frame ∈ (mode, documents) :: stack, frame.2 ≠ [] := by
    intro frame hframe
    rcases List.mem_cons.mp hframe with rfl | hframe
    · exact hne
    · exact h.nonempty frame hframe
  rw [FitsStack.push, if_neg hempty]
  split
  · next hlt =>
    refine ⟨congrArg Nat.succ hdepth, ?_, ⟨?_, ?_⟩, hframes⟩
    · dsimp only
      omega
    · rw [slot, if_pos (by omega), ← hdepth]
      simp
    · refine (holds_congr fun i hi => ?_).mpr h.holds
      rw [slot, slot, if_pos (by omega), if_pos (by omega)]
      have hne : s.depth ≠ i := by omega
      simp [hne]
  · next hge =>
    refine ⟨congrArg Nat.succ hdepth, ?_, ⟨?_, ?_⟩, hframes⟩
    · rw [List.length_append, List.length_singleton]
      dsimp only
      omega
    · have hlast : stack.length - inlineDepth = s.overflow.length := by omega
      rw [slot, if_neg (by omega), hlast]
      simp
    · refine (holds_congr fun i hi => ?_).mpr h.holds
      rw [slot, slot]
      split
      · rfl
      · exact List.getElem?_append_left (by omega)

theorem Represents.top {frame : Frame δ} (h : s.Represents (frame :: stack)) :
    s.top = some frame := by
  have hdepth := h.depth
  have hoverflow := h.overflow
  have hslot := h.holds.1
  rw [List.length_cons] at hdepth
  rw [slot] at hslot
  rw [FitsStack.top]
  split
  · next hle =>
    rw [if_pos (by omega)] at hslot
    rwa [hdepth, Nat.add_sub_cancel]
  · next hgt =>
    have hlast : s.overflow.length - 1 = stack.length - inlineDepth := by omega
    rw [if_neg (by omega)] at hslot
    rwa [List.getLast?_eq_getElem?, hlast]

theorem Represents.pop {frame : Frame δ} (h : s.Represents (frame :: stack)) :
    s.pop.Represents stack := by
  have hdepth := h.depth
  have hoverflow := h.overflow
  rw [List.length_cons] at hdepth
  refine ⟨?_, ?_, ?_, fun f hf => h.nonempty f (List.mem_cons_of_mem _ hf)⟩
  · rw [FitsStack.pop]
    dsimp only
    omega
  · rw [FitsStack.pop]
    dsimp only
    split
    · rw [List.length_dropLast]
      omega
    · omega
  · refine (holds_congr fun i hi => ?_).mpr h.holds.2
    rw [slot, slot, FitsStack.pop]
    split
    · rfl
    · dsimp only
      rw [if_pos (by omega), List.getElem?_dropLast, if_pos (by omega)]

theorem Represents.setTop {frame frame' : Frame δ} (h : s.Represents (frame :: stack))
    (hne : frame'.2 ≠ []) : (s.setTop frame').Represents (frame' :: stack) := by
  have hdepth := h.depth
  have hoverflow := h.overflow
  rw [List.length_cons] at hdepth
  have hframes : ∀ f ∈ frame' :: stack, f.2 ≠ [] := by
    intro f hf
    rcases List.mem_cons.mp hf with rfl | hf
    · exact hne
    · exact h.nonempty f (List.mem_cons_of_mem _ hf)
  rw [FitsStack.setTop]
  split
  · next hle =>
    refine ⟨hdepth, hoverflow, ⟨?_, ?_⟩, hframes⟩
    · have hlt : stack.length < inlineDepth := by omega
      rw [slot, if_pos hlt, hdepth, Nat.add_sub_cancel]
      simp [hlt]
    · refine (holds_congr fun i hi => ?_).mpr h.holds.2
      rw [slot, slot, if_pos (by omega), if_pos (by omega)]
      have hother : s.depth - 1 ≠ i := by omega
      simp [hother]
  · next hgt =>
    refine ⟨hdepth, ?_, ⟨?_, ?_⟩, hframes⟩
    · rw [List.length_append, List.length_dropLast, List.length_singleton]
      dsimp only
      omega
    · have hlast : stack.length - inlineDepth = s.overflow.dropLast.length := by
        rw [List.length_dropLast]
        omega
      rw [slot, if_neg (by omega), hlast]
      simp
    · refine (holds_congr fun i hi => ?_).mpr h.holds.2
      rw [slot, slot]
      split
      · rfl
      · dsimp only
        rw [List.getElem?_append_left (by rw [List.length_dropLast]; omega),
          List.getElem?_dropLast, if_pos (by omega)]

/-! ## Refinement -/

/-- The frames that are not exhausted. -/
def live (stack : List (Frame δ)) : List (Frame δ) := stack.filter fun frame => !frame.2.isEmpty

theorem Represents.push_live (h : s.Represents (live stack)) (mode : Mode) (documents : List δ) :
    (s.push mode documents).Represents (live ((mode, documents) :: stack)) := by
  cases documents with
  | nil => exact h
  | cons document remaining => exact h.push mode (List.cons_ne_nil _ _)

theorem Represents.next_live (h : s.Represents (live stack)) :
    s.next.1 = (plainNext stack).1 ∧ s.next.2.Represents (live (plainNext stack).2) := by
  induction stack with
  | nil =>
    have hdepth : s.depth = 0 := h.depth
    rw [FitsStack.next, dif_pos hdepth]
    exact ⟨rfl, h⟩
  | cons frame rest ih =>
    obtain ⟨mode, documents⟩ := frame
    cases documents with
    | nil => exact ih h
    | cons document remaining =>
      have h : s.Represents ((mode, document :: remaining) :: live rest) := h
      have hdepth : ¬s.depth = 0 := by
        rw [h.depth]
        exact Nat.succ_ne_zero _
      rw [FitsStack.next, dif_neg hdepth, h.top]
      refine ⟨rfl, ?_⟩
      cases remaining with
      | nil => exact h.pop
      | cons second remaining => exact h.setTop (List.cons_ne_nil _ _)

end FitsStack

inductive StackCall (δ : Type)
  | push (mode : Mode) (documents : List δ)
  | next

/-- What the calls of `next` return. -/
def FitsStack.run (s : FitsStack δ) : List (StackCall δ) → List (Option (Mode × δ))
  | [] => []
  | .push mode documents :: calls => (s.push mode documents).run calls
  | .next :: calls => s.next.1 :: s.next.2.run calls

def plainRun (stack : List (Frame δ)) : List (StackCall δ) → List (Option (Mode × δ))
  | [] => []
  | .push mode documents :: calls => plainRun ((mode, documents) :: stack) calls
  | .next :: calls => (plainNext stack).1 :: plainRun (plainNext stack).2 calls

theorem FitsStack.run_of_represents {s : FitsStack δ} {stack : List (Frame δ)}
    (h : s.Represents (live stack)) (calls : List (StackCall δ)) :
    s.run calls = plainRun stack calls := by
  induction calls generalizing s stack with
  | nil => rfl
  | cons call calls ih =>
    cases call with
    | push mode documents => exact ih (h.push_live mode documents)
    | next =>
      obtain ⟨hreturned, hrest⟩ := h.next_live
      rw [FitsStack.run, plainRun, hreturned, ih hrest]

/-- Calls in any order return what they would with a plain stack of lists. -/
theorem FitsStack.run_new (calls : List (StackCall δ)) :
    (FitsStack.new : FitsStack δ).run calls = plainRun [] calls :=
  run_of_represents represents_new calls

end Mago.Printing
