import Mago.Casing.Common
import Mathlib

/-!
# Snake case and its checker

A word starts at a byte that counts as a capital and has a small letter beside it. Bytes beside
each other are looked up in the name, so the loop carries the byte before.
-/
namespace Mago.Casing

inductive LetterCase
  | lower
  | upper
  deriving DecidableEq

def LetterCase.emitted (case : LetterCase) (byte : UInt8) : UInt8 :=
  match case with
  | .lower => toAsciiLowercase byte
  | .upper => toAsciiUppercase byte

def isUpperLikeForBoundary (byte : UInt8) (digitIsUppercaseBoundary : Bool) : Bool :=
  if digitIsUppercaseBoundary then byte == toAsciiUppercase byte else isAsciiUppercase byte

/-- The bytes beside a position of the name, where there are any. -/
def hasLowercaseNeighbor (next previous : Option UInt8) : Bool :=
  next.any isAsciiLowercase || previous.any isAsciiLowercase

variable (separator : UInt8) (case : LetterCase) (digitIsUppercaseBoundary : Bool)

/-- The loop of `convert_snake_like`. -/
def convertSnakeLoop (previous : Option UInt8) (firstCharacter : Bool) : Bytes → Bytes
  | [] => []
  | byte :: input =>
    if isSeparator byte then
      if !firstCharacter then separator :: convertSnakeLoop (some byte) true input
      else convertSnakeLoop (some byte) firstCharacter input
    else if !firstCharacter && isUpperLikeForBoundary byte digitIsUppercaseBoundary &&
        hasLowercaseNeighbor input.head? previous then
      separator :: case.emitted byte :: convertSnakeLoop (some byte) false input
    else case.emitted byte :: convertSnakeLoop (some byte) false input

def convertSnakeLike (input : Bytes) : Bytes :=
  convertSnakeLoop separator case digitIsUppercaseBoundary none true (trimRight input)

/-- The loop of `is_case_snake_like`, on what is left of the name from `output_index` on. -/
def isCaseSnakeLoop (previous : Option UInt8) (firstCharacter : Bool) (left : Bytes) :
    Bytes → Bool
  | [] => left.isEmpty
  | byte :: input =>
    if isSeparator byte then
      if !firstCharacter then
        match emitChecked left separator with
        | none => false
        | some left => isCaseSnakeLoop (some byte) true left input
      else isCaseSnakeLoop (some byte) firstCharacter left input
    else if !firstCharacter && isUpperLikeForBoundary byte digitIsUppercaseBoundary &&
        hasLowercaseNeighbor input.head? previous then
      match emitChecked left separator with
      | none => false
      | some left =>
        match emitChecked left (case.emitted byte) with
        | none => false
        | some left => isCaseSnakeLoop (some byte) false left input
    else
      match emitChecked left (case.emitted byte) with
      | none => false
      | some left => isCaseSnakeLoop (some byte) false left input

def isCaseSnakeLike (input : Bytes) : Bool :=
  isCaseSnakeLoop separator case digitIsUppercaseBoundary none true input (trimRight input)

def toCaseSnakeLike (input : Bytes) : Bytes :=
  if isCaseSnakeLike separator case digitIsUppercaseBoundary input then input
  else convertSnakeLike separator case digitIsUppercaseBoundary input

/-! ## The checker against the converter -/

theorem isCaseSnakeLoop_iff (input : Bytes) (previous : Option UInt8) (firstCharacter : Bool)
    (left : Bytes) :
    isCaseSnakeLoop separator case digitIsUppercaseBoundary previous firstCharacter left input =
        true ↔
      convertSnakeLoop separator case digitIsUppercaseBoundary previous firstCharacter input =
        left := by
  induction input generalizing previous firstCharacter left with
  | nil => rw [isCaseSnakeLoop, convertSnakeLoop, List.isEmpty_iff, eq_comm]
  | cons byte input ih =>
    rw [isCaseSnakeLoop, convertSnakeLoop]
    split
    · split
      · exact emitChecked_match fun rest => ih _ _ rest
      · exact ih _ _ _
    split
    · exact emitChecked_match fun rest => emitChecked_match fun rest => ih _ _ rest
    · exact emitChecked_match fun rest => ih _ _ rest

theorem isCaseSnakeLike_iff (input : Bytes) :
    isCaseSnakeLike separator case digitIsUppercaseBoundary input = true ↔
      convertSnakeLike separator case digitIsUppercaseBoundary input = input :=
  isCaseSnakeLoop_iff _ _ _ _ _ _ _

theorem toCaseSnakeLike_eq (input : Bytes) :
    toCaseSnakeLike separator case digitIsUppercaseBoundary input =
      convertSnakeLike separator case digitIsUppercaseBoundary input := by
  rw [toCaseSnakeLike]
  split
  · next h => exact ((isCaseSnakeLike_iff _ _ _ input).mp h).symm
  · rfl

end Mago.Casing
