import Mago.Casing.Common
import Mathlib

/-!
# Camel case and its checker

The loop remembers whether a word starts here, the last byte it wrote small inside a word, and
whether a letter or digit has come yet. Written letters change only where a word starts, so a
written name read again can differ only before the first letter inside a word.
-/
namespace Mago.Casing

structure CamelLikeOptions where
  newWord : Bool
  firstWord : Bool
  separator : UInt8
  hasSeparator : Bool
  inverted : Bool
  concatNum : Bool

/-- The variables of the loop. -/
structure CamelLoop where
  newWord : Bool
  firstWord : Bool
  lastChar : UInt8 := 32
  foundRealChar : Bool := false

variable (options : CamelLikeOptions)

def CamelLikeOptions.start : CamelLoop where
  newWord := options.newWord
  firstWord := options.firstWord

/-- A word starts at the byte: after a boundary, or at a capital after a small letter. -/
def CamelLoop.startsWord (loop : CamelLoop) (byte : UInt8) : Bool :=
  loop.newWord || (isAsciiLowercase loop.lastChar && isAsciiUppercase byte && loop.lastChar != 32)

def CamelLikeOptions.initial (loop : CamelLoop) (byte : UInt8) : UInt8 :=
  if !options.inverted || loop.firstWord then toAsciiUppercase byte else toAsciiLowercase byte

/-- The loop of `convert_camel_like`. -/
def convertCamelLoop (loop : CamelLoop) : Bytes → Bytes
  | [] => []
  | byte :: input =>
    if isSeparator byte && loop.foundRealChar then
      convertCamelLoop { loop with newWord := true } input
    else if !loop.foundRealChar && isSeparator byte then
      convertCamelLoop loop input
    else if isAsciiDigit byte && options.concatNum then
      byte :: convertCamelLoop { loop with foundRealChar := true, newWord := true } input
    else if loop.startsWord byte then
      (if options.hasSeparator && !loop.firstWord then [options.separator] else []) ++
        options.initial loop byte ::
          convertCamelLoop
            { loop with foundRealChar := true, newWord := false, firstWord := false } input
    else
      toAsciiLowercase byte ::
        convertCamelLoop { loop with foundRealChar := true, lastChar := byte } input

def convertCamelLike (input : Bytes) : Bytes :=
  convertCamelLoop options options.start (trimRight input)

/-- The loop of `is_case_camel_like`, on what is left of the name from `output_index` on. -/
def isCaseCamelLoop (loop : CamelLoop) (left : Bytes) : Bytes → Bool
  | [] => left.isEmpty
  | byte :: input =>
    if isSeparator byte && loop.foundRealChar then
      isCaseCamelLoop { loop with newWord := true } left input
    else if !loop.foundRealChar && isSeparator byte then
      isCaseCamelLoop loop left input
    else if isAsciiDigit byte && options.concatNum then
      match emitChecked left byte with
      | none => false
      | some left => isCaseCamelLoop { loop with foundRealChar := true, newWord := true } left input
    else if loop.startsWord byte then
      match if options.hasSeparator && !loop.firstWord then
        emitChecked left options.separator else some left with
      | none => false
      | some left =>
        match emitChecked left (options.initial loop byte) with
        | none => false
        | some left =>
          isCaseCamelLoop
            { loop with foundRealChar := true, newWord := false, firstWord := false } left input
    else
      match emitChecked left (toAsciiLowercase byte) with
      | none => false
      | some left => isCaseCamelLoop { loop with foundRealChar := true, lastChar := byte } left input

def isCaseCamelLike (input : Bytes) : Bool :=
  isCaseCamelLoop options options.start input (trimRight input)

def toCaseCamelLike (input : Bytes) : Bytes :=
  if isCaseCamelLike options input then input else convertCamelLike options input

/-! ## The checker against the converter -/

/-- The checker accepts exactly where the converter would write what is left of the name. -/
theorem isCaseCamelLoop_iff (input : Bytes) (loop : CamelLoop) (left : Bytes) :
    isCaseCamelLoop options loop left input = true ↔
      convertCamelLoop options loop input = left := by
  induction input generalizing loop left with
  | nil => rw [isCaseCamelLoop, convertCamelLoop, List.isEmpty_iff, eq_comm]
  | cons byte input ih =>
    rw [isCaseCamelLoop, convertCamelLoop]
    split
    · exact ih _ _
    split
    · exact ih _ _
    split
    · exact emitChecked_match fun rest => ih _ rest
    split
    · cases options.hasSeparator && !loop.firstWord with
      | true => exact emitChecked_match fun rest => emitChecked_match fun rest => ih _ rest
      | false => exact emitChecked_match fun rest => ih _ rest
    · exact emitChecked_match fun rest => ih _ rest

theorem isCaseCamelLike_iff (input : Bytes) :
    isCaseCamelLike options input = true ↔ convertCamelLike options input = input :=
  isCaseCamelLoop_iff options _ _ _

theorem toCaseCamelLike_eq (input : Bytes) :
    toCaseCamelLike options input = convertCamelLike options input := by
  rw [toCaseCamelLike]
  split
  · next h => exact ((isCaseCamelLike_iff options input).mp h).symm
  · rfl

end Mago.Casing
