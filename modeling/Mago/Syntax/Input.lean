import Mathlib
import Mago.Library.Tiling

/-!
# Inputs

The byte input the lexers read, with its cursor. Offsets are natural numbers: a file is
rejected long before its length reaches the 32 bits of a position.
-/
namespace Mago.Syntax
open Mago.Library

def byte (c : Char) : UInt8 := UInt8.ofNat c.toNat

def byteString (s : String) : List UInt8 := s.toList.map byte

/-- The byte as a character, for matching. -/
def char (b : UInt8) : Char := Char.ofNat b.toNat

theorem byte_char (b : UInt8) : byte (char b) = b := by
  have hb := b.toNat_lt
  have hvalid : Nat.isValidChar b.toNat := .inl (by omega)
  have hnat : (Char.ofNat b.toNat).toNat = b.toNat := by
    simp [Char.ofNat, hvalid, Char.toNat, Char.ofNatAux]
  rw [byte, char, hnat]
  exact UInt8.ofNat_toNat

theorem eq_byte_of_char {b : UInt8} {c : Char} (h : char b = c) : b = byte c := by
  rw [← h, byte_char]

def inRange (lo hi : Char) (b : UInt8) : Bool := decide (byte lo ≤ b ∧ b ≤ byte hi)

def isAsciiDigit (b : UInt8) : Bool := inRange '0' '9' b

def isAsciiAlphabetic (b : UInt8) : Bool := inRange 'a' 'z' b || inRange 'A' 'Z' b

def isAsciiHexdigit (b : UInt8) : Bool :=
  isAsciiDigit b || inRange 'a' 'f' b || inRange 'A' 'F' b

/-- Space, tab, line feed, form feed and carriage return. -/
def isAsciiWhitespace (b : UInt8) : Bool := decide (b ∈ [0x20, 0x09, 0x0A, 0x0C, 0x0D])

/-- The whitespace of inputs, with the vertical tab. -/
def whitespaceTable (b : UInt8) : Bool := decide (b ∈ [0x20, 0x09, 0x0A, 0x0D, 0x0C, 0x0B])

def isNewline (b : UInt8) : Bool := decide (b = 0x0A ∨ b = 0x0D)

def isStartOfIdentifier (b : UInt8) : Bool :=
  isAsciiAlphabetic b || b == byte '_' || decide (0x80 ≤ b)

def isPartOfIdentifier (b : UInt8) : Bool := isStartOfIdentifier b || isAsciiDigit b

structure Input where
  bytes : List UInt8
  offset : ℕ
  startingPosition : ℕ
  offset_le : offset ≤ bytes.length

namespace Input

def anchoredAt (bytes : List UInt8) (anchorPosition : ℕ) : Input :=
  ⟨bytes, 0, anchorPosition, Nat.zero_le _⟩

def new (bytes : List UInt8) : Input := anchoredAt bytes 0

variable (input : Input)

def length : ℕ := input.bytes.length

def currentPosition : ℕ := input.startingPosition + input.offset

def hasReachedEof : Bool := decide (input.length ≤ input.offset)

def readRemaining : List UInt8 := input.bytes.drop input.offset

/-- Advances by `count`, at most to the end. -/
def skip (count : ℕ) : Input :=
  { input with
    offset := min (input.offset + count) input.length
    offset_le := Nat.min_le_right _ _ }

/-- The next `count` bytes, at most up to the end, and the input after them. -/
def consume (count : ℕ) : List UInt8 × Input :=
  (slice input.bytes input.offset (input.skip count).offset, input.skip count)

def consumeWhitespaces : List UInt8 × Input :=
  input.consume (input.readRemaining.takeWhile whitespaceTable).length

/-- The bytes between two absolute positions, clamped to the input. -/
def sliceInRange (start stop : ℕ) : List UInt8 :=
  slice input.bytes (min (start - input.startingPosition) input.length)
    (min (stop - input.startingPosition) input.length)

end Input

/-- The identifier bytes at the front, and whether a namespace separator and the start of an
identifier follow. -/
def identifierTail : List UInt8 → ℕ × Bool
  | [] => (0, false)
  | b :: rest =>
    if isPartOfIdentifier b then
      let tail := identifierTail rest
      (tail.1 + 1, tail.2)
    else if b = byte '\\' then (0, rest.head?.any isStartOfIdentifier)
    else (0, false)

/-- The first byte is taken for granted. -/
def scanIdentifier : List UInt8 → ℕ × Bool
  | [] => (0, false)
  | _ :: rest =>
    let tail := identifierTail rest
    (tail.1 + 1, tail.2)

def scanWhile (table : UInt8 → Bool) (bytes : List UInt8) : ℕ := (bytes.takeWhile table).length

/-- Digits, each but the first one possibly after a separator. -/
def readDigitsWith (isDigit : UInt8 → Bool) : List UInt8 → ℕ
  | [] => 0
  | b :: rest =>
    if isDigit b then readDigitsWith isDigit rest + 1
    else
      match rest with
      | [] => 0
      | next :: rest =>
        if b = byte '_' ∧ isDigit next then readDigitsWith isDigit rest + 2 else 0

def readDigitsOfBase (base : ℕ) : List UInt8 → ℕ :=
  if base = 16 then readDigitsWith isAsciiHexdigit
  else readDigitsWith fun b => decide (byte '0' ≤ b ∧ b.toNat < (byte '0').toNat + base)

theorem readDigitsOfBase_ten_pos {b : UInt8} {rest : List UInt8} (h : isAsciiDigit b = true) :
    0 < readDigitsOfBase 10 (b :: rest) := by
  have hdigit : byte '0' ≤ b ∧ b.toNat < (byte '0').toNat + 10 := by
    obtain ⟨hlo, hhi⟩ := of_decide_eq_true h
    have hnat : b.toNat ≤ 57 := UInt8.le_iff_toNat_le.mp hhi
    exact ⟨hlo, Nat.lt_succ_of_le hnat⟩
  rw [readDigitsOfBase, if_neg (by decide), readDigitsWith.eq_def]
  simp only [decide_eq_true hdigit, if_true]
  exact Nat.succ_pos _

theorem readDigitsOfBase_ten_point (rest : List UInt8) :
    readDigitsOfBase 10 (byte '.' :: rest) = 0 := by
  rw [readDigitsOfBase, if_neg (by decide), readDigitsWith.eq_def]
  cases rest <;> simp [byte]

section Input

variable {input : Input}

theorem Input.offset_skip {count : ℕ} (h : input.offset + count ≤ input.bytes.length) :
    (input.skip count).offset = input.offset + count :=
  Nat.min_eq_left h

theorem Input.length_readRemaining :
    input.readRemaining.length = input.bytes.length - input.offset := List.length_drop

theorem Input.hasReachedEof_iff :
    input.hasReachedEof = true ↔ input.offset = input.bytes.length := by
  have := input.offset_le
  rw [Input.hasReachedEof, decide_eq_true_iff, Input.length]
  omega

theorem Input.consume_zero (input : Input) : (input.consume 0).1 = [] := by
  have hoffset : (input.skip 0).offset = input.offset := Nat.min_eq_left input.offset_le
  rw [consume, hoffset, slice_self]

/-- A count that is not zero moves the cursor, unless the end is reached. -/
theorem Input.lt_offset_skip {count : ℕ} (hcount : 0 < count)
    (h : input.hasReachedEof = false) : input.offset < (input.skip count).offset := by
  have hne : input.offset ≠ input.bytes.length := by
    intro heq
    rw [Input.hasReachedEof_iff.mpr heq] at h
    cases h
  have := input.offset_le
  show input.offset < min (input.offset + count) input.bytes.length
  omega

/-- An input over a source that starts at a position. -/
structure Reads (source : List UInt8) (origin : ℕ) (input : Input) : Prop where
  bytes_eq : input.bytes = source
  startingPosition_eq : input.startingPosition = origin

namespace Reads

variable {source : List UInt8} {origin : ℕ}

theorem skip (h : Reads source origin input) (count : ℕ) : Reads source origin (input.skip count) :=
  ⟨h.bytes_eq, h.startingPosition_eq⟩

theorem offset_le (h : Reads source origin input) : input.offset ≤ source.length :=
  h.bytes_eq ▸ input.offset_le

theorem length_eq (h : Reads source origin input) : input.length = source.length :=
  congrArg List.length h.bytes_eq

theorem readRemaining_eq (h : Reads source origin input) :
    input.readRemaining = source.drop input.offset := by
  rw [Input.readRemaining, h.bytes_eq]

theorem sliceInRange_eq (h : Reads source 0 input) {start stop : ℕ} (hstart : start ≤ stop)
    (hstop : stop ≤ source.length) : input.sliceInRange start stop = slice source start stop := by
  rw [Input.sliceInRange, h.startingPosition_eq, h.length_eq, h.bytes_eq, Nat.sub_zero,
    Nat.sub_zero, Nat.min_eq_left (hstart.trans hstop), Nat.min_eq_left hstop]

end Reads

end Input

end Mago.Syntax
