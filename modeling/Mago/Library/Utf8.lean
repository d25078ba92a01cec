import Mathlib

/-!
# Bytes as text

The lossy decoding of bytes: every maximal prefix of a sequence that cannot be completed is
replaced by one replacement character.
-/
namespace Mago.Library

abbrev Text := List Char

/-- The length of the sequence a byte starts, zero when no sequence starts with it. -/
def charWidth (first : UInt8) : ℕ :=
  if first < 0x80 then 1
  else if first < 0xC2 then 0
  else if first < 0xE0 then 2
  else if first < 0xF0 then 3
  else if first < 0xF5 then 4
  else 0

def isContinuation (byte : UInt8) : Bool := decide (0x80 ≤ byte) && decide (byte < 0xC0)

/-- The second bytes that avoid overlong forms, surrogates and values out of range. -/
def isSecond (first second : UInt8) : Bool :=
  isContinuation second &&
    if first = 0xE0 then decide (0xA0 ≤ second)
    else if first = 0xED then decide (second < 0xA0)
    else if first = 0xF0 then decide (0x90 ≤ second)
    else if first = 0xF4 then decide (second < 0x90)
    else true

/-- The bytes that continue the sequence started by `first`. -/
def sequenceTail (first : UInt8) : List UInt8 → List UInt8
  | [] => []
  | second :: rest =>
    if 2 ≤ charWidth first && isSecond first second then
      second :: (rest.take (charWidth first - 2)).takeWhile isContinuation
    else []

/-- An incomplete sequence is replaced as a whole. -/
def decodeSequence (first : UInt8) (tail : List UInt8) : Char :=
  if tail.length + 1 = charWidth first then
    let lead := if charWidth first = 1 then first.toNat
      else first.toNat % 2 ^ (7 - charWidth first)
    Char.ofNat (tail.foldl (fun value byte => value * 64 + byte.toNat % 64) lead)
  else Char.ofNat 0xFFFD

def decodeLossy : ℕ → List UInt8 → Text
  | 0, _ => []
  | _, [] => []
  | n + 1, first :: rest =>
    let tail := sequenceTail first rest
    decodeSequence first tail :: decodeLossy n (rest.drop tail.length)

def fromUtf8Lossy (bytes : List UInt8) : Text := decodeLossy bytes.length bytes

end Mago.Library
