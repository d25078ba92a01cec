import Mathlib

/-!
# Payloads

A payload grows at its end. Integers are written in network byte order, and a length only where
it fits in 32 bits.
-/
namespace Mago.Extension

abbrev Bytes := List UInt8

inductive PayloadError
  | lengthOverflow (length : ℕ)
  deriving DecidableEq

def u32Max : ℕ := 2 ^ 32 - 1

def usizeMax : ℕ := 2 ^ 64 - 1

/-- The four bytes of a number, the highest first. -/
def toBeBytes (value : ℕ) : Bytes :=
  [.ofNat (value / 2 ^ 24), .ofNat (value / 2 ^ 16), .ofNat (value / 2 ^ 8), .ofNat value]

namespace PayloadWriter

def writeRaw (bytes : Bytes) (writer : Bytes) : Bytes := writer ++ bytes

def writeU8 (value : UInt8) (writer : Bytes) : Bytes := writer ++ [value]

def writeU32 (value : ℕ) (writer : Bytes) : Bytes := writer ++ toBeBytes value

def writeBool (value : Bool) (writer : Bytes) : Bytes := writeU8 (if value then 1 else 0) writer

def writeLength (length : ℕ) (writer : Bytes) : Except PayloadError Bytes :=
  if length ≤ u32Max then .ok (writeU32 length writer) else .error (.lengthOverflow length)

theorem writeLength_of_le {length : ℕ} (h : length ≤ u32Max) (writer : Bytes) :
    writeLength length writer = .ok (writer ++ toBeBytes length) := by
  rw [writeLength, if_pos h]
  rfl

theorem le_of_writeLength {length : ℕ} {writer writer' : Bytes}
    (h : writeLength length writer = .ok writer') :
    length ≤ u32Max ∧ writer' = writer ++ toBeBytes length := by
  rw [writeLength] at h
  split at h
  · next hle => exact ⟨hle, (Except.ok.inj h).symm⟩
  · cases h

end PayloadWriter

@[simp] theorem length_toBeBytes (value : ℕ) : (toBeBytes value).length = 4 := rfl

end Mago.Extension
