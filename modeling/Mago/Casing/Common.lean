import Mathlib

/-!
# Words in a name

A converter reads a name byte by byte and writes it again in another case; its checker runs the
same loop and compares what would be written with the name itself, stopping at the first byte
that differs. What is not an ASCII letter or digit separates words.
-/
namespace Mago.Casing

abbrev Bytes := List UInt8

def isAsciiLowercase (byte : UInt8) : Bool := byte - 97 ≤ 25

def isAsciiUppercase (byte : UInt8) : Bool := byte - 65 ≤ 25

def isAsciiDigit (byte : UInt8) : Bool := byte - 48 ≤ 9

def isAsciiAlphanumeric (byte : UInt8) : Bool :=
  isAsciiLowercase byte || isAsciiUppercase byte || isAsciiDigit byte

def toAsciiLowercase (byte : UInt8) : UInt8 := if isAsciiUppercase byte then byte + 32 else byte

def toAsciiUppercase (byte : UInt8) : UInt8 := if isAsciiLowercase byte then byte - 32 else byte

def isSeparator (byte : UInt8) : Bool := !isAsciiAlphanumeric byte

def isLetter (byte : UInt8) : Bool := isAsciiLowercase byte || isAsciiUppercase byte

def trimRight (input : Bytes) : Bytes := input.rdropWhile fun byte => !isAsciiAlphanumeric byte

/-- One byte compared with the name where the output has come to: what is left of the name. -/
def emitChecked (left : Bytes) (emitted : UInt8) : Option Bytes :=
  match left with
  | [] => none
  | byte :: left => if byte = emitted then some left else none

/-! ## Bytes as numbers -/

theorem isAsciiLowercase_iff {b : UInt8} :
    isAsciiLowercase b = true ↔ 97 ≤ b.toNat ∧ b.toNat ≤ 122 := by
  have hlt := b.toNat_lt
  simp only [isAsciiLowercase, decide_eq_true_eq, UInt8.le_iff_toNat_le, UInt8.toNat_sub]
  change (2 ^ 8 - 97 + b.toNat) % 2 ^ 8 ≤ 25 ↔ _
  omega

theorem isAsciiUppercase_iff {b : UInt8} :
    isAsciiUppercase b = true ↔ 65 ≤ b.toNat ∧ b.toNat ≤ 90 := by
  have hlt := b.toNat_lt
  simp only [isAsciiUppercase, decide_eq_true_eq, UInt8.le_iff_toNat_le, UInt8.toNat_sub]
  change (2 ^ 8 - 65 + b.toNat) % 2 ^ 8 ≤ 25 ↔ _
  omega

theorem isAsciiDigit_iff {b : UInt8} :
    isAsciiDigit b = true ↔ 48 ≤ b.toNat ∧ b.toNat ≤ 57 := by
  have hlt := b.toNat_lt
  simp only [isAsciiDigit, decide_eq_true_eq, UInt8.le_iff_toNat_le, UInt8.toNat_sub]
  change (2 ^ 8 - 48 + b.toNat) % 2 ^ 8 ≤ 9 ↔ _
  omega

theorem isLetter_iff {b : UInt8} :
    isLetter b = true ↔ isAsciiLowercase b = true ∨ isAsciiUppercase b = true := by
  rw [isLetter, Bool.or_eq_true]

/-- A byte is a separator, a digit, a small letter or a capital, and only one of these. -/
inductive Kind (b : UInt8) : Prop
  | separator (h : isSeparator b = true) (hdigit : isAsciiDigit b = false)
      (hlower : isAsciiLowercase b = false) (hupper : isAsciiUppercase b = false)
  | digit (h : isSeparator b = false) (hdigit : isAsciiDigit b = true)
      (hlower : isAsciiLowercase b = false) (hupper : isAsciiUppercase b = false)
  | lower (h : isSeparator b = false) (hdigit : isAsciiDigit b = false)
      (hlower : isAsciiLowercase b = true) (hupper : isAsciiUppercase b = false)
  | upper (h : isSeparator b = false) (hdigit : isAsciiDigit b = false)
      (hlower : isAsciiLowercase b = false) (hupper : isAsciiUppercase b = true)

theorem not_lower_of_upper {b : UInt8} (h : isAsciiUppercase b = true) :
    isAsciiLowercase b = false := by
  rw [isAsciiUppercase_iff] at h
  rw [← Bool.not_eq_true, isAsciiLowercase_iff]
  omega

theorem not_upper_of_lower {b : UInt8} (h : isAsciiLowercase b = true) :
    isAsciiUppercase b = false := by
  rw [isAsciiLowercase_iff] at h
  rw [← Bool.not_eq_true, isAsciiUppercase_iff]
  omega

theorem not_digit_of_letter {b : UInt8} (h : isLetter b = true) : isAsciiDigit b = false := by
  rw [isLetter_iff, isAsciiLowercase_iff, isAsciiUppercase_iff] at h
  rw [← Bool.not_eq_true, isAsciiDigit_iff]
  omega

theorem kind (b : UInt8) : Kind b := by
  cases hlower : isAsciiLowercase b with
  | true =>
    have hupper := not_upper_of_lower hlower
    have hdigit := not_digit_of_letter (isLetter_iff.mpr (.inl hlower))
    exact .lower (by simp [isSeparator, isAsciiAlphanumeric, hlower]) hdigit hlower hupper
  | false =>
    cases hupper : isAsciiUppercase b with
    | true =>
      have hdigit := not_digit_of_letter (isLetter_iff.mpr (.inr hupper))
      exact .upper (by simp [isSeparator, isAsciiAlphanumeric, hupper]) hdigit hlower hupper
    | false =>
      cases hdigit : isAsciiDigit b with
      | true =>
        exact .digit (by simp [isSeparator, isAsciiAlphanumeric, hdigit]) hdigit hlower hupper
      | false =>
        exact .separator (by simp [isSeparator, isAsciiAlphanumeric, hlower, hupper, hdigit])
          hdigit hlower hupper

theorem toAsciiLowercase_of_upper {b : UInt8} (h : isAsciiUppercase b = true) :
    isAsciiLowercase (toAsciiLowercase b) = true := by
  rw [toAsciiLowercase, if_pos h, isAsciiLowercase_iff, UInt8.toNat_add]
  rw [isAsciiUppercase_iff] at h
  change 97 ≤ (b.toNat + 32) % 2 ^ 8 ∧ (b.toNat + 32) % 2 ^ 8 ≤ 122
  omega

theorem toAsciiUppercase_of_lower {b : UInt8} (h : isAsciiLowercase b = true) :
    isAsciiUppercase (toAsciiUppercase b) = true := by
  rw [toAsciiUppercase, if_pos h, isAsciiUppercase_iff, UInt8.toNat_sub]
  rw [isAsciiLowercase_iff] at h
  have hlt := b.toNat_lt
  change 65 ≤ (2 ^ 8 - 32 + b.toNat) % 2 ^ 8 ∧ (2 ^ 8 - 32 + b.toNat) % 2 ^ 8 ≤ 90
  omega

@[simp] theorem toAsciiLowercase_of_not {b : UInt8} (h : isAsciiUppercase b = false) :
    toAsciiLowercase b = b := by
  rw [toAsciiLowercase, h]
  rfl

@[simp] theorem toAsciiUppercase_of_not {b : UInt8} (h : isAsciiLowercase b = false) :
    toAsciiUppercase b = b := by
  rw [toAsciiUppercase, h]
  rfl

theorem isAsciiLowercase_toLowercase {b : UInt8} (h : isLetter b = true) :
    isAsciiLowercase (toAsciiLowercase b) = true := by
  rcases isLetter_iff.mp h with hlower | hupper
  · rwa [toAsciiLowercase_of_not (not_upper_of_lower hlower)]
  · exact toAsciiLowercase_of_upper hupper

theorem isAsciiUppercase_toUppercase {b : UInt8} (h : isLetter b = true) :
    isAsciiUppercase (toAsciiUppercase b) = true := by
  rcases isLetter_iff.mp h with hlower | hupper
  · exact toAsciiUppercase_of_lower hlower
  · rwa [toAsciiUppercase_of_not (not_lower_of_upper hupper)]

/-! ## The right end -/

theorem trimRight_append {input tail : Bytes} (h : ∀ b ∈ tail, isSeparator b = true) :
    trimRight (input ++ tail) = trimRight input := by
  induction tail using List.reverseRecOn with
  | nil => rw [List.append_nil]
  | append_singleton tail last ih =>
    have hlast : isSeparator last = true := h last (by simp)
    have hdrop : trimRight (input ++ tail ++ [last]) = trimRight (input ++ tail) :=
      List.rdropWhile_concat_pos _ _ _ hlast
    rw [← List.append_assoc, hdrop]
    exact ih fun b hb => h b (List.mem_append_left _ hb)

theorem trimRight_of_last {input : Bytes} (h : ∀ b ∈ input.getLast?, isSeparator b = false) :
    trimRight input = input := by
  cases input using List.reverseRecOn with
  | nil => rfl
  | append_singleton input last =>
    have hlast : isSeparator last = false := h last (by simp)
    exact List.rdropWhile_concat_neg _ _ _ (by simpa [isSeparator] using hlast)

/-- What is trimmed are separators, and what is left ends in a letter or digit. -/
theorem exists_trimRight (input : Bytes) :
    ∃ tail, input = trimRight input ++ tail ∧ (∀ b ∈ tail, isSeparator b = true) ∧
      ∀ b ∈ (trimRight input).getLast?, isSeparator b = false := by
  induction input using List.reverseRecOn with
  | nil => exact ⟨[], rfl, by simp, by simp [trimRight]⟩
  | append_singleton input last ih =>
    cases hlast : isSeparator last with
    | false =>
      have htrim : trimRight (input ++ [last]) = input ++ [last] :=
        trimRight_of_last (by simpa using hlast)
      rw [htrim]
      exact ⟨[], by simp, by simp, by simpa using hlast⟩
    | true =>
      obtain ⟨tail, heq, htail, hend⟩ := ih
      have htrim : trimRight (input ++ [last]) = trimRight input :=
        trimRight_append (by simpa using hlast)
      rw [htrim]
      refine ⟨tail ++ [last], ?_, ?_, hend⟩
      · rw [← List.append_assoc, ← heq]
      · intro b hb
        rcases List.mem_append.mp hb with hb | hb
        · exact htail b hb
        · rwa [List.mem_singleton.mp hb]

/-! ## Emitting against a name -/

/-- Emitting against the rest of a name succeeds where the rest starts with what is emitted. -/
theorem emitChecked_eq_some {left rest : Bytes} {b : UInt8} :
    emitChecked left b = some rest ↔ left = b :: rest := by
  cases left with
  | nil => simp [emitChecked]
  | cons head left =>
    rw [emitChecked]
    split
    · next h => simp [h]
    · next h => simp [h]

theorem emitChecked_match {left : Bytes} {b : UInt8} {k : Bytes → Bool} {output : Bytes}
    (h : ∀ rest, k rest = true ↔ output = rest) :
    (match emitChecked left b with
      | none => false
      | some rest => k rest) = true ↔ b :: output = left := by
  cases hemit : emitChecked left b with
  | none =>
    simp only [Bool.false_eq_true, false_iff]
    intro heq
    rw [emitChecked_eq_some.mpr heq.symm] at hemit
    cases hemit
  | some rest =>
    rw [emitChecked_eq_some.mp hemit, List.cons.injEq]
    exact (h rest).trans ⟨fun heq => ⟨rfl, heq⟩, And.right⟩

end Mago.Casing
