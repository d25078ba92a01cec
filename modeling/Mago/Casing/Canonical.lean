import Mago.Casing.SnakeCase
import Mago.Casing.ClassCase
import Mago.Syntax.Input
import Mathlib

/-!
# Canonical names

A checker accepts a name exactly where the converter leaves it as it is. A converted name is
accepted but where a word has been lost in the conversion, which each family does at its own
places.
-/
namespace Mago.Casing

open Mago.Syntax (isStartOfIdentifier isPartOfIdentifier)

/-- A name that a program can have. -/
structure Identifier where
  bytes : Bytes
  start : bytes.head?.any isStartOfIdentifier = true
  part : bytes.all isPartOfIdentifier = true

inductive Family
  | camelCase
  | pascalCase
  | classCase
  | snakeCase
  | constantCase
  | kebabCase

def Family.toCase : Family → Bytes → Bytes
  | .camelCase => toCamelCase
  | .pascalCase => toPascalCase
  | .classCase => toClassCase
  | .snakeCase => toSnakeCase
  | .constantCase => toConstantCase
  | .kebabCase => toKebabCase

def Family.isCase : Family → Bytes → Bool
  | .camelCase => isCamelCase
  | .pascalCase => isPascalCase
  | .classCase => isClassCase
  | .snakeCase => isSnakeCase
  | .constantCase => isConstantCase
  | .kebabCase => isKebabCase

/-- The converter with no look at whether the name is canonical already. -/
def Family.convert : Family → Bytes → Bytes
  | .camelCase => convertCamelLike camelOptions
  | .pascalCase => convertCamelLike pascalOptions
  | .classCase => convertClassCase
  | .snakeCase => convertSnakeLike 95 .lower false
  | .constantCase => convertSnakeLike 95 .upper true
  | .kebabCase => convertSnakeLike 45 .lower true

/-- What is converted is canonical, and canonical is what the converter does not change. -/
def Family.ReachesCanonical (family : Family) (x : Bytes) : Prop :=
  family.isCase (family.toCase x) = true ∧
    (family.isCase x = true ↔ family.convert x = x)

/-- Where a family loses a word. -/
def Family.LosesWord (family : Family) (x : Bytes) : Prop :=
  match family with
  | .camelCase => DigitFirst x ∧ EarlySplit x
  | .pascalCase => EarlySplit x
  | .classCase => DigitFirst x
  | .snakeCase => False
  | .constantCase => False
  | .kebabCase => DigitSplit x

/-- Where the checker accepts what the converter leaves, all turns on a second conversion. -/
theorem Family.reachesCanonical_of_twice {family : Family} {x : Bytes}
    (hcheck : ∀ y, family.isCase y = true ↔ family.convert y = y)
    (hto : family.toCase x = family.convert x) :
    family.ReachesCanonical x ↔ family.convert (family.convert x) = family.convert x := by
  rw [Family.ReachesCanonical, hto, hcheck (family.convert x)]
  exact and_iff_left (hcheck x)

/-! ## Class case -/

theorem isClassCase_of_alphanumeric {y : Bytes} (h : ∀ b ∈ y, isSeparator b = false) :
    isClassCase y = true ↔ y.head?.any isAsciiUppercase = true := by
  cases y with
  | nil => simp [isClassCase]
  | cons b y =>
    cases hupper : isAsciiUppercase b with
    | false => simp [isClassCase, hupper]
    | true =>
      have hloop := isClassLoop_of_alphanumeric (b :: y) h
        (by simpa using not_lower_of_upper hupper)
      simp [isClassCase, hupper, hloop]

/-- The first byte written where a word starts is a capital, but for a digit. -/
theorem head_convert {newWord : Bool} (input : Bytes) {loop : CamelLoop}
    (hword : loop.newWord = true) (hletter : ∃ b ∈ input, isLetter b = true) :
    (convertCamelLoop (joinedOptions newWord) loop input).head?.any isAsciiUppercase = true ↔
      ¬DigitFirst input := by
  induction input generalizing loop with
  | nil => simp at hletter
  | cons b input ih =>
    rw [digitFirst_cons]
    by_cases hsep : isSeparator b = true
    · have hb := not_letter_of_separator hsep
      have hdigit : isAsciiDigit b = false := by
        cases kind b <;> simp_all
      rw [convert_separator hsep]
      refine Iff.trans (ih ?_ ?_) ?_
      · simp [hword]
      · simpa [hb] using hletter
      · simp [hdigit, hsep]
    by_cases hdigit : isAsciiDigit b = true
    · have hupper : isAsciiUppercase b = false := by
        cases kind b <;> simp_all
      rw [convert_digit hdigit]
      simp [hdigit, hupper]
    · have hb : isLetter b = true := by
        cases kind b <;> simp_all [isLetter]
      have hstarts : loop.startsWord b = true := by
        simp [CamelLoop.startsWord, hword]
      rw [convert_initial hb hstarts]
      simp [isAsciiUppercase_toUppercase hb, hdigit, hsep]

theorem Identifier.exists_cons (x : Identifier) :
    ∃ b rest, x.bytes = b :: rest ∧ isAsciiDigit b = false := by
  have hstart := x.start
  cases hbytes : x.bytes with
  | nil =>
    rw [hbytes] at hstart
    cases hstart
  | cons b rest =>
    rw [hbytes] at hstart
    refine ⟨b, rest, rfl, ?_⟩
    rw [← Bool.not_eq_true]
    intro hdigit
    have hrange := isAsciiDigit_iff.mp hdigit
    simp only [List.head?_cons, Option.any_some, isStartOfIdentifier, Syntax.isAsciiAlphabetic,
      Syntax.inRange, Bool.or_eq_true, decide_eq_true_eq, beq_iff_eq, UInt8.le_iff_toNat_le,
      ← UInt8.toNat_inj] at hstart
    have ha : (Syntax.byte 'a').toNat = 97 := rfl
    have hA : (Syntax.byte 'A').toNat = 65 := rfl
    have hunderscore : (Syntax.byte '_').toNat = 95 := rfl
    have htop : (0x80 : UInt8).toNat = 128 := rfl
    omega

theorem toClassCase_eq (input : Bytes) : toClassCase input = convertClassCase input := by
  rw [toClassCase]
  split
  · next h =>
    cases input with
    | nil => cases h
    | cons b input => exact (isClassCase_cons.mp h).2.symm
  · rfl

/-- What class case writes for a name begins with a capital, but where a digit comes first. -/
theorem head_convertClass (x : Identifier) (hletter : ∃ b ∈ x.bytes, isLetter b = true) :
    (convertClassCase x.bytes).head?.any isAsciiUppercase = true ↔ ¬DigitFirst x.bytes := by
  obtain ⟨b, rest, hbytes, hdigit⟩ := x.exists_cons
  rw [hbytes] at hletter ⊢
  cases hupper : isAsciiUppercase b with
  | true =>
    have hpos : classPrefixLen (b :: rest) ≠ 0 := by
      rw [Ne, classPrefixLen_eq_zero, hupper]
      simp
    obtain ⟨n, hn⟩ := Nat.exists_eq_succ_of_ne_zero hpos
    have hsep : isSeparator b = false := by
      cases kind b <;> simp_all
    rw [convertClassCase, convertClassLoop, dif_neg (List.cons_ne_nil b rest), dif_neg hpos, hn,
      digitFirst_cons]
    simp [hupper, hdigit, hsep]
  | false =>
    have hzero : classPrefixLen (b :: rest) = 0 := classPrefixLen_eq_zero.mpr ⟨hupper, hdigit⟩
    rw [convertClassCase, convertClassLoop, dif_neg (List.cons_ne_nil b rest), dif_pos hzero,
      toCaseCamelLike_eq, classOptions, convert_trimRight]
    exact head_convert _ rfl hletter

theorem isClassCase_iff (x : Identifier) (hletter : ∃ b ∈ x.bytes, isLetter b = true) :
    isClassCase x.bytes = true ↔ convertClassCase x.bytes = x.bytes := by
  constructor
  · intro h
    rw [← toClassCase_eq, toClassCase, if_pos h]
  · intro h
    have hsep := not_separator_of_convertClass x.bytes
    have hfirst : ¬DigitFirst x.bytes := by
      rw [convertClassCase] at h
      rw [h] at hsep
      obtain ⟨b, rest, hbytes, hdigit⟩ := x.exists_cons
      rw [hbytes, digitFirst_cons, hsep b (by simp [hbytes]), hdigit]
      simp
    rw [← head_convertClass x hletter, h] at hfirst
    rw [convertClassCase] at h
    rw [h] at hsep
    exact (isClassCase_of_alphanumeric hsep).mpr hfirst

theorem reachesCanonical_class (x : Identifier) (hletter : ∃ b ∈ x.bytes, isLetter b = true) :
    Family.classCase.ReachesCanonical x.bytes ↔ ¬DigitFirst x.bytes := by
  have hcheck : isClassCase (toClassCase x.bytes) = true ↔ ¬DigitFirst x.bytes := by
    rw [toClassCase_eq]
    exact (isClassCase_of_alphanumeric (not_separator_of_convertClass x.bytes)).trans
      (head_convertClass x hletter)
  exact Iff.trans (and_iff_left (isClassCase_iff x hletter)) hcheck

/-! ## All families -/

/-- Every identifier with a letter reaches the canonical form and is told from others by it,
exactly where the family loses no word of it. -/
theorem Family.reachesCanonical_iff (family : Family) (x : Identifier)
    (hletter : ∃ b ∈ x.bytes, isLetter b = true) :
    family.ReachesCanonical x.bytes ↔ ¬family.LosesWord x.bytes := by
  cases family with
  | camelCase =>
    refine Iff.trans (reachesCanonical_of_twice ?_ (toCaseCamelLike_eq _ _)) ?_
    · exact isCaseCamelLike_iff _
    · exact convert_camel_twice x.bytes
  | pascalCase =>
    refine Iff.trans (reachesCanonical_of_twice ?_ (toCaseCamelLike_eq _ _)) ?_
    · exact isCaseCamelLike_iff _
    · exact convert_pascal_twice x.bytes
  | classCase => exact reachesCanonical_class x hletter
  | snakeCase =>
    refine Iff.trans (reachesCanonical_of_twice ?_ (toCaseSnakeLike_eq _ _ _ _)) ?_
    · exact isCaseSnakeLike_iff _ _ _
    · exact iff_of_true (convert_snake_twice x.bytes) id
  | constantCase =>
    refine Iff.trans (reachesCanonical_of_twice ?_ (toCaseSnakeLike_eq _ _ _ _)) ?_
    · exact isCaseSnakeLike_iff _ _ _
    · exact iff_of_true (convert_constant_twice x.bytes) id
  | kebabCase =>
    refine Iff.trans (reachesCanonical_of_twice ?_ (toCaseSnakeLike_eq _ _ _ _)) ?_
    · exact isCaseSnakeLike_iff _ _ _
    · exact convert_kebab_twice x.bytes

/-- The name a_b, which Pascal case writes as AB. -/
def twoLetters : Identifier where
  bytes := [97, 95, 98]
  start := by decide
  part := by decide

/-- The name ab_c, which Pascal case writes as AbC. -/
def letterBehindWord : Identifier where
  bytes := [97, 98, 95, 99]
  start := by decide
  part := by decide

theorem Family.reachesCanonical_letterBehindWord :
    Family.pascalCase.ReachesCanonical letterBehindWord.bytes ∧
    (Family.pascalCase.ReachesCanonical letterBehindWord.bytes ↔
      ¬Family.pascalCase.LosesWord letterBehindWord.bytes) :=
  ⟨⟨by decide, by decide⟩, Family.reachesCanonical_iff .pascalCase letterBehindWord
    ⟨97, by simp [letterBehindWord], by decide⟩⟩

/-- AB is not Pascal case: its capitals become Ab. -/
theorem Family.not_reachesCanonical_pascal :
    ¬∀ (family : Family) (x : Identifier), (∃ b ∈ x.bytes, isLetter b = true) →
      family.ReachesCanonical x.bytes := by
  intro h
  have haccepts := (h .pascalCase twoLetters ⟨97, by simp [twoLetters], by decide⟩).1
  exact absurd haccepts (by decide)

end Mago.Casing
