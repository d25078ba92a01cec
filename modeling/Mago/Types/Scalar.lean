import Mago.Types.Integer
import Mathlib

/-!
# Scalar types

Booleans, floats and strings with their guaranteed properties, and the scalar types over
them, each with the values it has.
-/
namespace Mago.Types

open Mago.Algebra (Word word)

section Numeric

def isAsciiWhitespace (b : UInt8) : Bool := b == 9 || b == 10 || b == 12 || b == 13 || b == 32

def isAsciiDigit (b : UInt8) : Bool := 48 ≤ b && b ≤ 57

def isAsciiLowercase (b : UInt8) : Bool := 97 ≤ b && b ≤ 122

def isAsciiUppercase (b : UInt8) : Bool := 65 ≤ b && b ≤ 90

def toAsciiLowercase (b : UInt8) : UInt8 := if isAsciiUppercase b then b + 32 else b

def trimAscii (input : Word) : Word :=
  ((input.dropWhile isAsciiWhitespace).reverse.dropWhile isAsciiWhitespace).reverse

def isSign (b : UInt8) : Bool := b == 43 || b == 45

def stripSign : Word → Word
  | [] => []
  | b :: rest => if isSign b then rest else b :: rest

/-- The optional exponent of a decimal number. -/
def parsesAsExponent : Word → Bool
  | [] => true
  | b :: rest =>
    toAsciiLowercase b == 101 && !(stripSign rest).isEmpty && (stripSign rest).all isAsciiDigit

/-- Digits, an optional fraction with a digit on one side of the point, an exponent. -/
def parsesAsDecimal (s : Word) : Bool :=
  let integral := s.takeWhile isAsciiDigit
  match s.dropWhile isAsciiDigit with
  | [] => !integral.isEmpty
  | b :: rest =>
    if b == 46 then
      (!integral.isEmpty || !(rest.takeWhile isAsciiDigit).isEmpty) &&
        parsesAsExponent (rest.dropWhile isAsciiDigit)
    else !integral.isEmpty && parsesAsExponent (b :: rest)

/-- `str::parse::<f64>` succeeds. -/
def parsesAsF64 (s : Word) : Bool :=
  let s := (stripSign s).map toAsciiLowercase
  s == word "inf" || s == word "infinity" || s == word "nan" || parsesAsDecimal s

/-- The bytes a number can go on with after its sign and its leading zeros. -/
def startsNumber (b : UInt8) : Bool :=
  isAsciiDigit b || b == 46 || isSign b || b == 105 || b == 73 || b == 110 || b == 78

def strIsNumeric (input : Word) : Bool :=
  match trimAscii input with
  | [] => false
  | b :: rest =>
    let unsigned := if isSign b then rest else b :: rest
    if unsigned.isEmpty then false
    else
      match unsigned.dropWhile (· == 48) with
      | [] => true
      | b :: rest => startsNumber b && parsesAsF64 (b :: rest)

theorem strIsNumeric_nil : strIsNumeric [] = false := by decide

theorem ne_nil_of_strIsNumeric {s : Word} (h : strIsNumeric s = true) : s ≠ [] := by
  rintro rfl
  simp [strIsNumeric_nil] at h

example : strIsNumeric (word " -1.5e3") = true := by decide

example : strIsNumeric (word "1a") = false := by decide

end Numeric

/-- `none` is the general type. -/
structure TBool where
  value : Option Bool
  deriving DecidableEq, Ord

namespace TBool

def isTrue (b : TBool) : Bool := b.value == some Bool.true

def isFalse (b : TBool) : Bool := b.value == some Bool.false

def isGeneral (b : TBool) : Bool := b.value.isNone

def Has (b : TBool) (v : Bool) : Prop := ∀ u ∈ b.value, u = v

instance (b : TBool) (v : Bool) : Decidable (b.Has v) := by unfold Has; infer_instance

end TBool

inductive TFloat (F : Type) where
  | float
  | unspecifiedLiteral
  | literal (value : F)
  deriving DecidableEq, Ord

namespace TFloat

variable {F : Type}

def getLiteralValue : TFloat F → Option F
  | literal value => some value
  | _ => none

def Has (f : TFloat F) (x : F) : Prop := ∀ v ∈ f.getLiteralValue, x = v

instance [DecidableEq F] (f : TFloat F) (x : F) : Decidable (f.Has x) := by
  unfold Has; infer_instance

end TFloat

inductive TStringCasing where
  | unspecified
  | lowercase
  | uppercase
  deriving DecidableEq, Ord

namespace TStringCasing

/-- The strings of a casing have no letter of the other one. -/
def Allows : TStringCasing → Word → Prop
  | unspecified, _ => True
  | lowercase, s => ∀ b ∈ s, isAsciiUppercase b = false
  | uppercase, s => ∀ b ∈ s, isAsciiLowercase b = false

instance (c : TStringCasing) (s : Word) : Decidable (c.Allows s) := by
  cases c <;> unfold Allows <;> infer_instance

@[simp] theorem allows_unspecified {s : Word} : unspecified.Allows s := trivial

end TStringCasing

inductive TStringLiteral where
  | unspecified
  | value (s : Word)
  deriving DecidableEq, Ord

/-- A string type with the properties that are guaranteed of its strings. -/
structure TString where
  literal : Option TStringLiteral
  isNumeric : Bool
  isTruthy : Bool
  isNonEmpty : Bool
  isCallable : Bool
  casing : TStringCasing
  deriving DecidableEq, Ord

namespace TString

/-- A numeric, truthy or callable string is not empty. -/
def new (literal : Option TStringLiteral) (isNumeric isTruthy isNonEmpty isCallable : Bool)
    (casing : TStringCasing) : TString :=
  ⟨literal, isNumeric, isTruthy, isNonEmpty || isNumeric || isTruthy || isCallable, isCallable,
    casing⟩

def general : TString := new none false false false false .unspecified

/-- The casing of a literal with letters of one case only. -/
def literalCasing (value : Word) : TStringCasing :=
  let hasLowercase := value.any isAsciiLowercase
  let hasUppercase := value.any isAsciiUppercase
  if hasLowercase && !hasUppercase then .lowercase
  else if hasUppercase && !hasLowercase then .uppercase
  else .unspecified

def knownLiteral (value : Word) : TString :=
  let isNumeric := strIsNumeric value
  let isNonEmpty := isNumeric || !value.isEmpty
  let isTruthy := isNonEmpty && value != word "0"
  new (some (.value value)) isNumeric isTruthy isNonEmpty false (literalCasing value)

def isLiteralOrigin (t : TString) : Bool := t.literal.isSome

/-- The known value of a literal. -/
def getKnownLiteralAtom (t : TString) : Option Word :=
  match t.literal with
  | some (.value s) => some s
  | _ => none

def getKnownLiteralValue (t : TString) : Option Word := t.getKnownLiteralAtom

def isKnownLiteral (t : TString) : Bool := t.getKnownLiteralAtom.isSome

def isLowercase (t : TString) : Bool :=
  match t.casing with
  | .lowercase => true
  | .uppercase => false
  | .unspecified =>
    match t.literal with
    | some (.value s) => s.all fun b => !isAsciiUppercase b
    | _ => false

def isUppercase (t : TString) : Bool :=
  match t.casing with
  | .uppercase => true
  | .lowercase => false
  | .unspecified =>
    match t.literal with
    | some (.value s) => s.all fun b => !isAsciiLowercase b
    | _ => false

/-- The strings with every property that the type guarantees. -/
structure Has (callable : Word → Bool) (t : TString) (s : Word) : Prop where
  value : ∀ v ∈ t.getKnownLiteralAtom, s = v
  numeric : t.isNumeric = true → strIsNumeric s = true
  truthy : t.isTruthy = true → s ≠ [] ∧ s ≠ word "0"
  nonEmpty : t.isNonEmpty = true → s ≠ []
  callable : t.isCallable = true → callable s = true
  casing : t.casing.Allows s

theorem has_iff {callable : Word → Bool} {t : TString} {s : Word} :
    t.Has callable s ↔ (∀ v ∈ t.getKnownLiteralAtom, s = v) ∧
      (t.isNumeric = true → strIsNumeric s = true) ∧
      (t.isTruthy = true → s ≠ [] ∧ s ≠ word "0") ∧ (t.isNonEmpty = true → s ≠ []) ∧
      (t.isCallable = true → callable s = true) ∧ t.casing.Allows s :=
  ⟨fun ⟨h₁, h₂, h₃, h₄, h₅, h₆⟩ => ⟨h₁, h₂, h₃, h₄, h₅, h₆⟩,
    fun ⟨h₁, h₂, h₃, h₄, h₅, h₆⟩ => ⟨h₁, h₂, h₃, h₄, h₅, h₆⟩⟩

instance (callable : Word → Bool) (t : TString) (s : Word) : Decidable (t.Has callable s) :=
  decidable_of_iff _ has_iff.symm

variable {callable : Word → Bool}

theorem has_general {s : Word} : general.Has callable s := by
  simp [has_iff, general, new, getKnownLiteralAtom]

theorem allows_literalCasing {s : Word} : (literalCasing s).Allows s := by
  unfold literalCasing
  dsimp only
  split
  · rename_i h
    simp only [Bool.and_eq_true, Bool.not_eq_true', List.any_eq_false] at h
    exact fun b hb => by simpa using h.2 b hb
  · split
    · rename_i h
      simp only [Bool.and_eq_true, Bool.not_eq_true', List.any_eq_false] at h
      exact fun b hb => by simpa using h.2 b hb
    · trivial

/-- A literal has its own value. -/
theorem has_knownLiteral {s : Word} : (knownLiteral s).Has callable s := by
  have hne : strIsNumeric s = true → s ≠ [] := ne_nil_of_strIsNumeric
  refine ⟨?_, id, ?_, ?_, by simp [knownLiteral, new], allows_literalCasing⟩
  · simp [knownLiteral, new, getKnownLiteralAtom]
  · simp only [knownLiteral, new, Bool.and_eq_true, Bool.or_eq_true, Bool.not_eq_true',
      List.isEmpty_eq_false_iff, bne_iff_ne]
    rintro ⟨h | h, h₀⟩
    · exact ⟨hne h, h₀⟩
    · exact ⟨h, h₀⟩
  · simp only [knownLiteral, new, Bool.and_eq_true, Bool.or_eq_true, Bool.not_eq_true',
      List.isEmpty_eq_false_iff, bne_iff_ne, Bool.false_eq_true, or_false]
    rintro (((h | h) | h) | ⟨h | h, -⟩)
    · exact hne h
    · exact h
    · exact hne h
    · exact hne h
    · exact h

theorem Has.eq_of_known {t : TString} {s v : Word} (h : t.Has callable s)
    (hv : t.getKnownLiteralAtom = some v) : s = v := h.value v hv

end TString

inductive TScalar (F : Type) where
  | generic
  | numeric
  | arrayKey
  | bool (b : TBool)
  | integer (i : TInteger)
  | float (f : TFloat F)
  | string (s : TString)
  deriving DecidableEq, Ord

namespace TScalar

variable {F : Type}

def int : TScalar F := integer .unspecified

def generalString : TScalar F := string .general

def literalString (s : Word) : TScalar F := string (.knownLiteral s)

/-- Resolves to `true` in a boolean context. -/
def isTruthy [DecidableEq F] [Zero F] : TScalar F → Bool
  | bool b => b.isTrue
  | integer i =>
    match i.getLiteralValue with
    | some v => v != 0
    | none =>
      match i.getBounds with
      | (some lower, some upper) => 0 < lower || upper < 0
      | (some lower, none) => 0 < lower
      | (none, some upper) => upper < 0
      | (none, none) => false
  | float f => f.getLiteralValue.any (· != 0)
  | string s => s.isTruthy
  | _ => false

/-- Resolves to `false` in a boolean context. -/
def isFalsy [DecidableEq F] [Zero F] : TScalar F → Bool
  | bool b => b.isFalse
  | integer i => i.getLiteralValue.any (· == 0)
  | float f => f.getLiteralValue.any (· == 0)
  | string s => s.getKnownLiteralValue.any fun value => value.isEmpty || value == word "0"
  | _ => false

variable {O : Type} [World O]

/-- The values of a scalar type. -/
def Has : TScalar F → Value F O → Prop
  | generic, .bool _ => True
  | generic, .int _ => True
  | generic, .float _ => True
  | generic, .string _ => True
  | numeric, .int _ => True
  | numeric, .float _ => True
  | numeric, .string s => strIsNumeric s = true
  | arrayKey, .int _ => True
  | arrayKey, .string _ => True
  | bool b, .bool v => b.Has v
  | integer i, .int n => i.Has n
  | float f, .float x => f.Has x
  | string t, .string s => t.Has (World.callable O) s
  | _, _ => False

instance [DecidableEq F] (t : TScalar F) (v : Value F O) : Decidable (t.Has v) := by
  cases t <;> cases v <;> unfold Has <;> infer_instance

@[simp] theorem has_integer {i : TInteger} {n : PhpInt} :
    (integer i : TScalar F).Has (.int n : Value F O) ↔ i.Has n := Iff.rfl

end TScalar

end Mago.Types
