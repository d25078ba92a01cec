import Mathlib

/-!
# Assertions

The assertions of the analyzer over arbitrary atomic and union types, with their textual
form, its hash, and the two notions of negation the algebra uses: `getNegation` builds the
opposite assertion, `isNegationOf` tests for it.
-/
namespace Mago.Algebra

/-- Interned byte strings. -/
abbrev Word := List UInt8

def word (s : String) : Word := s.toList.map fun c => UInt8.ofNat c.toNat

def i64Word (n : ℤ) : Word := word (toString n)

def usizeWord (n : ℕ) : Word := word (toString n)

/-- Types with an identifier. -/
class TType (α : Type) where
  getId : α → Word

/-- A word stands for the type it identifies. -/
instance : TType Word := ⟨id⟩

inductive ArrayKey where
  | integer (i : ℤ)
  | string (s : Word)
  | classLikeConstant (classLikeName constantName : Word)
  deriving DecidableEq

def ArrayKey.toAtom : ArrayKey → Word
  | .integer i => i64Word i
  | .string s => s
  | .classLikeConstant c n => c ++ word "::" ++ n

/-- The two hash functions of the algebra: of a word, and of the variables and assertion
keys of a clause. -/
structure FixedState where
  hashOne : Word → UInt64
  hashPossibilities : List (Word × List UInt64) → UInt32

inductive Assertion (Atomic Union : Type) where
  | any
  | isType (atomic : Atomic)
  | isNotType (atomic : Atomic)
  | falsy
  | truthy
  | isIdentical (atomic : Atomic)
  | isNotIdentical (atomic : Atomic)
  | isEqual (atomic : Atomic)
  | isNotEqual (atomic : Atomic)
  | isEqualIsset
  | isIsset
  | isNotIsset
  | hasStringArrayAccess
  | hasIntOrStringArrayAccess
  | arrayKeyExists
  | arrayKeyDoesNotExist
  | inArray (union : Union)
  | notInArray (union : Union)
  | hasArrayKey (key : ArrayKey)
  | doesNotHaveArrayKey (key : ArrayKey)
  | hasNonnullEntryForKey (key : ArrayKey)
  | doesNotHaveNonnullEntryForKey (key : ArrayKey)
  | empty
  | nonEmpty
  | nonEmptyCountable (negatable : Bool)
  | emptyCountable
  | hasExactCount (number : ℕ)
  | hasAtLeastCount (number : ℕ)
  | doesNotHaveExactCount (number : ℕ)
  | doesNotHasAtLeastCount (number : ℕ)
  | isLessThan (number : ℤ)
  | isLessThanOrEqual (number : ℤ)
  | isGreaterThan (number : ℤ)
  | isGreaterThanOrEqual (number : ℤ)
  | isLessThanFromBound (number : ℤ)
  | isLessThanOrEqualFromBound (number : ℤ)
  | isGreaterThanFromBound (number : ℤ)
  | isGreaterThanOrEqualFromBound (number : ℤ)
  | isLessThanVariable (name : Word)
  | isLessThanOrEqualVariable (name : Word)
  | isGreaterThanVariable (name : Word)
  | isGreaterThanOrEqualVariable (name : Word)
  | stringLengthLessThan (number : ℤ)
  | stringLengthGreaterThanOrEqual (number : ℤ)
  | countable
  | notCountable (negatable : Bool)
  deriving DecidableEq

namespace Assertion

variable {Atomic Union : Type}

section Text

variable [TType Atomic] [TType Union]

open TType

def toAtom : Assertion Atomic Union → Word
  | any => word "any"
  | falsy => word "falsy"
  | truthy => word "truthy"
  | isEqualIsset => word "=isset"
  | isIsset => word "isset"
  | isNotIsset => word "!isset"
  | hasStringArrayAccess => word "=string-array-access"
  | hasIntOrStringArrayAccess => word "=int-or-string-array-access"
  | arrayKeyExists => word "array-key-exists"
  | arrayKeyDoesNotExist => word "!array-key-exists"
  | emptyCountable => word "empty-countable"
  | empty => word "empty"
  | nonEmpty => word "non-empty"
  | countable => word "countable"
  | notCountable _ => word "!countable"
  | isType atomic => getId atomic
  | isNotType atomic => word "!" ++ getId atomic
  | isIdentical atomic => word "=" ++ getId atomic
  | isNotIdentical atomic => word "!=" ++ getId atomic
  | isEqual atomic => word "~" ++ getId atomic
  | isNotEqual atomic => word "!~" ++ getId atomic
  | inArray union => word "=in-array-" ++ getId union
  | notInArray union => word "!=in-array-" ++ getId union
  | hasArrayKey key => word "=has-array-key-" ++ key.toAtom
  | doesNotHaveArrayKey key => word "!=has-array-key-" ++ key.toAtom
  | hasNonnullEntryForKey key => word "=has-nonnull-entry-for-" ++ key.toAtom
  | doesNotHaveNonnullEntryForKey key => word "!=has-nonnull-entry-for-" ++ key.toAtom
  | hasExactCount number => word "has-exactly-" ++ usizeWord number
  | hasAtLeastCount number => word "has-at-least-" ++ usizeWord number
  | doesNotHaveExactCount number => word "!has-exactly-" ++ usizeWord number
  | doesNotHasAtLeastCount number => word "has-at-most-" ++ usizeWord number
  | isLessThan number => word "is-less-than-" ++ i64Word number
  | isLessThanOrEqual number => word "is-less-than-or-equal-" ++ i64Word number
  | isGreaterThan number => word "is-greater-than-" ++ i64Word number
  | isGreaterThanOrEqual number => word "is-greater-than-or-equal-" ++ i64Word number
  | isLessThanFromBound number => word "is-less-than-from-bound-" ++ i64Word number
  | isLessThanOrEqualFromBound number =>
    word "is-less-than-or-equal-from-bound-" ++ i64Word number
  | isGreaterThanFromBound number => word "is-greater-than-from-bound-" ++ i64Word number
  | isGreaterThanOrEqualFromBound number =>
    word "is-greater-than-or-equal-from-bound-" ++ i64Word number
  | isLessThanVariable v => word "is-less-than-variable-" ++ v
  | isLessThanOrEqualVariable v => word "is-less-than-or-equal-variable-" ++ v
  | isGreaterThanVariable v => word "is-greater-than-variable-" ++ v
  | isGreaterThanOrEqualVariable v => word "is-greater-than-or-equal-variable-" ++ v
  | stringLengthLessThan number => word "string-length-is-less-than-" ++ i64Word number
  | stringLengthGreaterThanOrEqual number =>
    word "string-length-is-greater-than-or-equal-" ++ i64Word number
  | nonEmptyCountable true => word "non-empty-countable"
  | nonEmptyCountable false => word "=non-empty-countable"

def toHash (S : FixedState) (a : Assertion Atomic Union) : UInt64 := S.hashOne a.toAtom

end Text

def getNegation : Assertion Atomic Union → Assertion Atomic Union
  | any => any
  | falsy => truthy
  | isType atomic => isNotType atomic
  | isNotType atomic => isType atomic
  | truthy => falsy
  | isIdentical atomic => isNotIdentical atomic
  | isNotIdentical atomic => isIdentical atomic
  | isEqual atomic => isNotEqual atomic
  | isNotEqual atomic => isEqual atomic
  | isIsset => isNotIsset
  | isNotIsset => isIsset
  | empty => nonEmpty
  | nonEmpty => empty
  | nonEmptyCountable true => emptyCountable
  | nonEmptyCountable false => any
  | emptyCountable => nonEmptyCountable true
  | arrayKeyExists => arrayKeyDoesNotExist
  | arrayKeyDoesNotExist => arrayKeyExists
  | inArray union => notInArray union
  | notInArray union => inArray union
  | hasExactCount size => doesNotHaveExactCount size
  | doesNotHaveExactCount size => hasExactCount size
  | hasAtLeastCount size => doesNotHasAtLeastCount size
  | doesNotHasAtLeastCount size => hasAtLeastCount size
  | hasArrayKey key => doesNotHaveArrayKey key
  | doesNotHaveArrayKey key => hasArrayKey key
  | hasNonnullEntryForKey key => doesNotHaveNonnullEntryForKey key
  | doesNotHaveNonnullEntryForKey key => hasNonnullEntryForKey key
  | hasStringArrayAccess => any
  | hasIntOrStringArrayAccess => any
  | isEqualIsset => any
  | isLessThan number => isGreaterThanOrEqual number
  | isLessThanOrEqual number => isGreaterThan number
  | isGreaterThan number => isLessThanOrEqual number
  | isGreaterThanOrEqual number => isLessThan number
  | isLessThanFromBound _ => any
  | isLessThanOrEqualFromBound _ => any
  | isGreaterThanFromBound _ => any
  | isGreaterThanOrEqualFromBound _ => any
  | isLessThanVariable v => isGreaterThanOrEqualVariable v
  | isLessThanOrEqualVariable v => isGreaterThanVariable v
  | isGreaterThanVariable v => isLessThanOrEqualVariable v
  | isGreaterThanOrEqualVariable v => isLessThanVariable v
  | stringLengthLessThan number => stringLengthGreaterThanOrEqual number
  | stringLengthGreaterThanOrEqual number => stringLengthLessThan number
  | countable => notCountable true
  | notCountable _ => countable

def negatedHash [TType Atomic] [TType Union] (S : FixedState) (a : Assertion Atomic Union) :
    UInt64 :=
  S.hashOne <| match a with
    | isType atomic => word "!" ++ TType.getId atomic
    | isNotType atomic => TType.getId atomic
    | isIdentical atomic => word "!=" ++ TType.getId atomic
    | isNotIdentical atomic => word "=" ++ TType.getId atomic
    | isEqual atomic => word "!~" ++ TType.getId atomic
    | isNotEqual atomic => word "~" ++ TType.getId atomic
    | inArray union => word "!=in-array-" ++ TType.getId union
    | notInArray union => word "=in-array-" ++ TType.getId union
    | a => a.getNegation.toAtom

/-- `negated_hash` is the hash of the negation. -/
theorem negatedHash_eq [TType Atomic] [TType Union] (S : FixedState)
    (a : Assertion Atomic Union) : a.negatedHash S = a.getNegation.toHash S := by
  cases a <;> rfl

/-- Bound-derived facts are consequences of a condition, not the condition itself. -/
def isNegatable : Assertion Atomic Union → Bool
  | isLessThanFromBound _ | isLessThanOrEqualFromBound _
  | isGreaterThanFromBound _ | isGreaterThanOrEqualFromBound _ => false
  | _ => true

section Negation

variable [DecidableEq Atomic] [DecidableEq Union]

def isNegationOf (a other : Assertion Atomic Union) : Bool :=
  match a with
  | any => false
  | falsy => other == truthy
  | truthy => other == falsy
  | isType atomic => other == isNotType atomic
  | isNotType atomic => other == isType atomic
  | isIdentical atomic => other == isNotIdentical atomic
  | isNotIdentical atomic => other == isIdentical atomic
  | isEqual atomic => other == isNotEqual atomic
  | isNotEqual atomic => other == isEqual atomic
  | isEqualIsset => false
  | isIsset => other == isNotIsset
  | isNotIsset => other == isIsset
  | hasStringArrayAccess => false
  | hasIntOrStringArrayAccess => false
  | arrayKeyExists => other == arrayKeyDoesNotExist
  | arrayKeyDoesNotExist => other == arrayKeyExists
  | hasArrayKey key => other == doesNotHaveArrayKey key
  | doesNotHaveArrayKey key => other == hasArrayKey key
  | hasNonnullEntryForKey key => other == doesNotHaveNonnullEntryForKey key
  | doesNotHaveNonnullEntryForKey key => other == hasNonnullEntryForKey key
  | inArray union => other == notInArray union
  | notInArray union => other == inArray union
  | empty => other == nonEmpty
  | nonEmpty => other == empty
  | nonEmptyCountable true => other == emptyCountable
  | nonEmptyCountable false => false
  | emptyCountable => other == nonEmptyCountable true
  | hasExactCount number => other == doesNotHaveExactCount number
  | doesNotHaveExactCount number => other == hasExactCount number
  | hasAtLeastCount number => other == doesNotHasAtLeastCount number
  | doesNotHasAtLeastCount number => other == hasAtLeastCount number
  | isLessThan number => other == isGreaterThanOrEqual number
  | isLessThanOrEqual number => other == isGreaterThan number
  | isGreaterThan number => other == isLessThanOrEqual number
  | isGreaterThanOrEqual number => other == isLessThan number
  | isLessThanFromBound _ | isLessThanOrEqualFromBound _
  | isGreaterThanFromBound _ | isGreaterThanOrEqualFromBound _ => false
  | isLessThanVariable v => other == isGreaterThanOrEqualVariable v
  | isLessThanOrEqualVariable v => other == isGreaterThanVariable v
  | isGreaterThanVariable v => other == isLessThanOrEqualVariable v
  | isGreaterThanOrEqualVariable v => other == isLessThanVariable v
  | stringLengthLessThan number => other == stringLengthGreaterThanOrEqual number
  | stringLengthGreaterThanOrEqual number => other == stringLengthLessThan number
  | countable => other == notCountable true
  | notCountable _ => other == countable

end Negation

/-! ## Atom and polarity -/

/-- The positive form of an assertion; the flag of `notCountable` carries no meaning. -/
def base : Assertion Atomic Union → Assertion Atomic Union
  | falsy => truthy
  | isNotType atomic => isType atomic
  | isNotIdentical atomic => isIdentical atomic
  | isNotEqual atomic => isEqual atomic
  | isNotIsset => isIsset
  | arrayKeyDoesNotExist => arrayKeyExists
  | notInArray union => inArray union
  | doesNotHaveArrayKey key => hasArrayKey key
  | doesNotHaveNonnullEntryForKey key => hasNonnullEntryForKey key
  | empty => nonEmpty
  | emptyCountable => nonEmptyCountable true
  | doesNotHaveExactCount number => hasExactCount number
  | doesNotHasAtLeastCount number => hasAtLeastCount number
  | isGreaterThanOrEqual number => isLessThan number
  | isGreaterThan number => isLessThanOrEqual number
  | isGreaterThanOrEqualVariable v => isLessThanVariable v
  | isGreaterThanVariable v => isLessThanOrEqualVariable v
  | stringLengthGreaterThanOrEqual number => stringLengthLessThan number
  | notCountable _ => countable
  | a => a

def positive : Assertion Atomic Union → Bool
  | falsy | isNotType _ | isNotIdentical _ | isNotEqual _ | isNotIsset | arrayKeyDoesNotExist
  | notInArray _ | doesNotHaveArrayKey _ | doesNotHaveNonnullEntryForKey _ | empty
  | emptyCountable | doesNotHaveExactCount _ | doesNotHasAtLeastCount _
  | isGreaterThanOrEqual _ | isGreaterThan _ | isGreaterThanOrEqualVariable _
  | isGreaterThanVariable _ | stringLengthGreaterThanOrEqual _ | notCountable _ => false
  | _ => true

theorem base_of_positive {a : Assertion Atomic Union} (h : a.positive = true) : a.base = a := by
  cases a <;> first | rfl | exact Bool.noConfusion h

/-- The relation that `is_negation_of` decides up to its direction. -/
def Opposite (a b : Assertion Atomic Union) : Prop :=
  a.base = b.base ∧ a.positive ≠ b.positive

/-- The assertions mean the same. -/
def Agree (a b : Assertion Atomic Union) : Prop :=
  a.base = b.base ∧ a.positive = b.positive

theorem Agree.refl (a : Assertion Atomic Union) : Agree a a := ⟨rfl, rfl⟩

theorem Agree.symm {a b : Assertion Atomic Union} (h : Agree a b) : Agree b a :=
  ⟨h.1.symm, h.2.symm⟩

theorem Agree.trans {a b c : Assertion Atomic Union} (h : Agree a b) (hbc : Agree b c) :
    Agree a c := ⟨h.1.trans hbc.1, h.2.trans hbc.2⟩

theorem Opposite.symm {a b : Assertion Atomic Union} (h : Opposite a b) : Opposite b a :=
  ⟨h.1.symm, h.2.symm⟩

theorem Opposite.trans_agree {a b c : Assertion Atomic Union} (h : Opposite a b)
    (hbc : Agree b c) : Opposite a c := ⟨h.1.trans hbc.1, hbc.2 ▸ h.2⟩

variable [DecidableEq Atomic] [DecidableEq Union]

instance (a b : Assertion Atomic Union) : Decidable (Opposite a b) :=
  inferInstanceAs (Decidable (_ ∧ _))

instance (a b : Assertion Atomic Union) : Decidable (Agree a b) :=
  inferInstanceAs (Decidable (_ ∧ _))

theorem opposite_of_isNegationOf {a b : Assertion Atomic Union} (h : a.isNegationOf b = true) :
    Opposite a b := by
  cases a with
  | nonEmptyCountable negatable =>
    cases negatable <;> simp only [isNegationOf, beq_iff_eq, Bool.false_eq_true] at h
    subst h
    exact ⟨rfl, Bool.noConfusion⟩
  | _ =>
    simp only [isNegationOf, beq_iff_eq, Bool.false_eq_true] at h
    try (subst h; exact ⟨rfl, Bool.noConfusion⟩)

theorem isNegationOf_of_negative {a b : Assertion Atomic Union} (h : Opposite a b)
    (ha : a.positive = true) : b.isNegationOf a = true := by
  obtain ⟨hbase, hpos⟩ := h
  rw [base_of_positive ha] at hbase
  have hb : b.positive = false := by simpa [ha] using hpos
  subst hbase
  cases b <;> simp_all [positive, base, isNegationOf]

theorem opposite_iff {a b : Assertion Atomic Union} :
    Opposite a b ↔ a.isNegationOf b = true ∨ b.isNegationOf a = true := by
  constructor
  · intro h
    cases ha : a.positive with
    | true => exact .inr (isNegationOf_of_negative h ha)
    | false =>
      have hb : b.positive = true := by simpa [ha] using h.2
      exact .inl (isNegationOf_of_negative h.symm hb)
  · rintro (h | h)
    · exact opposite_of_isNegationOf h
    · exact (opposite_of_isNegationOf h).symm

/-- An assertion is opposed by its negation, or has none but `any`. -/
theorem isNegationOf_getNegation_or (a : Assertion Atomic Union) :
    a.isNegationOf a.getNegation = true ∨ a.getNegation = any := by
  cases a with
  | nonEmptyCountable negatable => cases negatable <;> simp [isNegationOf, getNegation]
  | _ => simp [isNegationOf, getNegation]

end Assertion

end Mago.Algebra
