import Mago.Types.Scalar
import Mathlib

/-!
# Atomic types and unions

The atomic types over scalars and `mixed`; arrays, objects and callables are one further
kind, left as a parameter together with the values of its types.
-/
namespace Mago.Types

open Mago.Algebra (Word word)

inductive TMixedTruthiness where
  | undetermined
  | truthy
  | falsy
  deriving DecidableEq, Ord

/-- `mixed` under constraints; the internal empty constraint comes with falsiness. -/
structure TMixed where
  isIssetFromLoop : Bool
  isNonNull : Bool
  isEmpty : Bool
  truthiness : TMixedTruthiness
  falsy_of_isEmpty : isEmpty = true → truthiness = .falsy
  deriving DecidableEq

namespace TMixed

def withIsIssetFromLoop (m : TMixed) (isIssetFromLoop : Bool) : TMixed :=
  {m with isIssetFromLoop}

/-- A truthy value is not null, an empty one is falsy and may be null. -/
def ensureConsistency (isIssetFromLoop isNonNull isEmpty : Bool)
    (truthiness : TMixedTruthiness) : TMixed :=
  let isNonNull := isNonNull || truthiness == .truthy
  if h : isEmpty then ⟨isIssetFromLoop, false, true, .falsy, fun _ => rfl⟩
  else ⟨isIssetFromLoop, isNonNull, isEmpty, truthiness, fun h' => absurd h' h⟩

def withTruthiness (m : TMixed) (truthiness : TMixedTruthiness) : TMixed :=
  ensureConsistency m.isIssetFromLoop m.isNonNull m.isEmpty truthiness

def asEmpty (m : TMixed) : TMixed :=
  ensureConsistency m.isIssetFromLoop m.isNonNull true m.truthiness

def isTruthy (m : TMixed) : Bool := m.truthiness == .truthy

def isFalsy (m : TMixed) : Bool := m.truthiness == .falsy

instance : Ord TMixed where
  compare m₁ m₂ :=
    (compare m₁.isIssetFromLoop m₂.isIssetFromLoop).then
      ((compare m₁.isNonNull m₂.isNonNull).then
        ((compare m₁.isEmpty m₂.isEmpty).then (compare m₁.truthiness m₂.truthiness)))

variable {F O : Type} [LinearOrder F] [Zero F] [World O]

structure Has (m : TMixed) (v : Value F O) : Prop where
  nonNull : m.isNonNull = true → v ≠ .null
  truthy : m.isTruthy = true → v.truthy = true
  falsy : m.isFalsy = true → v.truthy = false

end TMixed

/-- An atomic type; `other` stands for the kinds that are neither null, scalar nor mixed. -/
inductive TAtomic (F K : Type) where
  | scalar (t : TScalar F)
  | mixed (m : TMixed)
  | other (kind : K)
  | never
  | null
  | void
  deriving DecidableEq, Ord

/-- The values of the types of a kind. -/
class Kind (K F O : Type) where
  Has : K → Value F O → Prop

instance {F O : Type} : Kind Empty F O := ⟨fun k => k.elim⟩

namespace TAtomic

variable {F K O : Type} [LinearOrder F] [Zero F] [World O] [Kind K F O]

/-- The values of an atomic type; `void` is read as `null`. -/
def Has : TAtomic F K → Value F O → Prop
  | scalar t, v => t.Has v
  | mixed m, v => m.Has v
  | other k, v => Kind.Has k v
  | never, _ => False
  | null, v => v = .null
  | void, v => v = .null

section Simp

variable {t : TScalar F} {v : Value F O}

@[simp] theorem has_scalar : (scalar t : TAtomic F K).Has v ↔ t.Has v := Iff.rfl

@[simp] theorem not_has_never : ¬ (never : TAtomic F K).Has v := id

end Simp

def isNever : TAtomic F K → Bool
  | never => true
  | _ => false

end TAtomic

/-- A union of atomic types. -/
structure TUnion (F K : Type) where
  types : List (TAtomic F K)
  deriving DecidableEq, Ord

namespace TUnion

variable {F K O : Type} [LinearOrder F] [Zero F] [World O] [Kind K F O]

def Has (u : TUnion F K) (v : Value F O) : Prop := ∃ t ∈ u.types, t.Has v

def fromAtomic (t : TAtomic F K) : TUnion F K := ⟨[t]⟩

def getNever : TUnion F K := fromAtomic .never

def isNever (u : TUnion F K) : Bool := u.types.all TAtomic.isNever

theorem has_mk {types : List (TAtomic F K)} {v : Value F O} :
    (⟨types⟩ : TUnion F K).Has v ↔ ∃ t ∈ types, t.Has v := Iff.rfl

@[simp] theorem has_fromAtomic {t : TAtomic F K} {v : Value F O} :
    (fromAtomic t).Has v ↔ t.Has v := by
  simp [fromAtomic, has_mk]

@[simp] theorem not_has_getNever {v : Value F O} : ¬ (getNever : TUnion F K).Has v := by
  simp [getNever]

theorem not_has_of_isNever {u : TUnion F K} {v : Value F O} (h : u.isNever = true) :
    ¬ u.Has v := by
  rintro ⟨t, ht, htv⟩
  have hnever := List.all_eq_true.mp h t ht
  cases t <;> simp_all [TAtomic.isNever]

end TUnion

end Mago.Types
