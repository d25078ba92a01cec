import Mago.Algebra.Assertion
import Mathlib

/-!
# Values

The values of a PHP program as the types of the analyzer see them. Floats range over any
linear order with a zero; values that are neither null nor scalar are left abstract, with
their truthiness given.
-/
namespace Mago.Types

open Mago.Algebra (Word word)

def i64Min : ℤ := -9223372036854775808

def i64Max : ℤ := 9223372036854775807

def saturatingAdd (a b : ℤ) : ℤ := max i64Min (min i64Max (a + b))

def saturatingSub (a b : ℤ) : ℤ := max i64Min (min i64Max (a - b))

/-- The integers a program computes with. -/
abbrev PhpInt := {n : ℤ // i64Min ≤ n ∧ n ≤ i64Max}

inductive Value (F O : Type) where
  | null
  | bool (b : Bool)
  | int (n : PhpInt)
  | float (x : F)
  | string (s : Word)
  | other (o : O)
  deriving DecidableEq

/-- What the types leave to the running program: the truth value of arrays, objects and
resources, and the strings that name something callable. -/
class World (O : Type) where
  truth : O → Bool
  callable : Word → Bool

namespace Value

variable {F O : Type} [LinearOrder F] [Zero F] [World O]

/-- Conversion to `bool`. -/
def truthy : Value F O → Bool
  | null => false
  | bool b => b
  | int n => n.val != 0
  | float x => x != 0
  | string s => !s.isEmpty && s != word "0"
  | other o => World.truth o

end Value

end Mago.Types
