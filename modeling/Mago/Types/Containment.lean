import Mago.Library.Retain
import Mago.Types.Arithmetic
import Mathlib

/-!
# Containment in several integer types

An integer type is contained in a list of types when nothing of it is left after the types are
taken away from its ends.
-/
namespace Mago.Types

open Mago.Library

/-- What is left of a type, between ends that may be open. -/
structure Bounds where
  minBound : Option ℤ
  maxBound : Option ℤ
  deriving DecidableEq

namespace Bounds

def isEmpty (b : Bounds) : Bool :=
  match b.minBound, b.maxBound with
  | some minB, some maxB => maxB < minB
  | _, _ => false

def minWithin (b : Bounds) (f t : ℤ) : Bool := b.minBound.any fun minB => f ≤ minB && minB ≤ t

def maxWithin (b : Bounds) (f t : ℤ) : Bool := b.maxBound.any fun maxB => f ≤ maxB && maxB ≤ t

/-- Take a container away where it covers an end, and tell whether it is kept. -/
def reduce (b : Bounds) : TInteger → Bounds × Bool
  | .literal c =>
    if some c = b.minBound then ({b with minBound := some (saturatingAdd c 1)}, false)
    else if some c = b.maxBound then ({b with maxBound := some (saturatingSub c 1)}, false)
    else (b, true)
  | .range f t =>
    let r := if b.minWithin f t then ({b with minBound := some (saturatingAdd t 1)}, false)
      else (b, true)
    if r.1.maxWithin f t then ({r.1 with maxBound := some (saturatingSub f 1)}, false) else r
  | .fromValue f =>
    if b.minBound.any fun minB => f ≤ minB then
      ({b with maxBound := some (saturatingSub f 1)}, false)
    else (b, true)
  | .toValue t =>
    if b.maxBound.any fun maxB => maxB ≤ t then
      ({b with minBound := some (saturatingAdd t 1)}, false)
    else (b, true)
  -- filtered out before
  | .unspecified => (b, true)
  | .unspecifiedLiteral => (b, true)

end Bounds

namespace TInteger

/-- Progress is made where a container is dropped. -/
def isContainedByAny (self : TInteger) (intContainers : List TInteger) : Bool :=
  if intContainers.any isUnspecified then true
  else if self.isLiteral then intContainers.any fun c => c.contains self
  else if self.isUnspecifiedLiteral then
    intContainers.any fun c => c.isUnspecifiedLiteral || c.isUnspecified
  else if self.isUnspecified then false
  else
    retainLoop Bounds.reduce Bounds.isEmpty ⟨self.getMinimumValue, self.getMaximumValue⟩
      (intContainers.filter fun c => !c.isUnspecifiedLiteral)

end TInteger

end Mago.Types
