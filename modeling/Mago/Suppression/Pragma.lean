import Mago.Reporting.Baseline

/-!
# Pragmas

A pragma suppresses the issues of one code around it and counts those it has matched. The
counter stops at the largest 16-bit number.
-/
namespace Mago.Suppression
open Library Reporting

inductive PragmaKind
  | ignore
  | expect
  deriving DecidableEq, Repr

structure Pragma where
  kind : PragmaKind
  span : Span
  triviaSpan : Span
  scopeSpan : Option Span
  startLine : ℕ
  endLine : ℕ
  ownLine : Bool
  category : Text
  code : Text
  /-- The span of the code with its category and its count. -/
  codeSpan : Span
  /-- The span of the parenthesised count. -/
  countSpan : Option Span
  expectedMatches : UInt16
  matched : UInt16
  description : Text
  deriving DecidableEq, Repr

namespace Pragma

def isFulfilled (p : Pragma) : Bool := decide (p.expectedMatches ≤ p.matched)

/-- A scoped pragma without a count is never used up. -/
def isConsumed (p : Pragma) : Bool :=
  if p.scopeSpan.isSome && p.countSpan.isNone then false
  else decide (p.expectedMatches ≤ p.matched)

/-- One more match, saturating. -/
def countMatch (p : Pragma) : Pragma :=
  { p with matched := if p.matched = 0xFFFF then 0xFFFF else p.matched + 1 }

end Pragma

/-- A span contains another one when it contains its start. -/
def contains (span other : Span) : Bool :=
  decide (span.start ≤ other.start) && decide (other.start ≤ span.stop)

end Mago.Suppression
