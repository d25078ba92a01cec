import Mago.Algebra.SaturateComplete

/-!
# Negation of a formula

`negateFormula` turns a conjunction of clauses into its negation: the negated literals of the
last clause seed the result, every earlier clause is distributed over it, and the resulting
impossible clauses are saturated. A combination whose literal opposes one already present is
a tautology; the source leaves the loop over the assertions of that variable there.
-/
namespace Mago.Algebra
open Library

variable {Atomic Union : Type} [DecidableEq Atomic] [DecidableEq Union] [TType Atomic]
  [TType Union] (S : FixedState)

/-- The negations of the assertions of one variable, with their hashes. -/
def negations (as : Assertions Atomic Union) : List (UInt64 × Assertion Atomic Union) :=
  as.values.map fun a => (a.getNegation.toHash S, a.getNegation)

/-- The negated literals of a clause, one unit clause each. -/
def negatedUnits (clause : Clause Atomic Union) : List (Clause Atomic Union) :=
  clause.possibilities.entries.flatMap fun e => (negations S e.2).map fun n =>
    .new S (OrderedMap.ofList [(e.1, OrderedMap.ofList [n])]) clause.conditionSpan clause.span
      none none (some clause.generated)

def seedClauses (clause : Clause Atomic Union) : List (Clause Atomic Union) :=
  if clause.wedge then [] else negatedUnits S clause

/-! ## Complexity -/

def possibilitiesCount (clause : Clause Atomic Union) : ℕ :=
  (clause.possibilities.values.map OrderedMap.len).sum

/-- The product of the clause sizes passes the limit on the way. -/
def exceedsComplexity (maxComplexity bound : ℕ) : List (Clause Atomic Union) → Bool
  | [] => false
  | clause :: clauses =>
    let bound := min (bound * possibilitiesCount clause) (2 ^ 64 - 1)
    if bound > maxComplexity then true else exceedsComplexity maxComplexity bound clauses

/-- Run `f` over a list and append the results, threading the number of combinations. -/
def collect {α β : Type} (f : α → ℕ → Option (List β × ℕ)) :
    List α → ℕ → Option (List β × ℕ)
  | [], complexity => some ([], complexity)
  | x :: xs, complexity =>
    match f x complexity with
    | none => none
    | some (ys, complexity) =>
      match collect f xs complexity with
      | none => none
      | some (zs, complexity) => some (ys ++ zs, complexity)

/-! ## Distribution -/

/-- The grouped clause already has an assertion of `var` that negates `impossibleType`. -/
def opposed (grouped : Clause Atomic Union) (var : Word)
    (impossibleType : Assertion Atomic Union) : Bool :=
  (grouped.possibilities.get? var).any fun m => m.values.any fun a =>
    a.isNegationOf impossibleType

def extendClause (grouped clause : Clause Atomic Union) (var : Word)
    (impossible : UInt64 × Assertion Atomic Union) : Clause Atomic Union :=
  .new S (grouped.possibilities.insert var
      (((grouped.possibilities.get? var).getD .empty).insert impossible.1 impossible.2))
    grouped.conditionSpan clause.span (some false) (some true) (some true)

/-- Extend a grouped clause by the negations of one variable, until one is opposed. -/
def extendVariable (maxComplexity : ℕ) (grouped clause : Clause Atomic Union) (var : Word) :
    List (UInt64 × Assertion Atomic Union) → ℕ → Option (List (Clause Atomic Union) × ℕ)
  | [], complexity => some ([], complexity)
  | impossible :: rest, complexity =>
    if complexity + 1 > maxComplexity then none
    -- the loop ends here, also for the assertions that come after
    else if opposed grouped var impossible.2 then some ([], complexity + 1)
    else match extendVariable maxComplexity grouped clause var rest (complexity + 1) with
      | none => none
      | some (clauses, complexity) =>
        some (extendClause S grouped clause var impossible :: clauses, complexity)

def distribute (maxComplexity : ℕ) (clause : Clause Atomic Union)
    (seeds : List (Clause Atomic Union)) (complexity : ℕ) :
    Option (List (Clause Atomic Union) × ℕ) :=
  collect (fun grouped => collect (fun e =>
    extendVariable S maxComplexity grouped clause e.1 (negations S e.2))
      clause.possibilities.entries) seeds complexity

/-- Distribute the clauses, the last one first. -/
def groupFrom (maxComplexity : ℕ) : List (Clause Atomic Union) → List (Clause Atomic Union) →
    ℕ → Option (List (Clause Atomic Union))
  | [], seeds, _ => some seeds.reverse
  | clause :: rest, seeds, complexity =>
    match distribute S maxComplexity clause seeds complexity with
    | none => none
    | some (seeds, complexity) => groupFrom maxComplexity rest seeds complexity

def groupImpossibilities (clauses : List (Clause Atomic Union)) (maxComplexity : ℕ) :
    Option (List (Clause Atomic Union)) :=
  match clauses.reverse with
  | [] => some []
  | clause :: rest =>
    let seeds := seedClauses S clause
    if rest.isEmpty || seeds.isEmpty then some seeds
    else if exceedsComplexity maxComplexity seeds.length rest.reverse then none
    else groupFrom S maxComplexity rest seeds 1

/-! ## Negation -/

/-- The clauses that take part in the negation. -/
def negatableClause (clause : Clause Atomic Union) : Bool :=
  clause.reconcilable && (clause.wedge ||
    clause.possibilities.values.all fun assertions =>
      assertions.values.all Assertion.isNegatable)

def negateFormula (thresholds : AlgebraThresholds) (clauses : List (Clause Atomic Union)) :
    Option (List (Clause Atomic Union)) :=
  let clauses := clauses.filter negatableClause
  if clauses.isEmpty then some []
  else match groupImpossibilities S clauses thresholds.negationComplexity.toNat with
    | none => none
    | some impossible =>
      if impossible.isEmpty then some [] else some (saturateClauses S thresholds impossible)

end Mago.Algebra
