import Mago.Algebra.Clause

/-!
# Saturation

`saturateClauses` drops duplicate clauses and then simplifies in one pass: resolution and
unit propagation, inference of common consequences, absorption, and removal of consensus
clauses. Positions that the source tracks by index are kept beside the clauses.
-/
namespace Mago.Algebra
open Library

/-- Limits on the size of formulas. -/
structure AlgebraThresholds where
  saturationComplexity : UInt16
  disjunctionComplexity : UInt16
  negationComplexity : UInt16
  consensusLimit : UInt16

def AlgebraThresholds.default : AlgebraThresholds := ⟨8192, 4096, 4096, 256⟩

variable {Atomic Union : Type} [DecidableEq Atomic] [DecidableEq Union] [TType Atomic]
  [TType Union] (S : FixedState)

/-- Keep the first clause of every hash that is not in `seen`. -/
def uniqueFrom (seen : List UInt32) : List (Clause Atomic Union) → List (Clause Atomic Union)
  | [] => []
  | c :: cs => if c.hash ∈ seen then uniqueFrom seen cs else c :: uniqueFrom (c.hash :: seen) cs

/-! ## Resolution and unit propagation -/

def indexKeysMatch (map1 map2 : Assertions Atomic Union) : Bool :=
  map1.len == map2.len &&
    (map1.keys == map2.keys || map1.len > 1 && map1.keys.all fun k => map2.containsKey k)

/-- Both maps hold one assertion, and these negate each other. -/
def singletonNegation (as bs : Assertions Atomic Union) : Bool :=
  as.len == 1 && bs.len == 1 &&
    as.values.head?.any fun a => bs.values.head?.any fun b => a.isNegationOf b

/-- Compare the variables of one clause with those of `b`. `none` is a mismatch, and
`some key` tells on which variable, if on any, the clauses oppose. -/
def opposingKeyFrom (b : Possibilities Atomic Union) (index : ℕ) (opposing : Option Word) :
    List (Word × Assertions Atomic Union) → Option (Option Word)
  | [] => some opposing
  | (key, as) :: rest =>
    match b.getIndexOr index key with
    | none => none
    | some bs =>
      if indexKeysMatch as bs then opposingKeyFrom b (index + 1) opposing rest
      else if singletonNegation as bs then
        match opposing with
        | some _ => none
        | none => opposingKeyFrom b (index + 1) (some key) rest
      else none

def opposingKey (a b : Clause Atomic Union) : Option (Option Word) :=
  opposingKeyFrom b.possibilities 0 none a.possibilities.entries

structure Progress (Atomic Union : Type) where
  removed : List Bool
  added : List (Clause Atomic Union)

def Progress.isRemoved (p : Progress Atomic Union) (i : ℕ) : Bool := p.removed.getD i false

def Progress.replace (p : Progress Atomic Union) (i : ℕ) (clauses : List (Clause Atomic Union)) :
    Progress Atomic Union :=
  ⟨p.removed.set i true, p.added ++ clauses⟩

/-- The length and the combined hash under which clauses are linked. -/
def keySignature (c : Clause Atomic Union) : ℕ × UInt64 :=
  (c.possibilities.len, c.possibilities.keys.foldl (fun h k => h ^^^ S.hashOne k) 0)

/-- Resolution needs at least two variables. -/
def resolvable (c : Clause Atomic Union) : Bool := c.eligible && decide (c.possibilities.len > 1)

/-- The later clauses that `next_matching_clause` links to the clause at position `i`. -/
def laterMatching (unique : List (Clause Atomic Union)) (i : ℕ) (a : Clause Atomic Union) :
    List (Clause Atomic Union × ℕ) :=
  if resolvable a then
    unique.zipIdx.filter fun (b, j) =>
      decide (i < j) && resolvable b && keySignature S b == keySignature S a
  else []

def literalIndex (unique : List (Clause Atomic Union)) : List (Word × UInt64) :=
  (unique.filter Clause.eligible).flatMap fun c =>
    c.possibilities.entries.flatMap fun e => e.2.keys.map fun k => (e.1, k)

/-- What unit propagation puts in place of `b`, when `b` has the negated literal. -/
def propagateInto (clauseVar : Word) (negatedHash : UInt64) (b : Clause Atomic Union) :
    Option (List (Clause Atomic Union)) :=
  match b.possibilities.get? clauseVar with
  | none => none
  | some matching =>
    if matching.containsKey negatedHash then
      some <| if matching.len == 1 then (b.removePossibilities S clauseVar).toList
        else [b.addPossibility S clauseVar (matching.filter fun e => e.1 != negatedHash)]
    else none

def propagateUnit (clauseVar : Word) (negatedHash : UInt64) (i : ℕ) :
    List (Clause Atomic Union × ℕ) → Progress Atomic Union → Progress Atomic Union
  | [], p => p
  | (b, j) :: rest, p =>
    propagateUnit clauseVar negatedHash i rest <|
      if i == j || p.isRemoved j || !b.eligible then p
      else match propagateInto S clauseVar negatedHash b with
        | none => p
        | some clauses => p.replace j clauses

def resolve (a : Clause Atomic Union) (i : ℕ) :
    List (Clause Atomic Union × ℕ) → Progress Atomic Union → Progress Atomic Union
  | [], p => p
  | (b, j) :: rest, p =>
    if p.isRemoved j then resolve a i rest p
    else match opposingKey a b with
      | some (some key) =>
        match a.removePossibilities S key with
        | some clause => resolve a i rest (p.replace i [clause])
        | none => p.replace i []
      | _ => resolve a i rest p

/-- The variable and the assertion of a clause that has one of each. -/
def simpleLiteral (c : Clause Atomic Union) : Option (Word × Assertion Atomic Union) :=
  match c.possibilities.entries with
  | [(v, as)] => match as.entries with
    | [(_, a)] => some (v, a)
    | _ => none
  | _ => none

def simplifyStep (unique : List (Clause Atomic Union)) (p : Progress Atomic Union)
    (a : Clause Atomic Union × ℕ) : Progress Atomic Union :=
  if !a.1.eligible then p
  else match simpleLiteral a.1 with
    | some (clauseVar, onlyType) =>
      let negatedHash := onlyType.negatedHash S
      -- without the negated literal anywhere there is nothing to scan for
      if (literalIndex unique).contains (clauseVar, negatedHash) then
        propagateUnit S clauseVar negatedHash a.2 unique.zipIdx p
      else p
    | none => resolve S a.1 a.2 (laterMatching S unique a.2 a.1) p

def simplify (unique : List (Clause Atomic Union)) : Progress Atomic Union :=
  unique.zipIdx.foldl (simplifyStep S unique) ⟨unique.map fun _ => false, []⟩

/-! ## Common consequences -/

/-- From a literal to the literals it implies. -/
abbrev Implications (Atomic Union : Type) :=
  OrderedMap (Word × UInt64) (OrderedMap (Word × UInt64) (Assertion Atomic Union))

def addImplication (implications : Implications Atomic Union)
    (premise conclusion : Word × Assertions Atomic Union) : Implications Atomic Union :=
  match premise.2.first, conclusion.2.first with
  | some (_, assertion), some (hash, consequence) =>
    let negated := assertion.getNegation
    if assertion.isNegationOf negated then
      let key := (premise.1, negated.toHash S)
      implications.insert key
        (((implications.get? key).getD .empty).insert (conclusion.1, hash) consequence)
    else implications
  | _, _ => implications

def collectImplications (implications : Implications Atomic Union) (clause : Clause Atomic Union) :
    Implications Atomic Union :=
  if !clause.eligible then implications
  else match clause.possibilities.entries with
    | [first, second] =>
      if first.2.len == 1 && second.2.len == 1 then
        addImplication S (addImplication S implications first second) second first
      else implications
    | _ => implications

/-- The key of a unit clause. -/
def unitKey (clause : Clause Atomic Union) : Option (Word × UInt64) :=
  match clause.possibilities.entries with
  | [(v, as)] => if as.len == 1 then as.first.map fun e => (v, e.1) else none
  | _ => none

def knownUnits (clauses : List (Clause Atomic Union)) : List (Word × UInt64) :=
  (clauses.filter Clause.eligible).filterMap unitKey

structure Inference (Atomic Union : Type) where
  known : List (Word × UInt64)
  inferred : List (Clause Atomic Union)

/-- Every assertion of the clause implies the candidate. -/
def commonConsequence (implications : Implications Atomic Union) (clause : Clause Atomic Union)
    (candidate : Word × UInt64) : Bool :=
  clause.possibilities.entries.all fun e => e.2.keys.all fun hash =>
    (implications.get? (e.1, hash)).any fun consequences => consequences.containsKey candidate

def inferCandidate (implications : Implications Atomic Union) (clause : Clause Atomic Union)
    (s : Inference Atomic Union) (candidate : (Word × UInt64) × Assertion Atomic Union) :
    Inference Atomic Union :=
  if s.known.contains candidate.1 || !commonConsequence implications clause candidate.1 then s
  else ⟨candidate.1 :: s.known, s.inferred ++ [Clause.new S
    (OrderedMap.ofList [(candidate.1.1, OrderedMap.ofList [(candidate.1.2, candidate.2)])])
    clause.conditionSpan clause.span (some false) (some true) (some clause.generated)]⟩

def inferFrom (implications : Implications Atomic Union) (s : Inference Atomic Union)
    (clause : Clause Atomic Union) : Inference Atomic Union :=
  if !clause.eligible then s
  else match clause.possibilities.first with
    | none => s
    | some (v, assertions) =>
      if clause.possibilities.len == 1 && assertions.len == 1 then s
      else match assertions.first with
        | none => s
        | some (hash, _) => match implications.get? (v, hash) with
          | none => s
          | some candidates => candidates.entries.foldl (inferCandidate S implications clause) s

def inferCommonConsequences (clauses : List (Clause Atomic Union)) :
    List (Clause Atomic Union) :=
  let implications := clauses.foldl (collectImplications S) .empty
  (clauses.foldl (inferFrom S implications) ⟨knownUnits clauses, []⟩).inferred

/-! ## Absorption -/

def addedClauses (consensusLimit : ℕ) (unique : List (Clause Atomic Union)) :
    List (Clause Atomic Union) :=
  (simplify S unique).added ++
    if unique.length > 2 && unique.length < consensusLimit && unique.any resolvable then
      inferCommonConsequences S unique
    else []

def keptClauses (unique : List (Clause Atomic Union)) : List (Clause Atomic Union) :=
  (unique.zipIdx.filter fun c => !(simplify S unique).isRemoved c.2).map Prod.fst

def combinedClauses (consensusLimit : ℕ) (unique : List (Clause Atomic Union)) :
    List (Clause Atomic Union) :=
  keptClauses S unique ++
    uniqueFrom ((keptClauses S unique).map Clause.hash) (addedClauses S consensusLimit unique)

def sizeOne (clauses : List (Clause Atomic Union)) : Bool :=
  clauses.all fun c => c.wedge || !c.reconcilable || c.possibilities.len == 1

def maskBit (v : Word) : UInt64 := 1 <<< (S.hashOne v % 64)

def variableMask (c : Clause Atomic Union) : UInt64 :=
  c.possibilities.keys.foldl (fun mask k => mask ||| maskBit S k) 0

/-- The clause `b` is strictly smaller than `a` and a part of it. -/
def absorbs (b a : Clause Atomic Union) : Bool :=
  b.eligible && !(decide (b.possibilities.len ≥ a.possibilities.len) ||
    variableMask S a &&& variableMask S b != variableMask S b) && a.contains b

def absorb (combined : List (Clause Atomic Union)) : List (Clause Atomic Union) :=
  if sizeOne combined then combined
  else (combined.zipIdx.filter fun (a, i) =>
    a.wedge || !combined.zipIdx.any fun (b, j) => i != j && absorbs S b a).map Prod.fst

/-! ## Consensus -/

def singletonMask (c : Clause Atomic Union) : UInt64 :=
  (c.possibilities.entries.filter fun e => e.2.len == 1).foldl
    (fun mask e => mask ||| maskBit S e.1) 0

/-- The variables on which the clauses hold one assertion each, and opposite ones. -/
def commonNegatedKeys (a b : Clause Atomic Union) : List Word :=
  (a.possibilities.entries.zipIdx.filter fun (e, i) =>
    e.2.len == 1 && (b.possibilities.getIndexOr i e.1).any (singletonNegation e.2)).map
      fun e => e.1.1

/-- Merge the assertions of `source` outside the variables `keys`. -/
def mergeExcept (keys : List Word) (target : Possibilities Atomic Union)
    (source : List (Word × Assertions Atomic Union)) : Possibilities Atomic Union :=
  source.foldl (fun p e => if keys.contains e.1 then p
    else p.insert e.1 (((p.get? e.1).getD .empty).extend e.2.entries)) target

def conflictClause (keys : List Word) (a b : Clause Atomic Union) : Clause Atomic Union :=
  .new S (mergeExcept keys (mergeExcept keys .empty a.possibilities.entries)
    b.possibilities.entries) a.conditionSpan a.span none none none

/-- The hash of the consensus of two clauses, when they have one. -/
def consensusHash (a b : Clause Atomic Union) : Option UInt32 :=
  if singletonMask S a &&& singletonMask S b == 0 then none
  else
    let keys := commonNegatedKeys a b
    if keys.isEmpty then none else some (conflictClause S keys a b).hash

def removedHashes : List (Clause Atomic Union) → List UInt32
  | [] => []
  | a :: rest => rest.filterMap (consensusHash S a) ++ removedHashes rest

def removeConsensus (consensusLimit : ℕ) (combined simplified : List (Clause Atomic Union)) :
    List (Clause Atomic Union) :=
  if !(sizeOne combined && sizeOne simplified) && simplified.length > 2 &&
      simplified.length < consensusLimit then
    simplified.filter fun f => !(removedHashes S simplified).contains f.hash
  else simplified

/-! ## The pass -/

/-- Two clauses, each of one variable, on different variables. -/
def independentPair : List (Clause Atomic Union) → Bool
  | [a, b] => a.possibilities.len == 1 && b.possibilities.len == 1 &&
      a.possibilities.first.map Prod.fst != b.possibilities.first.map Prod.fst
  | _ => false

def saturateInner (unique : List (Clause Atomic Union))
    (saturationComplexity consensusLimit : ℕ) : List (Clause Atomic Union) :=
  if unique.length = 0 ∨ unique.length > saturationComplexity then []
  else if unique.length = 1 then unique
  else if independentPair unique then unique
  else
    let combined := combinedClauses S consensusLimit unique
    removeConsensus S consensusLimit combined (absorb S combined)

def saturateClauses (thresholds : AlgebraThresholds) (clauses : List (Clause Atomic Union)) :
    List (Clause Atomic Union) :=
  saturateInner S (uniqueFrom [] clauses) thresholds.saturationComplexity.toNat
    thresholds.consensusLimit.toNat

end Mago.Algebra
