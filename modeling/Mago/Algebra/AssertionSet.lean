import Mago.Algebra.Clause
import Mathlib

/-!
# Negation of assertions and of sets of assertions

The ways to negate an assertion agree, but for a class of values that are not countable. A set
of assertions is a conjunction of disjunctions about one variable; its negation is built by
De Morgan's laws and distributed back into a conjunction.
-/
namespace Mago.Algebra
open Library

namespace Assertion

variable {Atomic Union : Type} {a b : Assertion Atomic Union}

/-- Negating twice forgets the flag of an assertion that says not countable. -/
theorem getNegation_getNegation_iff (h : a.getNegation ≠ any) :
    a.getNegation.getNegation = a ↔ a ≠ notCountable false := by
  cases a with
  | nonEmptyCountable negatable => cases negatable <;> simp_all [getNegation]
  | notCountable negatable => cases negatable <;> simp [getNegation]
  | _ => simp_all [getNegation]

theorem getNegation_any : (any : Assertion Atomic Union).getNegation = any := rfl

variable [DecidableEq Atomic] [DecidableEq Union]

/-- `isNegationOf` asks for the one assertion that `getNegation` builds. -/
theorem isNegationOf_iff :
    a.isNegationOf b = true ↔ b = a.getNegation ∧ a.getNegation ≠ any := by
  cases a with
  | nonEmptyCountable negatable => cases negatable <;> simp [isNegationOf, getNegation]
  | _ => simp [isNegationOf, getNegation]

/-- The four ways to negate an assertion fit together. -/
structure Coherent [TType Atomic] [TType Union] (S : FixedState)
    (a b : Assertion Atomic Union) : Prop where
  symm : a.isNegationOf b = true ↔ b.isNegationOf a = true
  negation : a.isNegationOf b = true ↔ b = a.getNegation ∧ a.getNegation ≠ any
  hash : ∀ c ∈ [a, b], c.negatedHash S = c.getNegation.toHash S
  involution : ∀ c ∈ [a, b], c.getNegation ≠ any → c.getNegation.getNegation = c

theorem isNegationOf_symm (ha : a ≠ notCountable false)
    (h : a.isNegationOf b = true) : b.isNegationOf a = true := by
  obtain ⟨heq, hany⟩ := isNegationOf_iff.mp h
  have htwice := (getNegation_getNegation_iff hany).mpr ha
  rw [isNegationOf_iff, heq, htwice]
  refine ⟨rfl, fun hany' => hany ?_⟩
  rw [hany', getNegation_any]

/-- Negation is coherent but for the assertion that says not countable and is flagged as not
negatable. -/
theorem coherent_iff [TType Atomic] [TType Union] (S : FixedState)
    (a b : Assertion Atomic Union) :
    Coherent S a b ↔ a ≠ notCountable false ∧ b ≠ notCountable false := by
  have hflag : (notCountable false : Assertion Atomic Union).getNegation ≠ any := by
    simp [getNegation]
  constructor
  · intro h
    constructor
    · intro ha
      subst ha
      exact (getNegation_getNegation_iff hflag).mp (h.involution _ (by simp) hflag) rfl
    · intro hb
      subst hb
      exact (getNegation_getNegation_iff hflag).mp (h.involution _ (by simp) hflag) rfl
  · intro h
    obtain ⟨ha, hb⟩ := h
    refine ⟨⟨isNegationOf_symm ha, isNegationOf_symm hb⟩, isNegationOf_iff,
      fun c _ => negatedHash_eq S c, fun c hc hany => ?_⟩
    rw [getNegation_getNegation_iff hany]
    rcases List.mem_pair.mp hc with rfl | rfl
    · exact ha
    · exact hb

/-- The flagged assertion is a negation of `countable`, which is none of it, and it is not what
negating twice gives back. -/
theorem notCountable_incoherent :
    (notCountable false : Assertion Word Word).isNegationOf countable = true ∧
      (countable : Assertion Word Word).isNegationOf (notCountable false) = false ∧
      (notCountable false : Assertion Word Word).getNegation.getNegation ≠ notCountable false := by
  decide

end Assertion

/-! ## Sets of assertions -/

abbrev AssertionSet (Atomic Union : Type) := List (List (Assertion Atomic Union))

variable {Atomic Union : Type}

/-- `(F) OR (A AND B)` becomes `(F OR A) AND (F OR B)`. -/
def distributeClause (cnf : AssertionSet Atomic Union) (andClause : List (Assertion Atomic Union)) :
    AssertionSet Atomic Union :=
  andClause.flatMap fun literal => cnf.map fun clause => clause ++ [literal]

/-- The negated clauses, each a conjunction. -/
def negatedClauses (set : AssertionSet Atomic Union) : AssertionSet Atomic Union :=
  ((set.filter fun orClause => orClause.all Assertion.isNegatable).map fun orClause =>
    orClause.map Assertion.getNegation).filter fun andClause => !andClause.isEmpty

def negateAssertionSet (set : AssertionSet Atomic Union) : AssertionSet Atomic Union :=
  match negatedClauses set with
  | [] => [[]]
  | andClause :: dnf => dnf.foldl distributeClause (andClause.map fun literal => [literal])

namespace AssertionSet

/-- The set holds of a variable. -/
def Holds (ν : Valuation Atomic Union) (v : Word) (set : AssertionSet Atomic Union) : Prop :=
  ∀ clause ∈ set, ∃ a ∈ clause, ν (v, a)

variable {ν : Valuation Atomic Union} {v : Word} {set dnf : AssertionSet Atomic Union}

theorem holds_units {andClause : List (Assertion Atomic Union)} :
    Holds ν v (andClause.map fun literal => [literal]) ↔ ∀ a ∈ andClause, ν (v, a) := by
  simp [Holds]

theorem holds_distributeClause {andClause : List (Assertion Atomic Union)} :
    Holds ν v (distributeClause set andClause) ↔ Holds ν v set ∨ ∀ a ∈ andClause, ν (v, a) := by
  have hclause : Holds ν v (distributeClause set andClause) ↔
      ∀ literal ∈ andClause, ∀ clause ∈ set, (∃ a ∈ clause, ν (v, a)) ∨ ν (v, literal) := by
    simp only [Holds, distributeClause, List.mem_flatMap, List.mem_map]
    constructor
    · intro h literal hliteral clause hclause
      obtain ⟨a, ha, hν⟩ := h (clause ++ [literal]) ⟨literal, hliteral, clause, hclause, rfl⟩
      rcases List.mem_append.mp ha with ha | ha
      · exact Or.inl ⟨a, ha, hν⟩
      · rw [List.mem_singleton.mp ha] at hν
        exact Or.inr hν
    · intro h clause' hclause'
      obtain ⟨literal, hliteral, clause, hclause, rfl⟩ := hclause'
      rcases h literal hliteral clause hclause with ⟨a, ha, hν⟩ | hν
      · exact ⟨a, List.mem_append_left _ ha, hν⟩
      · exact ⟨literal, by simp, hν⟩
  rw [hclause]
  constructor
  · intro h
    rw [or_iff_not_imp_right]
    intro hfalse clause hmem
    push Not at hfalse
    obtain ⟨literal, hliteral, hν⟩ := hfalse
    exact (h literal hliteral clause hmem).resolve_right hν
  · intro h literal hliteral clause hmem
    rcases h with h | h
    · exact Or.inl (h clause hmem)
    · exact Or.inr (h literal hliteral)

/-- The distributed formula is the disjunction of the conjunctions. -/
theorem holds_foldl_distributeClause :
    Holds ν v (dnf.foldl distributeClause set) ↔
      Holds ν v set ∨ ∃ andClause ∈ dnf, ∀ a ∈ andClause, ν (v, a) := by
  induction dnf generalizing set with
  | nil => simp
  | cons andClause dnf ih =>
    rw [List.foldl_cons, ih, holds_distributeClause, or_assoc]
    simp

theorem holds_negateAssertionSet :
    Holds ν v (negateAssertionSet set) ↔ ∃ andClause ∈ negatedClauses set,
      ∀ a ∈ andClause, ν (v, a) := by
  unfold negateAssertionSet
  split
  · rename_i hnone
    rw [hnone]
    simp [Holds]
  · rename_i andClause dnf hsome
    rw [hsome, holds_foldl_distributeClause, holds_units]
    simp

/-- The clauses whose assertions may all be negated. -/
def negatable (set : AssertionSet Atomic Union) : AssertionSet Atomic Union :=
  set.filter fun orClause => orClause.all Assertion.isNegatable

theorem mem_negatedClauses {andClause : List (Assertion Atomic Union)}
    (hne : ∀ clause ∈ set, clause ≠ []) : andClause ∈ negatedClauses set ↔
      ∃ clause ∈ negatable set, clause.map Assertion.getNegation = andClause := by
  have hmem : andClause ∈ negatedClauses set ↔
      (∃ clause ∈ negatable set, clause.map Assertion.getNegation = andClause) ∧
        (!andClause.isEmpty) = true := by
    rw [negatedClauses, List.mem_filter, List.mem_map]
    rfl
  rw [hmem]
  constructor
  · intro h
    exact h.1
  · intro h
    refine ⟨h, ?_⟩
    obtain ⟨clause, hclause, rfl⟩ := h
    have := hne clause (List.mem_of_mem_filter hclause)
    simpa using this

theorem not_holds_iff : ¬ Holds ν v set ↔ ∃ clause ∈ set, ∀ a ∈ clause, ¬ ν (v, a) := by
  simp [Holds]

variable [DecidableEq Atomic] [DecidableEq Union]

/-- The assertion has an exact negation. -/
def Exact (a : Assertion Atomic Union) : Prop := a.isNegationOf a.getNegation = true

theorem isNegatable_of_exact {a : Assertion Atomic Union} (h : Exact a) :
    a.isNegatable = true := by
  cases a <;> simp_all [Exact, Assertion.isNegationOf, Assertion.isNegatable]

/-- What falsifies a clause that may be negated satisfies the result. -/
theorem holds_negate_of_not_holds (hν : Lawful ν) (hne : ∀ clause ∈ set, clause ≠ [])
    (h : ¬ Holds ν v (negatable set)) : Holds ν v (negateAssertionSet set) := by
  rw [not_holds_iff] at h
  obtain ⟨clause, hclause, hfalse⟩ := h
  rw [holds_negateAssertionSet]
  refine ⟨_, (mem_negatedClauses hne).mpr ⟨clause, hclause, rfl⟩, fun a ha => ?_⟩
  obtain ⟨b, hb, rfl⟩ := List.mem_map.mp ha
  exact hν.getNegation (hfalse b hb)

theorem not_holds_of_holds_negate (hν : Lawful ν) (hne : ∀ clause ∈ set, clause ≠ [])
    (hexact : ∀ clause ∈ set, ∀ a ∈ clause, Exact a)
    (h : Holds ν v (negateAssertionSet set)) : ¬ Holds ν v set := by
  rw [holds_negateAssertionSet] at h
  obtain ⟨andClause, hmem, htrue⟩ := h
  obtain ⟨clause, hclause, rfl⟩ := (mem_negatedClauses hne).mp hmem
  have hset := List.mem_of_mem_filter hclause
  rw [not_holds_iff]
  refine ⟨clause, hset, fun a ha hνa => ?_⟩
  have hneg := htrue a.getNegation (List.mem_map_of_mem ha)
  exact (hν.opposing v a _ (hexact clause hset a ha)).mp hνa hneg

theorem negatable_of_exact (hexact : ∀ clause ∈ set, ∀ a ∈ clause, Exact a) :
    negatable set = set := by
  rw [negatable, List.filter_eq_self]
  intro clause hclause
  rw [List.all_eq_true]
  exact fun a ha => isNegatable_of_exact (hexact clause hclause a ha)

/-- The negation of a set without empty clauses: exact where all its assertions have exact
negations, and implied by the falsity of a clause that may be negated in any case. -/
theorem negateAssertionSet_deMorgan (hν : Lawful ν) (v : Word) (set : AssertionSet Atomic Union)
    (hne : ∀ clause ∈ set, clause ≠ []) :
    ((∀ clause ∈ set, ∀ a ∈ clause, Exact a) →
      (Holds ν v (negateAssertionSet set) ↔ ¬ Holds ν v set)) ∧
    (¬ Holds ν v (negatable set) → Holds ν v (negateAssertionSet set)) := by
  refine ⟨fun hexact => ⟨not_holds_of_holds_negate hν hne hexact, fun h => ?_⟩,
    holds_negate_of_not_holds hν hne⟩
  rw [← negatable_of_exact hexact] at h
  exact holds_negate_of_not_holds hν hne h

/-- A valuation with one true atom. -/
def onlyTruthy : Valuation Word Word :=
  ofAtoms litAtom litPositive fun l => l.2 = .truthy ∨ l.2 = .any

theorem lawful_onlyTruthy : Lawful onlyTruthy := lawful_ofAtoms fun _ => Or.inr rfl

theorem negateAssertionSet_deMorgan_truthy :
    Holds onlyTruthy (word "a") (negateAssertionSet [[.truthy, .isIsset], [.isNotIsset]]) ↔
      ¬ Holds onlyTruthy (word "a") [[.truthy, .isIsset], [.isNotIsset]] :=
  (negateAssertionSet_deMorgan lawful_onlyTruthy (word "a")
    [[.truthy, .isIsset], [.isNotIsset]] (by decide)).1 (by unfold Exact; decide)

/-- A clause derived from a bound is dropped, and so is the empty clause: sets that are false
have negations that are false. -/
theorem dropped_clauses_not_negated :
    (¬ Holds onlyTruthy [] [[.truthy], [.isLessThanFromBound 5]] ∧
      ¬ Holds onlyTruthy [] (negateAssertionSet [[.truthy], [.isLessThanFromBound 5]])) ∧
    ¬ Holds onlyTruthy [] [[]] ∧ ¬ Holds onlyTruthy [] (negateAssertionSet [[]]) := by
  have htruthy : onlyTruthy ([], .truthy) := by
    simp [onlyTruthy, ofAtoms, litAtom, litPositive, Assertion.base, Assertion.positive]
  have hbound : ¬ onlyTruthy ([], .isLessThanFromBound 5) := by
    simp [onlyTruthy, ofAtoms, litAtom, litPositive, Assertion.base, Assertion.positive]
  have hnegated : negateAssertionSet [[.truthy], [.isLessThanFromBound 5]] =
      ([[.falsy]] : AssertionSet Word Word) := rfl
  have hfalse : negateAssertionSet [[]] = ([[]] : AssertionSet Word Word) := rfl
  have hfalsy : ¬ onlyTruthy ([], .falsy) := (lawful_onlyTruthy.opposing [] _ _ rfl).mp htruthy
  rw [hnegated, hfalse]
  simp [Holds, hbound, hfalsy]

end AssertionSet

end Mago.Algebra
