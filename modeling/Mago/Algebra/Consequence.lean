import Mago.Algebra.SaturateSteps

/-!
# Common consequences

What `inferCommonConsequences` adds, and when: a literal that every literal of some clause
implies, going by the keys, through a clause of two literals.
-/
namespace Mago.Algebra
open Library

variable {Atomic Union : Type} [DecidableEq Atomic] [DecidableEq Union] [TType Atomic]
  [TType Union] {S : FixedState}

/-- A clause of two literals takes the literal `l`, the negation of the first, to the
second one. -/
def Implies (S : FixedState) (unique : List (Clause Atomic Union)) (l q : Word × UInt64) : Prop :=
  ∃ c ∈ unique, ∃ k a, Lit c.possibilities l.1 k a ∧ a.isNegationOf a.getNegation = true ∧
    l.2 = a.negatedHash S ∧ q ∈ keyed c.possibilities ∧
    keyed c.possibilities ⊆ insert (l.1, k) {q}

/-- Every recorded conclusion is a literal of the clauses that its premise implies. -/
def Recorded (S : FixedState) (unique : List (Clause Atomic Union))
    (implications : Implications Atomic Union) : Prop :=
  ∀ p cs, (p, cs) ∈ implications.entries → ∀ q a, (q, a) ∈ cs.entries →
    ClauseLit unique q.1 q.2 a ∧ Implies S unique p q

theorem addImplication_recorded {unique : List (Clause Atomic Union)}
    {implications : Implications Atomic Union} (h : Recorded S unique implications)
    {c : Clause Atomic Union} (hc : c ∈ unique)
    {premise conclusion : Word × Assertions Atomic Union}
    (hpremise : premise ∈ c.possibilities.entries)
    (hconclusion : conclusion ∈ c.possibilities.entries)
    (hentries : ∀ e ∈ c.possibilities.entries, e = premise ∨ e = conclusion)
    (hlen : premise.2.len = 1 ∧ conclusion.2.len = 1) :
    Recorded S unique (addImplication S implications premise conclusion) := by
  unfold addImplication
  split
  · rename_i k a l b ha hb
    have hma : (k, a) ∈ premise.2.entries := List.mem_of_head? ha
    have hmb : (l, b) ∈ conclusion.2.entries := List.mem_of_head? hb
    dsimp only
    split_ifs with hneg
    · have hlit : ClauseLit unique conclusion.1 l b :=
        clauseLit_iff.mpr ⟨c, hc, _, hconclusion, hmb⟩
      have hsub : keyed c.possibilities ⊆ insert (premise.1, k) {(conclusion.1, l)} := by
        rintro ⟨v, m⟩ ⟨x, as, has, hx⟩
        rcases hentries _ has with rfl | rfl
        · rw [OrderedMap.entries_of_len_eq_one hlen.1 hx] at hma
          exact .inl (by rw [(Prod.mk.inj (List.mem_singleton.mp hma)).1])
        · rw [OrderedMap.entries_of_len_eq_one hlen.2 hx] at hmb
          exact .inr (by rw [(Prod.mk.inj (List.mem_singleton.mp hmb)).1]; rfl)
      have himplies : Implies S unique (premise.1, a.getNegation.toHash S) (conclusion.1, l) :=
        ⟨c, hc, k, a, ⟨_, hpremise, hma⟩, hneg, (Assertion.negatedHash_eq S a).symm,
          ⟨b, _, hconclusion, hmb⟩, hsub⟩
      intro p cs hp q x hq
      rcases OrderedMap.mem_insert.mp hp with heq | ⟨hp, -⟩
      · obtain ⟨rfl, rfl⟩ := Prod.mk.inj heq
        rcases OrderedMap.mem_insert.mp hq with heq | ⟨hq, -⟩
        · obtain ⟨rfl, rfl⟩ := Prod.mk.inj heq
          exact ⟨hlit, himplies⟩
        · cases hget : implications.get? (premise.1, a.getNegation.toHash S) with
          | none => simp [hget] at hq
          | some old =>
            rw [hget] at hq
            exact h _ old (OrderedMap.get?_eq_some_iff.mp hget) q x hq
      · exact h p cs hp q x hq
    · exact h
  · exact h

theorem collectImplications_recorded {unique : List (Clause Atomic Union)}
    {implications : Implications Atomic Union} (h : Recorded S unique implications)
    {c : Clause Atomic Union} (hc : c ∈ unique) :
    Recorded S unique (collectImplications S implications c) := by
  unfold collectImplications
  split_ifs
  · exact h
  split
  · rename_i first second hentries
    split_ifs with hlen
    · simp only [Bool.and_eq_true, beq_iff_eq] at hlen
      have hfirst : first ∈ c.possibilities.entries := by simp [hentries]
      have hsecond : second ∈ c.possibilities.entries := by simp [hentries]
      have hall : ∀ e ∈ c.possibilities.entries, e = first ∨ e = second := by simp [hentries]
      exact addImplication_recorded
        (addImplication_recorded h hc hfirst hsecond hall hlen) hc hsecond hfirst
        (fun e he => (hall e he).symm) hlen.symm
    · exact h
  · exact h

theorem collect_recorded {unique cs : List (Clause Atomic Union)} (hcs : ∀ c ∈ cs, c ∈ unique)
    {implications : Implications Atomic Union} (h : Recorded S unique implications) :
    Recorded S unique (cs.foldl (collectImplications S) implications) := by
  induction cs generalizing implications with
  | nil => exact h
  | cons c cs ih =>
    exact ih (fun d hd => hcs d (List.mem_cons_of_mem _ hd))
      (collectImplications_recorded h (hcs c List.mem_cons_self))

/-! ## Inferences -/

def implicationsOf (S : FixedState) (unique : List (Clause Atomic Union)) :
    Implications Atomic Union := unique.foldl (collectImplications S) .empty

theorem implicationsOf_recorded {unique : List (Clause Atomic Union)} :
    Recorded S unique (implicationsOf S unique) :=
  collect_recorded (fun _ hc => hc) fun p cs hp => by cases hp

theorem implies_of_commonConsequence {unique : List (Clause Atomic Union)}
    {implications : Implications Atomic Union} (h : Recorded S unique implications)
    {c : Clause Atomic Union} {candidate : Word × UInt64}
    (hcommon : commonConsequence implications c candidate = true) :
    ∀ l ∈ keyed c.possibilities, Implies S unique l candidate := by
  rintro ⟨v, k⟩ hl
  obtain ⟨m, hm, hk⟩ := mem_keyed.mp hl
  have hkey := List.all_eq_true.mp (List.all_eq_true.mp hcommon _ hm) k hk
  obtain ⟨cs, hcs, hcand⟩ := (Option.any_eq_true _ _).mp hkey
  obtain ⟨a, ha⟩ := OrderedMap.mem_keys.mp (OrderedMap.containsKey_iff.mp hcand)
  exact (h _ cs (OrderedMap.get?_eq_some_iff.mp hcs) _ a ha).2

/-- The conclusions of the first literal of a clause that is no unit. -/
def candidates (implications : Implications Atomic Union) (clause : Clause Atomic Union) :
    List ((Word × UInt64) × Assertion Atomic Union) :=
  if !clause.eligible then []
  else match clause.possibilities.first with
    | none => []
    | some (v, assertions) =>
      if clause.possibilities.len == 1 && assertions.len == 1 then []
      else match assertions.first with
        | none => []
        | some (hash, _) => ((implications.get? (v, hash)).getD .empty).entries

omit [DecidableEq Atomic] [DecidableEq Union] [TType Atomic] [TType Union] in
theorem inferFrom_eq {implications : Implications Atomic Union} {s : Inference Atomic Union}
    {clause : Clause Atomic Union} : inferFrom S implications s clause =
      (candidates implications clause).foldl (inferCandidate S implications clause) s := by
  unfold inferFrom candidates
  split_ifs
  · rfl
  cases clause.possibilities.first with
  | none => rfl
  | some e =>
    obtain ⟨v, assertions⟩ := e
    dsimp only
    split_ifs
    · rfl
    cases assertions.first with
    | none => rfl
    | some e =>
      dsimp only
      cases implications.get? (v, e.1) <;> rfl

theorem recorded_of_candidates {unique : List (Clause Atomic Union)}
    {implications : Implications Atomic Union} (h : Recorded S unique implications)
    {c : Clause Atomic Union} {q : (Word × UInt64) × Assertion Atomic Union}
    (hq : q ∈ candidates implications c) : ClauseLit unique q.1.1 q.1.2 q.2 := by
  unfold candidates at hq
  split_ifs at hq
  · cases hq
  cases hfirst : c.possibilities.first with
  | none => simp [hfirst] at hq
  | some e =>
    simp only [hfirst] at hq
    split_ifs at hq
    · cases hq
    cases hhash : e.2.first with
    | none => simp [hhash] at hq
    | some l =>
      simp only [hhash] at hq
      cases hget : implications.get? (e.1, l.1) with
      | none => simp [hget] at hq
      | some conclusions =>
        rw [hget] at hq
        exact (h _ conclusions (OrderedMap.get?_eq_some_iff.mp hget) q.1 q.2 hq).1

/-- The inference when it comes to position `i`. -/
def inferenceAt (S : FixedState) (unique : List (Clause Atomic Union)) (i : ℕ) :
    Inference Atomic Union :=
  (unique.take i).foldl (inferFrom S (implicationsOf S unique)) ⟨knownUnits unique, []⟩

/-- The clause `c` yields the literal `q`, which is not known when the inference comes to `c`. -/
structure Infers (S : FixedState) (unique : List (Clause Atomic Union))
    (c : Clause Atomic Union × ℕ) (q : (Word × UInt64) × Assertion Atomic Union) : Prop where
  unknown : (inferenceAt S unique c.2).known.contains q.1 = false
  common : commonConsequence (implicationsOf S unique) c.1 q.1 = true

instance (unique : List (Clause Atomic Union)) (c : Clause Atomic Union × ℕ)
    (q : (Word × UInt64) × Assertion Atomic Union) : Decidable (Infers S unique c q) :=
  decidable_of_iff (_ ∧ _) ⟨fun h => ⟨h.1, h.2⟩, fun h => ⟨h.1, h.2⟩⟩

/-- The list is small enough for inference, and some clause can be resolved. -/
def infersAny (consensusLimit : ℕ) (unique : List (Clause Atomic Union)) : Bool :=
  unique.length > 2 && unique.length < consensusLimit && unique.any resolvable

/-! ## Derived clauses -/

/-- What the pass over `unique` adds. -/
inductive Derived (S : FixedState) (limit : ℕ) (unique : List (Clause Atomic Union)) :
    Clause Atomic Union → Prop
  | rewrite {j : ℕ} {ds : List (Clause Atomic Union)} {d : Clause Atomic Union}
      (step : Rewrite S unique j ds) (mem : d ∈ ds) : Derived S limit unique d
  | inferred {c : Clause Atomic Union × ℕ} {q : (Word × UInt64) × Assertion Atomic Union}
      {d : Clause Atomic Union} (enabled : infersAny limit unique = true)
      (mem : c ∈ unique.zipIdx) (candidate : q ∈ candidates (implicationsOf S unique) c.1)
      (infers : Infers S unique c q)
      (eq : d.possibilities = OrderedMap.ofList [(q.1.1, OrderedMap.ofList [(q.1.2, q.2)])]) :
      Derived S limit unique d

/-- A clause infers only what was unknown when the inference came to it. -/
theorem inferCandidates_derived {limit : ℕ} {unique : List (Clause Atomic Union)}
    (henabled : infersAny limit unique = true) {c : Clause Atomic Union × ℕ}
    (hc : c ∈ unique.zipIdx) {qs : List ((Word × UInt64) × Assertion Atomic Union)}
    (hqs : ∀ q ∈ qs, q ∈ candidates (implicationsOf S unique) c.1)
    {s : Inference Atomic Union} (hknown : (inferenceAt S unique c.2).known ⊆ s.known)
    (hs : ∀ d ∈ s.inferred, Derived S limit unique d) :
    ∀ d ∈ (qs.foldl (inferCandidate S (implicationsOf S unique) c.1) s).inferred,
      Derived S limit unique d := by
  induction qs generalizing s with
  | nil => exact hs
  | cons q qs ih =>
    refine ih (fun q' hq' => hqs q' (List.mem_cons_of_mem _ hq')) ?_ ?_
    · unfold inferCandidate
      split_ifs
      · exact hknown
      · exact List.subset_cons_of_subset _ hknown
    · unfold inferCandidate
      split_ifs with hskip
      · exact hs
      · simp only [Bool.or_eq_true, Bool.not_eq_true', not_or, Bool.not_eq_false,
          List.contains_iff_mem] at hskip
        have hunknown : (inferenceAt S unique c.2).known.contains q.1 = false := by
          simpa using fun hmem => hskip.1 (hknown hmem)
        intro d hd
        rcases List.mem_append.mp hd with hd | hd
        · exact hs d hd
        · refine .inferred henabled hc (hqs q List.mem_cons_self) ⟨hunknown, hskip.2⟩ ?_
          rw [List.mem_singleton.mp hd, possibilities_new]

theorem inferCommonConsequences_derived {limit : ℕ} {unique : List (Clause Atomic Union)}
    (henabled : infersAny limit unique = true) :
    ∀ d ∈ inferCommonConsequences S unique, Derived S limit unique d := by
  refine foldl_take_induction (f := inferFrom S (implicationsOf S unique))
    (P := fun s => ∀ d ∈ s.inferred, Derived S limit unique d) (fun d hd => by cases hd) ?_
  intro i c hget hs
  rw [inferFrom_eq]
  exact inferCandidates_derived (c := (c, i)) henabled (List.mem_zipIdx_iff_getElem?.mpr hget)
    (fun _ hq => hq) (List.Subset.refl _) hs

theorem derived_of_mem_addedClauses {limit : ℕ} {unique : List (Clause Atomic Union)}
    {d : Clause Atomic Union} (hd : d ∈ addedClauses S limit unique) :
    Derived S limit unique d := by
  have hsimplify : ∀ d ∈ (simplify S unique).added, Derived S limit unique d := by
    refine simplify_induction (P := fun p => ∀ d ∈ p.added, Derived S limit unique d)
      (fun d hd => by cases hd) ?_
    intro p j ds hp hrewrite d hd
    rcases List.mem_append.mp hd with hd | hd
    · exact hp d hd
    · exact .rewrite hrewrite hd
  rcases List.mem_append.mp hd with hd | hd
  · exact hsimplify d hd
  · split_ifs at hd with henabled
    · exact inferCommonConsequences_derived henabled d hd
    · cases hd

end Mago.Algebra
