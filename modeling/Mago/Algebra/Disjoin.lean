import Mago.Algebra.Saturate

/-!
# Disjunction of two formulas

`disjoinClauses` merges every clause of one side with every clause of the other and drops
the tautologies. That is the disjunction of the formulas, except where one side is empty (the
empty formula is true, and the other side is returned as it stands) and where an assertion of
the right side displaces a different one of the left side under its key.
-/
namespace Mago.Algebra
open Library

variable {Atomic Union : Type}

/-- Add the assertions of one variable, to those that are there already. -/
def mergeEntry (p : Possibilities Atomic Union) (e : Word × Assertions Atomic Union) :
    Possibilities Atomic Union :=
  match p.get? e.1 with
  | some existing => p.insert e.1 (existing.extend e.2.entries)
  | none => p.insert e.1 e.2

def mergePossibilities (left right : Possibilities Atomic Union) : Possibilities Atomic Union :=
  right.entries.foldl mergeEntry left

/-! ## Merging -/

theorem lit_mergeEntry {p : Possibilities Atomic Union} {e : Word × Assertions Atomic Union}
    {v : Word} {k : UInt64} {a : Assertion Atomic Union} : Lit (mergeEntry p e) v k a ↔
      (v = e.1 ∧ (k, a) ∈ e.2.entries) ∨ Lit p v k a ∧ ¬ (v = e.1 ∧ k ∈ e.2.keys) := by
  unfold mergeEntry
  by_cases hv : v = e.1
  swap
  · cases p.get? e.1 <;> simp [lit_insert, hv]
  subst hv
  cases hget : p.get? e.1 with
  | none =>
    have hno : ¬ Lit p e.1 k a := by
      rintro ⟨m, hm, -⟩
      exact OrderedMap.get?_eq_none_iff.mp hget (OrderedMap.mem_keys.mpr ⟨m, hm⟩)
    simp [lit_insert, hno]
  | some m =>
    simp [lit_insert, OrderedMap.mem_extend e.2.nodup, lit_of_get? hget, OrderedMap.keys]

/-- A merged clause has the literals of the right one, and of the left one those under other
keys. -/
theorem lit_mergePossibilities {p q : Possibilities Atomic Union} {v : Word} {k : UInt64}
    {a : Assertion Atomic Union} : Lit (mergePossibilities p q) v k a ↔
      Lit q v k a ∨ Lit p v k a ∧ (v, k) ∉ keyed q := by
  have hall : ∀ (es : List (Word × Assertions Atomic Union)), (es.map Prod.fst).Nodup →
      ∀ p : Possibilities Atomic Union, Lit (es.foldl mergeEntry p) v k a ↔
      (∃ m, (v, m) ∈ es ∧ (k, a) ∈ m.entries) ∨
        Lit p v k a ∧ ¬ ∃ m, (v, m) ∈ es ∧ k ∈ m.keys := by
    intro es
    induction es with
    | nil => simp
    | cons e es ih =>
      intro hes p
      obtain ⟨he, hes⟩ := List.nodup_cons.mp hes
      rw [List.foldl_cons, ih hes, lit_mergeEntry]
      by_cases hv : v = e.1
      · subst hv
        have hno : ∀ m, (e.1, m) ∉ es := fun m hm => he (List.mem_map.mpr ⟨_, hm, rfl⟩)
        have hhead : ∀ m, (e.1, m) = e ↔ m = e.2 := fun m => by simp [Prod.ext_iff]
        simp [hno, hhead]
      · have hhead : ∀ m, (v, m) ≠ e := fun m heq => hv (congrArg Prod.fst heq)
        simp [hv, hhead]
  rw [mergePossibilities, hall _ q.nodup, mem_keyed]
  rfl

variable [DecidableEq Atomic] [DecidableEq Union]

/-! ## Disjunction -/

/-- Some assertion negates a later one. -/
def hasNegatedPair : List (Assertion Atomic Union) → Bool
  | [] => false
  | v :: vs => vs.any (fun w => v.isNegationOf w) || hasNegatedPair vs

def isTautology (possibilities : Possibilities Atomic Union) : Bool :=
  possibilities.values.any fun varPossibilities =>
    varPossibilities.len > 1 && hasNegatedPair varPossibilities.values

/-- The clause of a pair, none when it is skipped. -/
def disjoinPair (S : FixedState) (conditionalObjectId : Span)
    (left right : Clause Atomic Union) : Option (Clause Atomic Union) :=
  if left.wedge && right.wedge then none
  else if left.wedge then some right
  else if right.wedge then some left
  else
    let possibilities := mergePossibilities left.possibilities right.possibilities
    if isTautology possibilities then none
    else some (.new S possibilities conditionalObjectId conditionalObjectId (some false)
      (some (left.reconcilable && right.reconcilable)) (some true))

def disjoinClauses (S : FixedState) (thresholds : AlgebraThresholds) (conditionalObjectId : Span)
    (leftClauses rightClauses : List (Clause Atomic Union)) : List (Clause Atomic Union) :=
  if leftClauses.length = 0 then rightClauses
  else if rightClauses.length = 0 then leftClauses
  else if leftClauses.length > thresholds.disjunctionComplexity.toNat ∨
      rightClauses.length > thresholds.disjunctionComplexity.toNat then []
  else leftClauses.flatMap fun left =>
    rightClauses.filterMap (disjoinPair S conditionalObjectId left)

/-! ## Tautologies -/

theorem exists_of_hasNegatedPair {vs : List (Assertion Atomic Union)}
    (h : hasNegatedPair vs = true) : ∃ v ∈ vs, ∃ w ∈ vs, v.isNegationOf w = true := by
  induction vs with
  | nil => cases h
  | cons v vs ih =>
    rcases Bool.or_eq_true _ _ |>.mp h with h | h
    · obtain ⟨w, hw, hvw⟩ := List.any_eq_true.mp h
      exact ⟨v, List.mem_cons_self, w, List.mem_cons_of_mem _ hw, hvw⟩
    · obtain ⟨v', hv', w, hw, hvw⟩ := ih h
      exact ⟨v', List.mem_cons_of_mem _ hv', w, List.mem_cons_of_mem _ hw, hvw⟩

/-- A dropped clause is true. -/
theorem sat_of_isTautology {p : Possibilities Atomic Union} {ν : Valuation Atomic Union}
    (hν : Opposing ν) (h : isTautology p = true) : Sat ν (literals p) := by
  obtain ⟨m, hm, h⟩ := List.any_eq_true.mp h
  obtain ⟨v, hv⟩ := OrderedMap.mem_values.mp hm
  simp only [Bool.and_eq_true] at h
  obtain ⟨a, ha, b, hb, hab⟩ := exists_of_hasNegatedPair h.2
  obtain ⟨k, hk⟩ := OrderedMap.mem_values.mp ha
  obtain ⟨l, hl⟩ := OrderedMap.mem_values.mp hb
  have htaut : Tautological litAtom litPositive (literals p) :=
    ⟨(v, a), ⟨k, m, hv, hk⟩, (v, b), ⟨l, m, hv, hl⟩,
      complementary_iff.mpr ⟨rfl, Assertion.opposite_of_isNegationOf hab⟩⟩
  exact htaut.sat hν.complementary

/-! ## Displaced assertions -/

/-- The literals of `r`, and of `l` those under keys that `r` does not hold. -/
def merged (l r : Clause Atomic Union) : List (Word × UInt64 × Assertion Atomic Union) :=
  clauseLits [r] ++ (clauseLits [l]).filter fun x => !hasKey r.possibilities x.1 x.2.1

/-- Merging `r` into `l` gives a clause with two opposite assertions of a variable, or one
that keeps all assertions of `l`. -/
def MergesFully (l r : Clause Atomic Union) : Prop :=
  (∃ x ∈ merged l r, ∃ y ∈ merged l r, x.1 = y.1 ∧ x.2.2.Opposite y.2.2) ∨
    ∀ x ∈ clauseLits [l], ∃ y ∈ merged l r, y.1 = x.1 ∧ y.2.2.Agree x.2.2

instance (l r : Clause Atomic Union) : Decidable (MergesFully l r) :=
  inferInstanceAs (Decidable (_ ∨ _))

omit [DecidableEq Atomic] [DecidableEq Union] in
theorem mem_merged {l r : Clause Atomic Union} {v : Word} {k : UInt64}
    {a : Assertion Atomic Union} : (v, k, a) ∈ merged l r ↔
      Lit (mergePossibilities l.possibilities r.possibilities) v k a := by
  simp only [merged, List.mem_append, List.mem_filter, mem_clauseLits_singleton,
    lit_mergePossibilities, Bool.not_eq_true', ← Bool.not_eq_true, hasKey_iff]

omit [DecidableEq Atomic] [DecidableEq Union] in
theorem mergesFully_iff {l r : Clause Atomic Union} : MergesFully l r ↔
    Tautological litAtom litPositive
      (literals (mergePossibilities l.possibilities r.possibilities)) ∨
    ∀ x ∈ literals l.possibilities, ∃ y ∈ literals (mergePossibilities l.possibilities
      r.possibilities), litAtom y = litAtom x ∧ litPositive y = litPositive x := by
  unfold MergesFully Tautological
  apply or_congr
  · constructor
    · rintro ⟨⟨v, k, a⟩, hx, ⟨w, m, b⟩, hy, rfl, hopp⟩
      exact ⟨(v, a), ⟨k, mem_merged.mp hx⟩, (v, b), ⟨m, mem_merged.mp hy⟩,
        complementary_iff.mpr ⟨rfl, hopp⟩⟩
    · rintro ⟨⟨v, a⟩, ⟨k, hx⟩, ⟨w, b⟩, ⟨m, hy⟩, hcomp⟩
      obtain ⟨rfl, hopp⟩ := complementary_iff.mp hcomp
      exact ⟨(v, k, a), mem_merged.mpr hx, (v, m, b), mem_merged.mpr hy, rfl, hopp⟩
  · constructor
    · rintro h ⟨v, a⟩ ⟨k, hx⟩
      obtain ⟨⟨w, m, b⟩, hy, rfl, hagree⟩ := h (v, k, a) (mem_clauseLits_singleton.mpr hx)
      exact ⟨(w, b), ⟨m, mem_merged.mp hy⟩, Prod.ext rfl hagree.1, hagree.2⟩
    · rintro h ⟨v, k, a⟩ hx
      obtain ⟨⟨w, b⟩, ⟨m, hy⟩, hatom, hpos⟩ := h (v, a) ⟨k, mem_clauseLits_singleton.mp hx⟩
      obtain ⟨rfl, hbase⟩ := Prod.mk.inj hatom
      exact ⟨(w, m, b), mem_merged.mpr hy, rfl, hbase, hpos⟩

/-! ## The product -/

/-- The clause of a pair, or its absence, means what the merged clause means. -/
theorem disjoinPair_holds {S : FixedState} {objectId : Span} {ν : Valuation Atomic Union}
    (hν : Opposing ν) {l r : Clause Atomic Union} (hlw : l.wedge = false)
    (hrw : r.wedge = false) : (∀ c ∈ disjoinPair S objectId l r, Holds ν c) ↔
      Sat ν (literals (mergePossibilities l.possibilities r.possibilities)) := by
  unfold disjoinPair
  simp only [hlw, hrw, Bool.and_self, Bool.false_eq_true, if_false]
  split_ifs with htaut
  · simpa using sat_of_isTautology hν htaut
  · simp [Holds]

theorem MergesFully.sat_iff {ν : Valuation Atomic Union} (hν : Opposing ν)
    {l r : Clause Atomic Union} (h : MergesFully l r) :
    Sat ν (literals (mergePossibilities l.possibilities r.possibilities)) ↔
      Holds ν l ∨ Holds ν r := by
  constructor
  · rintro ⟨⟨v, a⟩, ⟨k, hl⟩, hνa⟩
    rcases lit_mergePossibilities.mp hl with hl | ⟨hl, -⟩
    · exact .inr ⟨(v, a), ⟨k, hl⟩, hνa⟩
    · exact .inl ⟨(v, a), ⟨k, hl⟩, hνa⟩
  · rintro (⟨⟨v, a⟩, hl, hνa⟩ | ⟨⟨v, a⟩, ⟨k, hl⟩, hνa⟩)
    · rcases mergesFully_iff.mp h with htaut | hkeeps
      · exact htaut.sat hν.complementary
      · obtain ⟨⟨w, b⟩, hy, hatom, hpos⟩ := hkeeps (v, a) hl
        obtain ⟨rfl, hbase⟩ := Prod.mk.inj hatom
        exact ⟨(w, b), hy, (hν.iff_of_agree ⟨hbase, hpos⟩).mpr hνa⟩
    · exact ⟨(v, a), ⟨k, lit_mergePossibilities.mpr (.inl hl)⟩, hνa⟩

/-- Where a pair loses an assertion, some assignment tells the clauses apart. -/
theorem exists_of_not_mergesFully {l r : Clause Atomic Union} (h : ¬ MergesFully l r) :
    ∃ ν : Valuation Atomic Union, Opposing ν ∧ Holds ν l ∧
      ¬ Sat ν (literals (mergePossibilities l.possibilities r.possibilities)) := by
  rw [mergesFully_iff, not_or] at h
  obtain ⟨htaut, hlost⟩ := h
  push Not at hlost
  obtain ⟨x, hx, hno⟩ := hlost
  obtain ⟨P, hP, hνx⟩ := exists_not_sat_of htaut hno
  exact ⟨_, opposing_ofAtoms P, ⟨x, hx, hνx⟩, hP⟩

/-- All assignments satisfy exactly the clauses with two opposite assertions of a variable. -/
theorem forall_holds_iff {c : Clause Atomic Union} :
    (∀ ν : Valuation Atomic Union, Opposing ν → Holds ν c) ↔
      Tautological litAtom litPositive (literals c.possibilities) := by
  constructor
  · intro h
    by_contra htaut
    obtain ⟨P, hP⟩ := exists_not_sat htaut
    exact hP (h _ (opposing_ofAtoms P))
  · exact fun h ν hν => h.sat hν.complementary

/-- The clauses mean the disjunction of two formulas. -/
def IsDisjunction (clauses L R : List (Clause Atomic Union)) : Prop :=
  ∀ ν, Opposing ν → ((∀ c ∈ clauses, Holds ν c) ↔ (∀ c ∈ L, Holds ν c) ∨ ∀ c ∈ R, Holds ν c)

/-- A side that stands beside an empty one is true everywhere, and no pair of clauses loses an
assertion. -/
structure DisjoinsFully (L R : List (Clause Atomic Union)) : Prop where
  right : L = [] → ∀ r ∈ R, Tautological litAtom litPositive (literals r.possibilities)
  left : R = [] → ∀ l ∈ L, Tautological litAtom litPositive (literals l.possibilities)
  merges : ∀ l ∈ L, ∀ r ∈ R, MergesFully l r

/-- Beside no empty side, the result means what the merged clauses of all pairs mean. -/
theorem holds_disjoinClauses_iff {S : FixedState} {thresholds : AlgebraThresholds}
    {objectId : Span} {L R : List (Clause Atomic Union)} (hwedge : ∀ c ∈ L ++ R, c.wedge = false)
    (hL : L.length ≤ thresholds.disjunctionComplexity.toNat)
    (hR : R.length ≤ thresholds.disjunctionComplexity.toNat) (hLne : L ≠ []) (hRne : R ≠ [])
    {ν : Valuation Atomic Union} (hν : Opposing ν) :
    (∀ c ∈ disjoinClauses S thresholds objectId L R, Holds ν c) ↔ ∀ l ∈ L, ∀ r ∈ R,
      Sat ν (literals (mergePossibilities l.possibilities r.possibilities)) := by
  have hpair : ∀ l ∈ L, ∀ r ∈ R, ((∀ c ∈ disjoinPair S objectId l r, Holds ν c) ↔
      Sat ν (literals (mergePossibilities l.possibilities r.possibilities))) :=
    fun l hl r hr => disjoinPair_holds hν (hwedge l (List.mem_append_left _ hl))
      (hwedge r (List.mem_append_right _ hr))
  unfold disjoinClauses
  rw [if_neg (by simpa using hLne), if_neg (by simpa using hRne), if_neg (by omega)]
  simp only [List.mem_flatMap, List.mem_filterMap]
  constructor
  · exact fun h l hl r hr => (hpair l hl r hr).mp fun c hc => h c ⟨l, hl, r, hr, hc⟩
  · rintro h c ⟨l, hl, r, hr, hc⟩
    exact (hpair l hl r hr).mpr (h l hl r hr) c hc

/-- `disjoinClauses` is the disjunction of two formulas unless one of them is empty and the
other one is not true everywhere, or a pair of clauses loses an assertion. With at most one
clause on the left, or none on the right, it is so in no other case. -/
theorem disjoinClauses_iff {S : FixedState} {thresholds : AlgebraThresholds} {objectId : Span}
    {L R : List (Clause Atomic Union)} (hwedge : ∀ c ∈ L ++ R, c.wedge = false)
    (hL : L.length ≤ thresholds.disjunctionComplexity.toNat)
    (hR : R.length ≤ thresholds.disjunctionComplexity.toNat) :
    (DisjoinsFully L R → IsDisjunction (disjoinClauses S thresholds objectId L R) L R) ∧
    (L.length ≤ 1 ∨ R = [] →
      IsDisjunction (disjoinClauses S thresholds objectId L R) L R → DisjoinsFully L R) := by
  by_cases hLnil : L = []
  · -- the empty formula is true, the result is the other side
    subst hLnil
    have hright : IsDisjunction (disjoinClauses S thresholds objectId [] R) [] R ↔
        ∀ r ∈ R, Tautological litAtom litPositive (literals r.possibilities) := by
      simp only [IsDisjunction, disjoinClauses, List.length_nil, if_true, List.not_mem_nil,
        false_imp_iff, implies_true, true_or, iff_true, ← forall_holds_iff]
      exact ⟨fun h r hr ν hν => h ν hν r hr, fun h ν hν r hr => h r hr ν hν⟩
    exact ⟨fun h => hright.mpr (h.right rfl),
      fun _ h => ⟨fun _ => hright.mp h, by simp, by simp⟩⟩
  by_cases hRnil : R = []
  · subst hRnil
    have hleft : IsDisjunction (disjoinClauses S thresholds objectId L []) L [] ↔
        ∀ l ∈ L, Tautological litAtom litPositive (literals l.possibilities) := by
      simp only [IsDisjunction, disjoinClauses, List.length_eq_zero_iff, hLnil, if_false,
        if_true, List.not_mem_nil, false_imp_iff, implies_true, or_true, iff_true,
        ← forall_holds_iff]
      exact ⟨fun h l hl ν hν => h ν hν l hl, fun h ν hν l hl => h l hl ν hν⟩
    exact ⟨fun h => hleft.mpr (h.left rfl),
      fun _ h => ⟨fun hc => absurd hc hLnil, fun _ => hleft.mp h, by simp⟩⟩
  constructor
  · intro h ν hν
    rw [holds_disjoinClauses_iff hwedge hL hR hLnil hRnil hν, ← forall_or_forall]
    exact forall₂_congr fun l hl => forall₂_congr fun r hr => (h.merges l hl r hr).sat_iff hν
  · intro hone h
    refine ⟨fun hc => absurd hc hLnil, fun hc => absurd hc hRnil, fun l hl r hr => ?_⟩
    by_contra hlost
    obtain ⟨ν, hν, hνl, hnot⟩ := exists_of_not_mergesFully hlost
    -- `l` is all of the left side, so the output has to hold
    have hall : ∀ c ∈ L, Holds ν c := by
      obtain ⟨c, rfl⟩ := List.length_eq_one_iff.mp (le_antisymm (hone.resolve_right hRnil)
        (List.length_pos_iff.mpr hLnil))
      intro d hd
      rwa [List.mem_singleton.mp hd, ← List.mem_singleton.mp hl]
    exact hnot ((holds_disjoinClauses_iff hwedge hL hR hLnil hRnil hν).mp
      ((h ν hν).mpr (.inl hall)) l hl r hr)

/-- The first pair of clauses is a tautology, and the clauses of the second one share `$y`. -/
theorem disjoinClauses_iff_shared :
    (disjoinClauses byteHash .default ⟨0, 1⟩ [truthClause byteHash [("$x", true), ("$y", true)]]
      [truthClause byteHash [("$x", false), ("$z", true)],
        truthClause byteHash [("$y", true)]]).length = 1 ∧
    IsDisjunction (disjoinClauses byteHash .default ⟨0, 1⟩
        [truthClause byteHash [("$x", true), ("$y", true)]]
        [truthClause byteHash [("$x", false), ("$z", true)], truthClause byteHash [("$y", true)]])
      [truthClause byteHash [("$x", true), ("$y", true)]]
      [truthClause byteHash [("$x", false), ("$z", true)], truthClause byteHash [("$y", true)]] :=
  ⟨by decide +kernel, (disjoinClauses_iff (by decide +kernel) (by decide +kernel)
    (by decide +kernel)).1 ⟨by simp, by simp, by decide +kernel⟩⟩

/-- A true left side leaves the right side standing. -/
theorem empty_side_returns_other :
    ¬ ∀ ν : Valuation Word Word, Opposing ν →
      ((∀ c ∈ disjoinClauses byteHash .default ⟨0, 1⟩ []
        [truthClause byteHash [("$x", true)]], Holds ν c) ↔
      (∀ c ∈ ([] : List (Clause Word Word)), Holds ν c) ∨
        ∀ c ∈ [truthClause byteHash [("$x", true)]], Holds ν c) := by
  intro h
  have hν := h (ofAtoms litAtom litPositive fun _ => False) (opposing_ofAtoms _)
  revert hν
  decide +kernel

end Mago.Algebra
