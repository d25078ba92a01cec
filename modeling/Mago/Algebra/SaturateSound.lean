import Mago.Algebra.Consequence

/-!
# Saturation invents no fact

Every clause that saturation adds follows from the input, as long as the steps it takes are
right about the assertions, which they find by their keys: unit propagation strips what
opposes the unit clause, and keys that are compared stand for one assertion.
-/
namespace Mago.Algebra
open Library

variable {Atomic Union : Type} [DecidableEq Atomic] [DecidableEq Union]

/-! ## Sound steps -/

/-- A clause of two literals, one opposite to `l` and one that agrees with `q`. -/
def IsRule (d : Clause Atomic Union) (l q : Word × Assertion Atomic Union) : Prop :=
  ∃ x ∈ clauseLits [d], ∃ z ∈ clauseLits [d], x.1 = l.1 ∧ x.2.2.Opposite l.2 ∧
    z.1 = q.1 ∧ z.2.2.Agree q.2 ∧ ∀ w ∈ clauseLits [d], w = x ∨ w = z

instance (d : Clause Atomic Union) (l q : Word × Assertion Atomic Union) :
    Decidable (IsRule d l q) := inferInstanceAs (Decidable (∃ _ ∈ _, _))

theorem IsRule.holds {ν : Valuation Atomic Union} (hν : Opposing ν) {d : Clause Atomic Union}
    {l q : Word × Assertion Atomic Union} (h : IsRule d l q) (hd : Holds ν d) (hl : ν l) :
    ν q := by
  obtain ⟨⟨v, k, a⟩, hx, ⟨w, m, b⟩, hz, rfl, hopp, rfl, hagree, honly⟩ := h
  obtain ⟨u, n, y, hy, hνy⟩ := holds_iff.mp hd
  rcases honly (u, n, y) (mem_clauseLits_singleton.mpr hy) with heq | heq
  · cases heq
    exact absurd hl ((hν.iff_not hopp).mp hνy)
  · cases heq
    exact (hν.iff_of_agree hagree).mp hνy

variable [TType Atomic] [TType Union] {S : FixedState}

/-- The steps that the pass takes are right about the assertions behind the keys. A unit
clause strips only what opposes it, when that leaves a clause. Two clauses are resolved only
when the keys they share stand for one assertion. Every literal of a clause has a rule that
leads to what the clause infers. -/
structure StepsSound (S : FixedState) (limit : ℕ) (unique : List (Clause Atomic Union)) :
    Prop where
  strips : ∀ a ∈ unique.zipIdx, ∀ b ∈ unique.zipIdx, ∀ l ∈ simpleLiteral a.1,
    ∀ ds ∈ propagateInto S l.1 (l.2.negatedHash S) b.1, Scans S unique a b → ds ≠ [] →
    ∀ y ∈ clauseLits [b.1], y.1 = l.1 → y.2.1 = l.2.negatedHash S → l.2.Opposite y.2.2
  resolves : ∀ a ∈ unique.zipIdx, ∀ b ∈ laterMatching S unique a.2 a.1,
    (progressAt S unique a.2).isRemoved b.2 = false →
    ((opposingKey a.1 b.1).getD none).isSome = true → KeysAgree a.1 b.1
  infers : infersAny limit unique = true → ∀ c ∈ unique.zipIdx,
    ∀ q ∈ candidates (implicationsOf S unique) c.1, Infers S unique c q →
    ∀ y ∈ clauseLits [c.1], ∃ d ∈ unique, IsRule d (y.1, y.2.2) (q.1.1, q.2)

instance (limit : ℕ) (unique : List (Clause Atomic Union)) :
    Decidable (StepsSound S limit unique) :=
  decidable_of_iff (_ ∧ _ ∧ _) ⟨fun h => ⟨h.1, h.2.1, h.2.2⟩, fun h => ⟨h.1, h.2, h.3⟩⟩

variable {limit : ℕ} {unique : List (Clause Atomic Union)} {ν : Valuation Atomic Union}

omit [DecidableEq Atomic] [DecidableEq Union] [TType Atomic] [TType Union] in
/-- The only literal of a unit clause that holds. -/
theorem holds_simpleLiteral {c : Clause Atomic Union} {l : Word × Assertion Atomic Union}
    (h : simpleLiteral c = some l) (hc : Holds ν c) : ν l := by
  obtain ⟨k, hl, hkeyed⟩ := simpleLiteral_spec h
  obtain ⟨v, m, a, ha, hνa⟩ := holds_iff.mp hc
  have hmem : (v, m) ∈ keyed c.possibilities := ⟨a, ha⟩
  rw [hkeyed] at hmem
  obtain ⟨rfl, rfl⟩ := Prod.mk.inj (Set.mem_singleton_iff.mp hmem)
  rwa [Lit.unique ha hl] at hνa

theorem Rewrite.holds (hν : Opposing ν) (hsteps : StepsSound S limit unique)
    (hunique : ∀ c ∈ unique, Holds ν c) {j : ℕ} {ds : List (Clause Atomic Union)}
    (h : Rewrite S unique j ds) : ∀ d ∈ ds, Holds ν d := by
  intro d hd
  cases h with
  | @propagate a b l _ hunit hother hscans hsimple hresult =>
    have hνl := holds_simpleLiteral hsimple (hunique a.1 (List.fst_mem_of_mem_zipIdx hunit))
    obtain ⟨v, k, y, hy, hνy⟩ := holds_iff.mp (hunique b.1 (List.fst_mem_of_mem_zipIdx hother))
    have hstrips := hsteps.strips a hunit b hother l hsimple ds hresult hscans
      (List.ne_nil_of_mem hd)
    obtain ⟨-, ⟨rfl, -⟩ | ⟨d', rfl, hlit⟩⟩ := propagateInto_spec hresult
    · cases hd
    obtain rfl := List.mem_singleton.mp hd
    refine holds_iff.mpr ⟨v, k, y, (hlit v k y).mpr ⟨hy, ?_⟩, hνy⟩
    rintro ⟨rfl, rfl⟩
    have hopp := hstrips (l.1, _, y) (mem_clauseLits_singleton.mpr hy) rfl rfl
    exact (hν.iff_not hopp).mp hνl hνy
  | @resolve a b key hfirst hsecond hstanding hopposing =>
    have ha := hunique a.1 (List.fst_mem_of_mem_zipIdx hfirst)
    obtain ⟨hother, -, -, hlen⟩ := laterMatching_spec hsecond
    have hb := hunique b.1 (List.fst_mem_of_mem_zipIdx hother)
    have hagree := hsteps.resolves a hfirst b hsecond hstanding (by rw [hopposing]; rfl)
    have hlit := fun v k x => lit_of_remove (S := S) (c := a.1) (d := d) (x := key)
      (by simpa using hd) (v := v) (k := k) (a := x)
    obtain ⟨k, x, k', y, hx, hy, hxy, hA, hB⟩ := opposingKey_spec hlen hopposing
    have hopp := Assertion.opposite_of_isNegationOf hxy
    obtain ⟨v, m, z, hz, hνz⟩ := holds_iff.mp ha
    rcases hA (show (v, m) ∈ _ from ⟨z, hz⟩) with heq | ⟨-, hne⟩
    swap
    · exact holds_iff.mpr ⟨v, m, z, (hlit v m z).mpr ⟨hz, hne⟩, hνz⟩
    -- `a` holds by the opposed literal, so `b` holds by one of the others
    obtain ⟨rfl, rfl⟩ := Prod.mk.inj heq
    rw [Lit.unique hz hx, hν.iff_not hopp] at hνz
    obtain ⟨w, n, z', hz', hνz'⟩ := holds_iff.mp hb
    rcases hB (show (w, n) ∈ _ from ⟨z', hz'⟩) with heq | ⟨⟨u, hu⟩, hne⟩
    · obtain ⟨rfl, rfl⟩ := Prod.mk.inj heq
      exact absurd (Lit.unique hz' hy ▸ hνz') hνz
    · exact holds_iff.mpr ⟨w, n, u, (hlit w n u).mpr ⟨hu, hne⟩,
        (hν.iff_of_agree (hagree.agree hu hz')).mpr hνz'⟩

theorem Derived.holds (hν : Opposing ν) (hsteps : StepsSound S limit unique)
    (hunique : ∀ c ∈ unique, Holds ν c) {d : Clause Atomic Union}
    (h : Derived S limit unique d) : Holds ν d := by
  cases h with
  | rewrite hrewrite hd => exact hrewrite.holds hν hsteps hunique d hd
  | @inferred c q _ henabled hc hq hinfers heq =>
    obtain ⟨v, k, y, hy, hνy⟩ := holds_iff.mp (hunique c.1 (List.fst_mem_of_mem_zipIdx hc))
    obtain ⟨r, hr, hrule⟩ := hsteps.infers henabled c hc q hq hinfers (v, k, y)
      (mem_clauseLits_singleton.mpr hy)
    refine holds_iff.mpr ⟨q.1.1, q.1.2, q.2, heq ▸ lit_singleton.mpr ⟨rfl, rfl, rfl⟩, ?_⟩
    exact hrule.holds hν (hunique r hr) hνy

/-! ## The pass -/

theorem mem_of_mem_keptClauses {c : Clause Atomic Union}
    (h : c ∈ keptClauses S unique) : c ∈ unique := by
  obtain ⟨x, hx, rfl⟩ := List.mem_map.mp h
  exact List.fst_mem_of_mem_zipIdx (List.mem_filter.mp hx).1

theorem combinedClauses_holds (hν : Opposing ν) (hsteps : StepsSound S limit unique)
    (hunique : ∀ c ∈ unique, Holds ν c) : ∀ c ∈ combinedClauses S limit unique, Holds ν c := by
  intro c hc
  rcases List.mem_append.mp hc with hc | hc
  · exact hunique c (mem_of_mem_keptClauses hc)
  · exact (derived_of_mem_addedClauses (mem_of_mem_uniqueFrom hc)).holds hν hsteps hunique

theorem saturateInner_holds {complexity : ℕ} (hν : Opposing ν)
    (hsteps : unique.length ≤ complexity → StepsSound S limit unique)
    (hunique : ∀ c ∈ unique, Holds ν c) :
    ∀ c ∈ saturateInner S unique complexity limit, Holds ν c := by
  intro c hc
  unfold saturateInner at hc
  split_ifs at hc with hsize
  · cases hc
  · exact hunique c hc
  · exact hunique c hc
  · exact combinedClauses_holds hν (hsteps (by omega)) hunique c
      (mem_of_mem_absorb (mem_of_mem_removeConsensus hc))

/-- Saturation invents no fact while the steps it takes are right about the assertions. -/
theorem saturateClauses_sound {thresholds : AlgebraThresholds}
    {clauses : List (Clause Atomic Union)}
    (hsteps : (uniqueFrom [] clauses).length ≤ thresholds.saturationComplexity.toNat →
      StepsSound S thresholds.consensusLimit.toNat (uniqueFrom [] clauses))
    (hν : Lawful ν) (hall : ∀ c ∈ clauses, Holds ν c) :
    ∀ c ∈ saturateClauses S thresholds clauses, Holds ν c :=
  saturateInner_holds hν.opposing hsteps fun c hc => hall c (mem_of_mem_uniqueFrom hc)

/-- The literal `any` is stripped by nothing here: the clause that holds it has been replaced
when the pass comes to the unit clause of `any`. -/
def replacedBeforeAny : List (Clause Word Word) :=
  [truthClause byteHash [("$y", true)], clauseOf byteHash [(word "$x", .any)],
    clauseOf byteHash [(word "$x", .any), (word "$y", .falsy)],
    truthClause byteHash [("$y", false), ("$z", true)]]

theorem saturateClauses_sound_replaced :
    (saturateClauses byteHash .default replacedBeforeAny).length = 3 ∧
    ∀ c ∈ saturateClauses byteHash .default replacedBeforeAny,
      Holds (ofAtoms litAtom litPositive fun _ => True) c :=
  ⟨by decide +kernel, saturateClauses_sound (fun _ => by decide +kernel)
    (lawful_ofAtoms fun _ => trivial) (by decide +kernel)⟩

/-- The assertion `any` is keyed by the hash of its own negation, so a unit clause of it
strips a true literal. -/
theorem any_unit_propagates :
    ¬ ∀ ν : Valuation Word Word, Lawful ν →
      (∀ c ∈ [clauseOf byteHash [(word "$x", .any)],
        clauseOf byteHash [(word "$x", .any), (word "$y", .truthy)]], Holds ν c) →
      ∀ c ∈ saturateClauses byteHash .default [clauseOf byteHash [(word "$x", .any)],
        clauseOf byteHash [(word "$x", .any), (word "$y", .truthy)]], Holds ν c := by
  intro h
  have hν := h (ofAtoms litAtom litPositive fun l => l.2 = .any) (lawful_ofAtoms fun _ => rfl)
    (by decide +kernel)
  revert hν
  decide +kernel

/-! ## Keys that identify assertions -/

/-- A key stands for one assertion of its variable. -/
def KeysIdentify (clauses : List (Clause Atomic Union)) : Prop :=
  ∀ x ∈ clauseLits clauses, ∀ y ∈ clauseLits clauses, x.1 = y.1 → x.2.1 = y.2.1 →
    x.2.2.Agree y.2.2

instance (clauses : List (Clause Atomic Union)) : Decidable (KeysIdentify clauses) :=
  inferInstanceAs (Decidable (∀ _ ∈ _, _))

/-- The keys of the clauses identify assertions, and a key that is the hash of an assertion's
negation holds that negation. -/
structure KeysFaithful (S : FixedState) (clauses : List (Clause Atomic Union)) : Prop where
  same : KeysIdentify clauses
  negated : ∀ x ∈ clauseLits clauses, ∀ y ∈ clauseLits clauses, x.1 = y.1 →
    y.2.1 = x.2.2.negatedHash S → y.2.2.Agree x.2.2.getNegation

instance (clauses : List (Clause Atomic Union)) : Decidable (KeysFaithful S clauses) :=
  decidable_of_iff (_ ∧ _) ⟨fun h => ⟨h.1, h.2⟩, fun h => ⟨h.1, h.2⟩⟩

omit [DecidableEq Atomic] [DecidableEq Union] in
theorem KeysFaithful.mono {clauses clauses' : List (Clause Atomic Union)}
    (h : KeysFaithful S clauses)
    (hlits : ∀ x ∈ clauseLits clauses', x ∈ clauseLits clauses) : KeysFaithful S clauses' :=
  ⟨fun x hx y hy => h.same x (hlits x hx) y (hlits y hy),
    fun x hx y hy => h.negated x (hlits x hx) y (hlits y hy)⟩

/-- The unit clause `a` reduces `b` only when its assertion has a negation. -/
def UnitNegatable (S : FixedState) (a b : Clause Atomic Union) : Prop :=
  ∀ l ∈ simpleLiteral a, a.eligible = true → b.eligible = true →
    hasKey b.possibilities l.1 (l.2.negatedHash S) = true →
    l.2.isNegationOf l.2.getNegation = true

def UnitsNegatable (S : FixedState) (unique : List (Clause Atomic Union)) : Prop :=
  unique.Pairwise fun a b => UnitNegatable S a b ∧ UnitNegatable S b a

instance (a b : Clause Atomic Union) : Decidable (UnitNegatable S a b) :=
  inferInstanceAs (Decidable (∀ _ ∈ _, _))

instance (unique : List (Clause Atomic Union)) : Decidable (UnitsNegatable S unique) :=
  inferInstanceAs (Decidable (List.Pairwise _ _))

theorem UnitsNegatable.getElem {unique : List (Clause Atomic Union)}
    (h : UnitsNegatable S unique) {i j : ℕ} {a b : Clause Atomic Union}
    (ha : unique[i]? = some a) (hb : unique[j]? = some b) (hij : i ≠ j) :
    UnitNegatable S a b := by
  obtain ⟨hi, rfl⟩ := List.getElem?_eq_some_iff.mp ha
  obtain ⟨hj, rfl⟩ := List.getElem?_eq_some_iff.mp hb
  have hpair := List.pairwise_iff_getElem.mp h
  rcases Nat.lt_or_gt_of_ne hij with hlt | hlt
  · exact (hpair i j hi hj hlt).1
  · exact (hpair j i hj hi hlt).2

omit [DecidableEq Atomic] [DecidableEq Union] [TType Atomic] [TType Union] in
theorem KeysIdentify.keysAgree {clauses : List (Clause Atomic Union)} (h : KeysIdentify clauses)
    {c d : Clause Atomic Union} (hc : c ∈ clauses) (hd : d ∈ clauses) : KeysAgree c d :=
  fun x hx y hy => h x (clauseLit_iff.mpr ⟨c, hc, mem_clauseLits_singleton.mp hx⟩) y
    (clauseLit_iff.mpr ⟨d, hd, mem_clauseLits_singleton.mp hy⟩)

/-- With keys that identify assertions, an implication between keys is a rule. -/
theorem Implies.exists_isRule (hkeys : KeysFaithful S unique) {c : Clause Atomic Union}
    (hc : c ∈ unique) {y : Word × UInt64 × Assertion Atomic Union} (hy : y ∈ clauseLits [c])
    {q : (Word × UInt64) × Assertion Atomic Union} (hq : ClauseLit unique q.1.1 q.1.2 q.2)
    (h : Implies S unique (y.1, y.2.1) q.1) :
    ∃ d ∈ unique, IsRule d (y.1, y.2.2) (q.1.1, q.2) := by
  obtain ⟨d, hd, k, a, ha, hneg, hkey, ⟨b, hb⟩, hsub⟩ := h
  have hmem : ∀ v m x, Lit d.possibilities v m x → (v, m, x) ∈ clauseLits unique :=
    fun v m x hl => clauseLit_iff.mpr ⟨d, hd, hl⟩
  have hopp : a.Opposite y.2.2 := (Assertion.opposite_of_isNegationOf hneg).trans_agree
    (hkeys.negated _ (hmem _ _ _ ha) y (clauseLit_iff.mpr ⟨c, hc,
      mem_clauseLits_singleton.mp hy⟩) rfl hkey).symm
  refine ⟨d, hd, (y.1, k, a), mem_clauseLits_singleton.mpr ha, (q.1.1, q.1.2, b),
    mem_clauseLits_singleton.mpr hb, rfl, hopp, rfl, hkeys.same _ (hmem _ _ _ hb) _ hq rfl rfl, ?_⟩
  rintro ⟨v, m, x⟩ hmem'
  have hx : Lit d.possibilities v m x := mem_clauseLits_singleton.mp hmem'
  rcases hsub (show (v, m) ∈ _ from ⟨x, hx⟩) with heq | heq
  · obtain ⟨rfl, rfl⟩ := Prod.mk.inj heq
    exact .inl (by rw [Lit.unique hx ha])
  · obtain ⟨rfl, rfl⟩ := Prod.mk.inj (Set.mem_singleton_iff.mp heq)
    exact .inr (by rw [Lit.unique hx hb])

/-- The steps are sound when keys identify assertions and unit clauses that strip something
have a negation. -/
theorem StepsSound.of_keys (hkeys : KeysFaithful S unique) (hunits : UnitsNegatable S unique) :
    StepsSound S limit unique := by
  constructor
  · intro a ha b hb l hl ds hds hscans _ y hy hv hk
    have hget := List.mem_zipIdx_iff_getElem?.mp ha
    have hget' := List.mem_zipIdx_iff_getElem?.mp hb
    have hneg := hunits.getElem hget hget' hscans.ne l hl hscans.eligible hscans.eligible'
      (hasKey_iff.mpr (propagateInto_spec hds).1)
    obtain ⟨k, hlk, -⟩ := simpleLiteral_spec hl
    have hagree := hkeys.negated (l.1, k, l.2)
      (clauseLit_iff.mpr ⟨a.1, List.fst_mem_of_mem_zipIdx ha, hlk⟩) y
      (clauseLit_iff.mpr ⟨b.1, List.fst_mem_of_mem_zipIdx hb, mem_clauseLits_singleton.mp hy⟩)
      hv.symm hk
    exact (Assertion.opposite_of_isNegationOf hneg).trans_agree hagree.symm
  · intro a ha b hb _ _
    exact hkeys.same.keysAgree (List.fst_mem_of_mem_zipIdx ha)
      (List.fst_mem_of_mem_zipIdx (laterMatching_spec hb).1)
  · intro _ c hc q hq hinfers y hy
    have hmem := mem_clauseLits_singleton.mp hy
    exact (implies_of_commonConsequence implicationsOf_recorded hinfers.common (y.1, y.2.1)
      ⟨y.2.2, hmem⟩).exists_isRule hkeys (List.fst_mem_of_mem_zipIdx hc) hy
      (recorded_of_candidates implicationsOf_recorded hq)

end Mago.Algebra
