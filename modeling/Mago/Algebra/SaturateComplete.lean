import Mago.Algebra.SaturateSound

/-!
# Saturation loses no information

The clauses that survive the first three rules entail the input. The last rule removes
consensus clauses all at once; it is harmless when every removed clause is the consensus, on
one variable, of two clauses that rank below it.
-/
namespace Mago.Algebra
open Library

variable {Atomic Union : Type} {S : FixedState}

/-! ## Hashes -/

/-- Clauses of one hash hold the same variables and keys. -/
def CollisionFree (clauses : List (Clause Atomic Union)) : Prop :=
  ∀ c ∈ clauses, ∀ d ∈ clauses, c.hash = d.hash → shape c.possibilities = shape d.possibilities

instance (clauses : List (Clause Atomic Union)) : Decidable (CollisionFree clauses) :=
  inferInstanceAs (Decidable (∀ _ ∈ _, _))

theorem CollisionFree.keyed_eq {clauses : List (Clause Atomic Union)} (h : CollisionFree clauses)
    {c d : Clause Atomic Union} (hc : c ∈ clauses) (hd : d ∈ clauses) (hhash : c.hash = d.hash) :
    keyed c.possibilities = keyed d.possibilities := keyed_eq_of_shape (h c hc d hd hhash)

theorem CollisionFree.mono {clauses clauses' : List (Clause Atomic Union)}
    (h : CollisionFree clauses) (hsub : clauses' ⊆ clauses) : CollisionFree clauses' :=
  fun c hc d hd => h c (hsub hc) d (hsub hd)

variable [DecidableEq Atomic] [DecidableEq Union] {ν : Valuation Atomic Union}

/-! ## Absorption -/

omit [DecidableEq Atomic] [DecidableEq Union] in
theorem absorb_covers {combined : List (Clause Atomic Union)} {c : Clause Atomic Union}
    (hc : c ∈ combined) :
    c ∈ absorb S combined ∨ ∃ b ∈ combined, absorbs S b c = true := by
  unfold absorb
  split_ifs with hsize
  · exact .inl hc
  · obtain ⟨i, hi⟩ := List.mem_iff_getElem?.mp hc
    by_cases hkeep : (c.wedge || !combined.zipIdx.any fun x =>
        i != x.2 && absorbs S x.1 c) = true
    · exact .inl (List.mem_map.mpr ⟨(c, i),
        List.mem_filter.mpr ⟨List.mem_zipIdx_iff_getElem?.mpr hi, hkeep⟩, rfl⟩)
    · simp only [Bool.or_eq_true, Bool.not_eq_true', not_or, Bool.not_eq_false,
        List.any_eq_true, Bool.and_eq_true] at hkeep
      obtain ⟨-, ⟨b, j⟩, hb, -, habs⟩ := hkeep
      exact .inr ⟨b, List.fst_mem_of_mem_zipIdx hb, habs⟩

omit [DecidableEq Atomic] [DecidableEq Union] in
/-- A clause absorbs only larger clauses that contain it. -/
theorem absorbs_spec {b a : Clause Atomic Union} (h : absorbs S b a = true) :
    b.possibilities.len < a.possibilities.len ∧
      keyed b.possibilities ⊆ keyed a.possibilities := by
  simp only [absorbs, Bool.and_eq_true, Bool.not_eq_true', Bool.or_eq_false_iff,
    decide_eq_false_iff_not, not_le] at h
  exact ⟨h.1.2.1, Clause.keyed_subset_of_contains h.2⟩

/-- What absorption keeps entails what it got. -/
theorem absorb_complete (hν : Opposing ν) {combined : List (Clause Atomic Union)}
    (hagree : ∀ a ∈ combined, (∃ b ∈ combined, absorbs S b a = true) →
      ∃ b ∈ combined, absorbs S b a = true ∧ KeysAgree b a)
    (h : ∀ c ∈ absorb S combined, Holds ν c) : ∀ c ∈ combined, Holds ν c := by
  refine forall_of_survivors (fun c => c.possibilities.len)
    (K := fun c => c ∈ absorb S combined) (fun c _ hc => h c hc) ?_
  intro c hc hremoved hsmaller
  obtain ⟨b, hb, habsorbs, hkeys⟩ := hagree c hc ((absorb_covers hc).resolve_left hremoved)
  obtain ⟨hlen, hsub⟩ := absorbs_spec habsorbs
  exact (hsmaller b hb hlen).of_part hν hsub hkeys

/-! ## Consensus -/

theorem commonNegatedKeys_spec {a b : Clause Atomic Union} {v : Word}
    (h : v ∈ commonNegatedKeys a b) : ∃ k x k' y, Lit a.possibilities v k x ∧
      Lit b.possibilities v k' y ∧ x.isNegationOf y = true ∧
      (∀ l, (v, l) ∈ keyed a.possibilities → l = k) ∧
      ∀ l, (v, l) ∈ keyed b.possibilities → l = k' := by
  obtain ⟨⟨⟨w, as⟩, i⟩, hmem, rfl⟩ := List.mem_map.mp h
  simp only [List.mem_filter, Bool.and_eq_true, OrderedMap.getIndexOr_eq,
    Option.any_eq_true] at hmem
  obtain ⟨hi, -, bs, hget, hneg⟩ := hmem
  have has : (w, as) ∈ a.possibilities.entries :=
    List.mem_of_getElem? (List.mem_zipIdx_iff_getElem?.mp hi)
  obtain ⟨k, x, k', y, hx, hy, hxy⟩ := singletonNegation_spec hneg
  have hgeta : a.possibilities.get? w = some as := OrderedMap.get?_eq_some_iff.mpr has
  refine ⟨k, x, k', y, ⟨as, has, hx ▸ List.mem_singleton_self _⟩,
    ⟨bs, OrderedMap.get?_eq_some_iff.mp hget, hy ▸ List.mem_singleton_self _⟩, hxy, ?_, ?_⟩
  · intro l hl
    rw [mem_keyed_of_get? hgeta, OrderedMap.keys, hx] at hl
    exact List.mem_singleton.mp hl
  · intro l hl
    rw [mem_keyed_of_get? hget, OrderedMap.keys, hy] at hl
    exact List.mem_singleton.mp hl

omit [DecidableEq Atomic] [DecidableEq Union] in
theorem keyed_mergeExcept {keys : List Word} {target : Possibilities Atomic Union}
    {source : List (Word × Assertions Atomic Union)} {v : Word} {k : UInt64} :
    (v, k) ∈ keyed (mergeExcept keys target source) ↔
      (v, k) ∈ keyed target ∨ v ∉ keys ∧ ∃ m, (v, m) ∈ source ∧ k ∈ m.keys := by
  induction source generalizing target with
  | nil => simp [mergeExcept]
  | cons e source ih =>
    obtain ⟨w, n⟩ := e
    unfold mergeExcept at ih ⊢
    rw [List.foldl_cons, ih]
    by_cases hw : w ∈ keys
    · simp only [List.contains_iff_mem, hw, if_true, List.mem_cons, Prod.mk.injEq]
      constructor
      · rintro (h | ⟨hv, m, hm, hk⟩)
        · exact .inl h
        · exact .inr ⟨hv, m, .inr hm, hk⟩
      · rintro (h | ⟨hv, m, ⟨rfl, rfl⟩ | hm, hk⟩)
        · exact .inl h
        · exact absurd hw hv
        · exact .inr ⟨hv, m, hm, hk⟩
    · simp only [List.contains_iff_mem, hw, if_false, mem_keyed_insert,
        OrderedMap.mem_keys_extend, mem_keys_getD, List.mem_cons, Prod.mk.injEq]
      constructor
      · rintro ((⟨rfl, h | h⟩ | ⟨hv, h⟩) | ⟨hv, m, hm, hk⟩)
        · exact .inl h
        · exact .inr ⟨hw, n, .inl ⟨rfl, rfl⟩, h⟩
        · exact .inl h
        · exact .inr ⟨hv, m, .inr hm, hk⟩
      · rintro (h | ⟨hv, m, ⟨rfl, rfl⟩ | hm, hk⟩)
        · by_cases hvw : v = w
          · exact .inl (.inl ⟨hvw, .inl (hvw ▸ h)⟩)
          · exact .inl (.inr ⟨hvw, h⟩)
        · exact .inl (.inl ⟨rfl, .inr hk⟩)
        · exact .inr ⟨hv, m, hm, hk⟩

omit [DecidableEq Atomic] [DecidableEq Union] in
theorem keyed_conflictClause {keys : List Word} {a b : Clause Atomic Union} {v : Word}
    {k : UInt64} : (v, k) ∈ keyed (conflictClause S keys a b).possibilities ↔
      v ∉ keys ∧ ((v, k) ∈ keyed a.possibilities ∨ (v, k) ∈ keyed b.possibilities) := by
  have hempty : (v, k) ∉ keyed (OrderedMap.empty : Possibilities Atomic Union) := by
    rw [mem_keyed]
    rintro ⟨m, hm, -⟩
    cases hm
  simp only [conflictClause, possibilities_new, keyed_mergeExcept, hempty, false_or,
    mem_keyed (p := a.possibilities), mem_keyed (p := b.possibilities), and_or_left]

/-- The clause is the consensus of `a` and `b` on a single variable. -/
def SingleConsensus (S : FixedState) (a b c : Clause Atomic Union) : Prop :=
  (commonNegatedKeys a b).length = 1 ∧
    c.hash = (conflictClause S (commonNegatedKeys a b) a b).hash ∧ KeysAgree a c ∧ KeysAgree b c

instance (a b c : Clause Atomic Union) : Decidable (SingleConsensus S a b c) :=
  inferInstanceAs (Decidable (_ ∧ _))

/-- Every clause that the consensus rule removes is the consensus on a single variable of two
clauses ranked below it. -/
def ConsensusRedundant (S : FixedState) (simplified : List (Clause Atomic Union)) : Prop :=
  ∃ rank : Clause Atomic Union → ℕ, ∀ c ∈ simplified, c.hash ∈ removedHashes S simplified →
    ∃ a ∈ simplified, ∃ b ∈ simplified, SingleConsensus S a b c ∧ rank a < rank c ∧
      rank b < rank c

/-- The clauses that stand for the conflict of two of the given ones. -/
def conflictClauses (S : FixedState) (clauses : List (Clause Atomic Union)) :
    List (Clause Atomic Union) :=
  clauses.flatMap fun a => clauses.map fun b => conflictClause S (commonNegatedKeys a b) a b

theorem SingleConsensus.holds (hν : Opposing ν) {a b c : Clause Atomic Union}
    (h : SingleConsensus S a b c)
    (hkeyed : keyed c.possibilities =
      keyed (conflictClause S (commonNegatedKeys a b) a b).possibilities)
    (ha : Holds ν a) (hb : Holds ν b) : Holds ν c := by
  obtain ⟨hone, -, hac, hbc⟩ := h
  obtain ⟨v, hv⟩ := List.length_eq_one_iff.mp hone
  obtain ⟨k, x, k', y, hx, hy, hxy, honlya, honlyb⟩ :=
    commonNegatedKeys_spec (a := a) (b := b) (v := v) (by simp [hv])
  have hrest : ∀ (d : Clause Atomic Union), d = a ∨ d = b → ∀ w l z, w ≠ v →
      Lit d.possibilities w l z → ν (w, z) → Holds ν c := by
    intro d hd w l z hw hz hνz
    have hmem : (w, l) ∈ keyed c.possibilities := by
      rw [hkeyed]
      refine keyed_conflictClause.mpr ⟨by simpa [hv] using hw, ?_⟩
      rcases hd with rfl | rfl
      · exact .inl ⟨z, hz⟩
      · exact .inr ⟨z, hz⟩
    obtain ⟨z', hz'⟩ := hmem
    have hagree : z.Agree z' := by
      rcases hd with rfl | rfl
      · exact hac.agree hz hz'
      · exact hbc.agree hz hz'
    exact holds_iff.mpr ⟨w, l, z', hz', (hν.iff_of_agree hagree).mp hνz⟩
  obtain ⟨w, l, z, hz, hνz⟩ := holds_iff.mp ha
  by_cases hw : w = v
  swap
  · exact hrest a (.inl rfl) w l z hw hz hνz
  -- `a` holds by the common variable, so `b` holds by another one
  subst hw
  obtain rfl := honlya l ⟨z, hz⟩
  rw [Lit.unique hz hx, hν.iff_not (Assertion.opposite_of_isNegationOf hxy)] at hνz
  obtain ⟨u, m, z', hz', hνz'⟩ := holds_iff.mp hb
  refine hrest b (.inr rfl) u m z' ?_ hz' hνz'
  rintro rfl
  obtain rfl := honlyb m ⟨z', hz'⟩
  exact hνz (Lit.unique hz' hy ▸ hνz')

/-- What the consensus rule keeps entails what it removes, when removal is redundant. -/
theorem ConsensusRedundant.holds (hν : Opposing ν) {simplified : List (Clause Atomic Union)}
    (hhashes : CollisionFree (simplified ++ conflictClauses S simplified))
    (h : ConsensusRedundant S simplified)
    (hkept : ∀ c ∈ simplified, c.hash ∉ removedHashes S simplified → Holds ν c) :
    ∀ c ∈ simplified, Holds ν c := by
  obtain ⟨rank, hrank⟩ := h
  refine forall_of_survivors rank hkept fun c hc hremoved hsmaller => ?_
  obtain ⟨a, ha, b, hb, hsingle, hac, hbc⟩ := hrank c hc (not_not.mp hremoved)
  have hconflict : conflictClause S (commonNegatedKeys a b) a b ∈ conflictClauses S simplified :=
    List.mem_flatMap.mpr ⟨a, ha, List.mem_map_of_mem hb⟩
  exact hsingle.holds hν (hhashes.keyed_eq (List.mem_append_left _ hc)
    (List.mem_append_right _ hconflict) hsingle.2.1) (hsmaller a ha hac) (hsmaller b hb hbc)

variable [TType Atomic] [TType Union]

/-! ## The first three rules -/

/-- A removed clause contains one of the added ones, or was stripped of all it had. -/
theorem simplify_covers {unique : List (Clause Atomic Union)} :
    ∀ j b, (b, j) ∈ unique.zipIdx → (simplify S unique).isRemoved j = true →
      (∃ d ∈ (simplify S unique).added,
        ∀ v k a, Lit d.possibilities v k a → Lit b.possibilities v k a) ∨
      Rewrite S unique j [] := by
  refine simplify_induction (S := S) (P := fun p : Progress Atomic Union => ∀ j b,
    (b, j) ∈ unique.zipIdx → p.isRemoved j = true → (∃ d ∈ p.added,
      ∀ v k a, Lit d.possibilities v k a → Lit b.possibilities v k a) ∨
      Rewrite S unique j []) ?_ ?_
  · intro j b _ hremoved
    simp [Progress.isRemoved, List.getD_eq_getElem?_getD] at hremoved
  · intro p i ds hp hstep j b hb hremoved
    by_cases hij : j = i
    · subst hij
      rcases hstep.covers hb with rfl | ⟨d, hd, hlit⟩
      · exact .inr hstep
      · exact .inl ⟨d, List.mem_append_right _ hd, hlit⟩
    · rw [Progress.isRemoved_replace_of_ne hij] at hremoved
      rcases hp j b hb hremoved with ⟨d, hd, hlit⟩ | hnil
      · exact .inl ⟨d, List.mem_append_left _ hd, hlit⟩
      · exact .inr hnil

theorem mem_of_mem_combinedClauses {limit : ℕ} {unique : List (Clause Atomic Union)}
    {c : Clause Atomic Union} (h : c ∈ combinedClauses S limit unique) :
    c ∈ unique ++ addedClauses S limit unique :=
  (List.mem_append.mp h).elim (fun h => List.mem_append_left _ (mem_of_mem_keptClauses h))
    fun h => List.mem_append_right _ (mem_of_mem_uniqueFrom h)

/-- Resolution, propagation and inference lose nothing but clauses that were stripped of all
they had. -/
theorem combinedClauses_complete (hν : Opposing ν) {limit : ℕ}
    {unique : List (Clause Atomic Union)}
    (hhashes : CollisionFree (unique ++ addedClauses S limit unique))
    (hagree : ∀ c ∈ combinedClauses S limit unique, ∀ d ∈ (simplify S unique).added,
      c.hash = d.hash → KeysAgree c d)
    (hnil : ∀ b ∈ unique.zipIdx, Rewrite S unique b.2 [] → Holds ν b.1)
    (h : ∀ c ∈ combinedClauses S limit unique, Holds ν c) : ∀ c ∈ unique, Holds ν c := by
  intro c hc
  obtain ⟨j, hj⟩ := List.mem_iff_getElem?.mp hc
  have hmem : (c, j) ∈ unique.zipIdx := List.mem_zipIdx_iff_getElem?.mpr hj
  cases hremoved : (simplify S unique).isRemoved j with
  | false =>
    exact h c (List.mem_append_left _ (List.mem_map.mpr ⟨(c, j), List.mem_filter.mpr
      ⟨hmem, by simp [hremoved]⟩, rfl⟩))
  | true =>
    rcases simplify_covers j c hmem hremoved with ⟨d, hd, hlit⟩ | hstep
    swap
    · exact hnil (c, j) hmem hstep
    have hadded : d ∈ addedClauses S limit unique := List.mem_append_left _ hd
    -- `d` itself or a clause of the same hash was kept
    obtain ⟨e, he, hhash⟩ : ∃ e ∈ combinedClauses S limit unique, e.hash = d.hash := by
      rcases exists_mem_uniqueFrom hadded with hseen | ⟨e, he, hhash⟩
      · obtain ⟨e, he, hhash⟩ := List.mem_map.mp hseen
        exact ⟨e, List.mem_append_left _ he, hhash⟩
      · exact ⟨e, List.mem_append_right _ he, hhash⟩
    have hmem : e ∈ unique ++ addedClauses S limit unique :=
      mem_of_mem_combinedClauses he
    have hd : Holds ν d := (h e he).of_part hν
      (hhashes.keyed_eq hmem (List.mem_append_right _ hadded) hhash).subset
      (hagree e he d hd hhash)
    obtain ⟨v, k, a, ha, hνa⟩ := holds_iff.mp hd
    exact holds_iff.mpr ⟨v, k, a, hlit v k a ha, hνa⟩

/-! ## The pass -/

variable {clauses : List (Clause Atomic Union)}

/-- The clauses that the consensus rule scans, none when the pass does not reach it. -/
def consensusInput (S : FixedState) (thresholds : AlgebraThresholds)
    (clauses : List (Clause Atomic Union)) : List (Clause Atomic Union) :=
  let unique := uniqueFrom [] clauses
  if unique.length ≤ 1 ∨ independentPair unique = true then []
  else
    let limit := thresholds.consensusLimit.toNat
    let combined := combinedClauses S limit unique
    let simplified := absorb S combined
    if !(sizeOne combined && sizeOne simplified) && simplified.length > 2 &&
      simplified.length < limit then simplified else []

/-- The pass returns the unique clauses, or what absorption leaves without the consensus
clauses. -/
theorem saturateClauses_cases {thresholds : AlgebraThresholds}
    (hsize : (uniqueFrom [] clauses).length ≤ thresholds.saturationComplexity.toNat) :
    (saturateClauses S thresholds clauses = uniqueFrom [] clauses ∧
      consensusInput S thresholds clauses = []) ∨
    let simplified := absorb S
      (combinedClauses S thresholds.consensusLimit.toNat (uniqueFrom [] clauses))
    (saturateClauses S thresholds clauses = simplified ∧
      consensusInput S thresholds clauses = []) ∨
    (consensusInput S thresholds clauses = simplified ∧
      saturateClauses S thresholds clauses = simplified.filter fun c =>
        !(removedHashes S simplified).contains c.hash) := by
  unfold saturateClauses saturateInner consensusInput
  dsimp only
  by_cases hlen : (uniqueFrom [] clauses).length ≤ 1
  · left
    constructor
    · split_ifs with hzero hone
      · exact (List.length_eq_zero_iff.mp (by omega)).symm
      · rfl
      · omega
      · omega
    · rw [if_pos (.inl hlen)]
  · rw [if_neg (by omega), if_neg (by omega)]
    by_cases hpair : independentPair (uniqueFrom [] clauses) = true
    · rw [if_pos hpair, if_pos (.inr hpair)]
      exact .inl ⟨rfl, rfl⟩
    · rw [if_neg hpair, if_neg (by tauto)]
      right
      unfold removeConsensus
      split_ifs
      · exact .inr ⟨rfl, rfl⟩
      · exact .inl ⟨rfl, rfl⟩

theorem consensusInput_subset {thresholds : AlgebraThresholds} {c : Clause Atomic Union}
    (hc : c ∈ consensusInput S thresholds clauses) :
    c ∈ combinedClauses S thresholds.consensusLimit.toNat (uniqueFrom [] clauses) := by
  unfold consensusInput at hc
  dsimp only at hc
  split_ifs at hc
  · cases hc
  · exact mem_of_mem_absorb hc
  · cases hc

/-- The clauses whose hashes saturation compares. -/
def occurring (S : FixedState) (thresholds : AlgebraThresholds)
    (clauses : List (Clause Atomic Union)) : List (Clause Atomic Union) :=
  clauses ++ addedClauses S thresholds.consensusLimit.toNat (uniqueFrom [] clauses) ++
    conflictClauses S (consensusInput S thresholds clauses)

/-- Where saturation drops a clause for another of the same hash, or for one that is part of
it, the keys that they share stand for one assertion. -/
structure RemovalsAgree (S : FixedState) (limit : ℕ) (clauses : List (Clause Atomic Union)) :
    Prop where
  duplicates : ∀ c ∈ clauses, ∀ d ∈ clauses, c.hash = d.hash → KeysAgree c d
  replaced : ∀ c ∈ combinedClauses S limit (uniqueFrom [] clauses),
    ∀ d ∈ (simplify S (uniqueFrom [] clauses)).added, c.hash = d.hash → KeysAgree c d
  absorbed : ∀ a ∈ combinedClauses S limit (uniqueFrom [] clauses),
    (∃ b ∈ combinedClauses S limit (uniqueFrom [] clauses), absorbs S b a = true) →
    ∃ b ∈ combinedClauses S limit (uniqueFrom [] clauses), absorbs S b a = true ∧ KeysAgree b a

instance (limit : ℕ) (clauses : List (Clause Atomic Union)) :
    Decidable (RemovalsAgree S limit clauses) :=
  decidable_of_iff (_ ∧ _ ∧ _) ⟨fun h => ⟨h.1, h.2.1, h.2.2⟩, fun h => ⟨h.1, h.2, h.3⟩⟩

/-- A clause that unit propagation strips of all it has opposes the unit clause, or is
`any`. -/
def EmptiedOpposed (S : FixedState) (unique : List (Clause Atomic Union)) : Prop :=
  ∀ a ∈ unique.zipIdx, ∀ b ∈ unique.zipIdx, ∀ l ∈ simpleLiteral a.1,
    [] ∈ propagateInto S l.1 (l.2.negatedHash S) b.1 → Scans S unique a b →
    ∀ y ∈ clauseLits [b.1], l.2.Opposite y.2.2 ∨ y.2.2.Agree .any

instance (unique : List (Clause Atomic Union)) : Decidable (EmptiedOpposed S unique) :=
  inferInstanceAs (Decidable (∀ _ ∈ _, _))

theorem consensusInput_occurring {thresholds : AlgebraThresholds} {c : Clause Atomic Union}
    (hc : c ∈ consensusInput S thresholds clauses) : c ∈ occurring S thresholds clauses := by
  refine List.mem_append_left _ ?_
  rcases List.mem_append.mp (mem_of_mem_combinedClauses (consensusInput_subset hc)) with hc | hc
  · exact List.mem_append_left _ (mem_of_mem_uniqueFrom hc)
  · exact List.mem_append_right _ hc

/-- The output entails the input, once it entails what the consensus rule removes. -/
theorem saturateClauses_complete_of_consensus {thresholds : AlgebraThresholds}
    (hsize : (uniqueFrom [] clauses).length ≤ thresholds.saturationComplexity.toNat)
    (hhashes : CollisionFree (occurring S thresholds clauses))
    (hagree : RemovalsAgree S thresholds.consensusLimit.toNat clauses) (hν : Opposing ν)
    (hnil : ∀ b ∈ (uniqueFrom [] clauses).zipIdx,
      Rewrite S (uniqueFrom [] clauses) b.2 [] → Holds ν b.1)
    (hconsensus : (∀ c ∈ consensusInput S thresholds clauses,
      c.hash ∉ removedHashes S (consensusInput S thresholds clauses) → Holds ν c) →
      ∀ c ∈ consensusInput S thresholds clauses, Holds ν c)
    (hout : ∀ c ∈ saturateClauses S thresholds clauses, Holds ν c) :
    ∀ c ∈ clauses, Holds ν c := by
  have hclauses : ∀ c ∈ clauses, c ∈ occurring S thresholds clauses := fun c hc =>
    List.mem_append_left _ (List.mem_append_left _ hc)
  -- it is enough to have the unique clauses
  suffices hall : ∀ c ∈ uniqueFrom [] clauses, Holds ν c by
    intro c hc
    obtain ⟨d, hd, hhash⟩ := (exists_mem_uniqueFrom hc).resolve_left List.not_mem_nil
    have hmem := mem_of_mem_uniqueFrom hd
    exact (hall d hd).of_part hν
      (hhashes.keyed_eq (hclauses d hmem) (hclauses c hc) hhash).subset
      (hagree.duplicates d hmem c hc hhash)
  have hadded : CollisionFree (uniqueFrom [] clauses ++
      addedClauses S thresholds.consensusLimit.toNat (uniqueFrom [] clauses)) := by
    refine hhashes.mono fun c hc => List.mem_append_left _ ?_
    exact (List.mem_append.mp hc).elim
      (fun hc => List.mem_append_left _ (mem_of_mem_uniqueFrom hc)) (List.mem_append_right _)
  have hrest : (∀ c ∈ absorb S (combinedClauses S thresholds.consensusLimit.toNat
      (uniqueFrom [] clauses)), Holds ν c) → ∀ c ∈ uniqueFrom [] clauses, Holds ν c :=
    fun habsorb => combinedClauses_complete hν hadded hagree.replaced hnil
      (absorb_complete hν hagree.absorbed habsorb)
  rcases saturateClauses_cases (S := S) hsize with ⟨hsat, -⟩ | ⟨hsat, -⟩ | ⟨hinput, hsat⟩
  · exact fun c hc => hout c (hsat ▸ hc)
  · exact hrest fun c hc => hout c (hsat ▸ hc)
  · refine hrest (hinput ▸ hconsensus fun c hc hkept => hout c ?_)
    rw [hsat, ← hinput]
    exact List.mem_filter.mpr ⟨hc, by simpa using hkept⟩

theorem ConsensusRedundant.entails {thresholds : AlgebraThresholds}
    (h : ConsensusRedundant S (consensusInput S thresholds clauses))
    (hhashes : CollisionFree (occurring S thresholds clauses)) (hν : Opposing ν)
    (hkept : ∀ c ∈ consensusInput S thresholds clauses,
      c.hash ∉ removedHashes S (consensusInput S thresholds clauses) → Holds ν c) :
    ∀ c ∈ consensusInput S thresholds clauses, Holds ν c := by
  refine h.holds hν (hhashes.mono fun c hc => ?_) hkept
  exact (List.mem_append.mp hc).elim consensusInput_occurring (List.mem_append_right _)

/-- In a satisfiable list the clauses that disappear without a replacement are true. -/
theorem EmptiedOpposed.holds {unique : List (Clause Atomic Union)}
    (h : EmptiedOpposed S unique) {ν₀ : Valuation Atomic Union} (hν₀ : Opposing ν₀)
    (hsat : ∀ c ∈ unique, Holds ν₀ c) (hν : Lawful ν) {b : Clause Atomic Union × ℕ}
    (hb : b ∈ unique.zipIdx) (hstep : Rewrite S unique b.2 []) : Holds ν b.1 := by
  obtain ⟨a, b', l, ha, hb', hpos, hscans, hsimple, hnil⟩ := hstep.nil_spec rfl
  obtain rfl : b' = b := by
    refine Prod.ext (Option.some.inj ?_) hpos
    rw [← List.mem_zipIdx_iff_getElem?.mp hb, ← hpos]
    exact (List.mem_zipIdx_iff_getElem?.mp hb').symm
  obtain ⟨v, k, y, hy, hνy⟩ := holds_iff.mp (hsat b'.1 (List.fst_mem_of_mem_zipIdx hb))
  have hmem : (v, k, y) ∈ clauseLits [b'.1] := mem_clauseLits_singleton.mpr hy
  rcases h a ha b' hb l hsimple hnil hscans (v, k, y) hmem with hopp | hany
  · -- two unit clauses that contradict each other
    exfalso
    obtain ⟨-, ⟨-, honly⟩ | ⟨d, hd, -⟩⟩ := propagateInto_spec hnil
    · obtain ⟨rfl, -⟩ := honly v k y hy
      exact (hν₀.iff_not hopp).mp
        (holds_simpleLiteral hsimple (hsat a.1 (List.fst_mem_of_mem_zipIdx ha))) hνy
    · cases hd
  · exact holds_iff.mpr ⟨v, k, y, hy, (hν.opposing.iff_of_agree hany).mpr (hν.any v)⟩

/-- Saturation of a satisfiable list keeps all information when removals go by the assertions
and the consensus rule removes only ranked single consensuses; where nothing is invented
either, it does so exactly when the clauses which that rule removes follow from those it
keeps. -/
theorem saturateClauses_complete {thresholds : AlgebraThresholds}
    (hsize : clauses.length ≤ thresholds.saturationComplexity.toNat)
    (hsat : ∃ ν₀ : Valuation Atomic Union, Lawful ν₀ ∧ ∀ c ∈ clauses, Holds ν₀ c)
    (hhashes : CollisionFree (occurring S thresholds clauses)) :
    RemovalsAgree S thresholds.consensusLimit.toNat clauses →
    EmptiedOpposed S (uniqueFrom [] clauses) →
    (ConsensusRedundant S (consensusInput S thresholds clauses) →
      ∀ ν, Lawful ν → (∀ c ∈ saturateClauses S thresholds clauses, Holds ν c) →
        ∀ c ∈ clauses, Holds ν c) ∧
    (StepsSound S thresholds.consensusLimit.toNat (uniqueFrom [] clauses) →
      ((∀ ν, Lawful ν → (∀ c ∈ saturateClauses S thresholds clauses, Holds ν c) →
        ∀ c ∈ clauses, Holds ν c) ↔
      ∀ ν, Lawful ν → (∀ c ∈ consensusInput S thresholds clauses,
        c.hash ∉ removedHashes S (consensusInput S thresholds clauses) → Holds ν c) →
        ∀ c ∈ consensusInput S thresholds clauses, Holds ν c)) := by
  intro hagree hemptied
  have hsize' : (uniqueFrom [] clauses).length ≤ thresholds.saturationComplexity.toNat :=
    (length_uniqueFrom_le clauses).trans hsize
  obtain ⟨ν₀, hν₀, hall₀⟩ := hsat
  have hcomplete : ∀ ν, Lawful ν → _ → _ → ∀ c ∈ clauses, Holds ν c := fun ν hν =>
    saturateClauses_complete_of_consensus hsize' hhashes hagree hν.opposing fun b hb hstep =>
      hemptied.holds hν₀.opposing (fun c hc => hall₀ c (mem_of_mem_uniqueFrom hc)) hν hb hstep
  refine ⟨fun hredundant ν hν hout => hcomplete ν hν (hredundant.entails hhashes hν.opposing) hout,
    fun hsteps => ⟨fun hprop ν hν hkept c hc => ?_, fun hlossless ν hν hout =>
      hcomplete ν hν (hlossless ν hν) hout⟩⟩
  -- the kept clauses are the output, so they entail the input and all that follows from it
  rcases saturateClauses_cases (S := S) hsize' with ⟨-, hempty⟩ | ⟨-, hempty⟩ | ⟨hinput, hout⟩
  · simp [hempty] at hc
  · simp [hempty] at hc
  have hclauses : ∀ c ∈ clauses, Holds ν c := by
    refine hprop ν hν fun d hd => ?_
    rw [hout, ← hinput] at hd
    obtain ⟨hd, hnot⟩ := List.mem_filter.mp hd
    exact hkept d hd (by simpa using hnot)
  exact combinedClauses_holds hν.opposing hsteps
    (fun c hc => hclauses c (mem_of_mem_uniqueFrom hc)) c (consensusInput_subset hc)

/-- The clause `$y ∨ $z` is the consensus of the other two. -/
def singleConsensus : List (Clause Word Word) :=
  [truthClause byteHash [("$x", true), ("$y", true)],
    truthClause byteHash [("$x", false), ("$z", true)],
    truthClause byteHash [("$y", true), ("$z", true)]]

/-- A single consensus is removed without loss. -/
theorem saturateClauses_complete_single :
    (saturateClauses byteHash .default singleConsensus).length = 2 ∧
      ∀ ν, Lawful ν → (∀ c ∈ saturateClauses byteHash .default singleConsensus, Holds ν c) →
        ∀ c ∈ singleConsensus, Holds ν c := by
  refine ⟨by decide +kernel, (saturateClauses_complete (by decide +kernel)
    ⟨ofAtoms litAtom litPositive fun _ => True, lawful_ofAtoms fun _ => trivial,
      by decide +kernel⟩ (by decide +kernel) (by decide +kernel) (by decide +kernel)).1
    ⟨fun c => if c.possibilities.containsKey (word "$x") then 0 else 1, ?_⟩⟩
  decide +kernel

/-- Two clauses that oppose on two variables, and the rest of both. -/
def doubleConsensus : List (Clause Word Word) :=
  [truthClause byteHash [("$x", true), ("$y", true), ("$p", true)],
    truthClause byteHash [("$x", false), ("$y", false), ("$q", true)],
    truthClause byteHash [("$p", true), ("$q", true)]]

/-- The rest of two clauses that oppose twice does not follow from them, yet it is removed. -/
theorem double_consensus_removed :
    (∃ ν₀ : Valuation Word Word, Lawful ν₀ ∧ ∀ c ∈ doubleConsensus, Holds ν₀ c) ∧
    CollisionFree (occurring byteHash .default doubleConsensus) ∧
    ¬ ∀ ν, Lawful ν → (∀ c ∈ saturateClauses byteHash .default doubleConsensus, Holds ν c) →
      ∀ c ∈ doubleConsensus, Holds ν c := by
  refine ⟨⟨ofAtoms litAtom litPositive fun l => l.1 ≠ word "$y" ∨ l.2 = .any,
    lawful_ofAtoms fun _ => .inr rfl, by decide +kernel⟩, by decide +kernel, fun h => ?_⟩
  have hν := h (ofAtoms litAtom litPositive fun l => l.1 = word "$x" ∨ l.2 = .any)
    (lawful_ofAtoms fun _ => .inr rfl) (by decide +kernel)
  revert hν
  decide +kernel

end Mago.Algebra
