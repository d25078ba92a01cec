import Mago.Library.Masks
import Mago.Algebra.SaturateSteps

/-!
# Plain saturation

The rules of `saturateClauses` over all pairs of clauses, without the literal index, the links
between clauses of the same variables, the masks, the early return and the shortcuts for
clauses of one variable. Lookups do not try a position first.
-/
namespace Mago.Algebra
open Library

variable {Atomic Union : Type} [DecidableEq Atomic] [DecidableEq Union] [TType Atomic]
  [TType Union] (S : FixedState)

namespace Plain

def opposingKeyFrom (b : Possibilities Atomic Union) (opposing : Option Word) :
    List (Word × Assertions Atomic Union) → Option (Option Word)
  | [] => some opposing
  | (key, as) :: rest =>
    match b.get? key with
    | none => none
    | some bs =>
      if indexKeysMatch as bs then opposingKeyFrom b opposing rest
      else if singletonNegation as bs then
        match opposing with
        | some _ => none
        | none => opposingKeyFrom b (some key) rest
      else none

def opposingKey (a b : Clause Atomic Union) : Option (Option Word) :=
  opposingKeyFrom b.possibilities none a.possibilities.entries

def resolve (a : Clause Atomic Union) (i : ℕ) :
    List (Clause Atomic Union × ℕ) → Progress Atomic Union → Progress Atomic Union
  | [], p => p
  | (b, j) :: rest, p =>
    if p.isRemoved j then resolve a i rest p
    else match opposingKey a b with
      | some (some key) =>
        match a.removePossibilities S key with
        | some clause => resolve a i rest (p.replace i [clause])
        | none => p.replace i []
      | _ => resolve a i rest p

/-- The later clauses that have as many variables. -/
def laterClauses (unique : List (Clause Atomic Union)) (i : ℕ) (a : Clause Atomic Union) :
    List (Clause Atomic Union × ℕ) :=
  unique.zipIdx.filter fun (b, j) =>
    decide (i < j) && b.eligible && b.possibilities.len == a.possibilities.len

def simplifyStep (unique : List (Clause Atomic Union)) (p : Progress Atomic Union)
    (a : Clause Atomic Union × ℕ) : Progress Atomic Union :=
  if !a.1.eligible then p
  else match simpleLiteral a.1 with
    | some (clauseVar, onlyType) =>
      propagateUnit S clauseVar (onlyType.negatedHash S) a.2 unique.zipIdx p
    | none => resolve S a.1 a.2 (laterClauses unique a.2 a.1) p

def simplify (unique : List (Clause Atomic Union)) : Progress Atomic Union :=
  unique.zipIdx.foldl (simplifyStep S unique) ⟨unique.map fun _ => false, []⟩

def addedClauses (consensusLimit : ℕ) (unique : List (Clause Atomic Union)) :
    List (Clause Atomic Union) :=
  (simplify S unique).added ++
    if unique.length > 2 && unique.length < consensusLimit then inferCommonConsequences S unique
    else []

def keptClauses (unique : List (Clause Atomic Union)) : List (Clause Atomic Union) :=
  (unique.zipIdx.filter fun c => !(simplify S unique).isRemoved c.2).map Prod.fst

def combinedClauses (consensusLimit : ℕ) (unique : List (Clause Atomic Union)) :
    List (Clause Atomic Union) :=
  keptClauses S unique ++
    uniqueFrom ((keptClauses S unique).map Clause.hash) (addedClauses S consensusLimit unique)

def contains (c other : Clause Atomic Union) : Bool :=
  decide (other.possibilities.len ≤ c.possibilities.len) &&
    other.possibilities.entries.all fun e =>
      (c.possibilities.get? e.1).any fun localPossibilities =>
        e.2.keys.all fun k => localPossibilities.containsKey k

def absorbs (b a : Clause Atomic Union) : Bool :=
  b.eligible && decide (b.possibilities.len < a.possibilities.len) && contains a b

def absorb (combined : List (Clause Atomic Union)) : List (Clause Atomic Union) :=
  (combined.zipIdx.filter fun (a, i) =>
    a.wedge || !combined.zipIdx.any fun (b, j) => i != j && absorbs b a).map Prod.fst

def commonNegatedKeys (a b : Clause Atomic Union) : List Word :=
  (a.possibilities.entries.filter fun e =>
    e.2.len == 1 && (b.possibilities.get? e.1).any (singletonNegation e.2)).map Prod.fst

def consensusHash (a b : Clause Atomic Union) : Option UInt32 :=
  let keys := commonNegatedKeys a b
  if keys.isEmpty then none else some (conflictClause S keys a b).hash

def removedHashes : List (Clause Atomic Union) → List UInt32
  | [] => []
  | a :: rest => rest.filterMap (consensusHash S a) ++ removedHashes rest

def removeConsensus (consensusLimit : ℕ) (simplified : List (Clause Atomic Union)) :
    List (Clause Atomic Union) :=
  if simplified.length > 2 && simplified.length < consensusLimit then
    simplified.filter fun f => !(removedHashes S simplified).contains f.hash
  else simplified

def saturateInner (unique : List (Clause Atomic Union))
    (saturationComplexity consensusLimit : ℕ) : List (Clause Atomic Union) :=
  if unique.length = 0 ∨ unique.length > saturationComplexity then []
  else if unique.length = 1 then unique
  else removeConsensus S consensusLimit (absorb (combinedClauses S consensusLimit unique))

def saturateClauses (thresholds : AlgebraThresholds) (clauses : List (Clause Atomic Union)) :
    List (Clause Atomic Union) :=
  saturateInner S (uniqueFrom [] clauses) thresholds.saturationComplexity.toNat
    thresholds.consensusLimit.toNat

/-! ## Lookups -/

variable {S}

omit [TType Atomic] [TType Union] in
theorem opposingKeyFrom_eq (b : Possibilities Atomic Union) (i : ℕ) (opposing : Option Word)
    (es : List (Word × Assertions Atomic Union)) :
    Algebra.opposingKeyFrom b i opposing es = opposingKeyFrom b opposing es := by
  induction es generalizing i opposing with
  | nil => rfl
  | cons e es ih =>
    cases hget : b.get? e.1 with
    | none => simp only [Algebra.opposingKeyFrom, opposingKeyFrom, OrderedMap.getIndexOr_eq, hget]
    | some bs =>
      cases opposing <;>
        simp only [Algebra.opposingKeyFrom, opposingKeyFrom, OrderedMap.getIndexOr_eq, hget, ih]

omit [TType Atomic] [TType Union] in
theorem opposingKey_eq (a b : Clause Atomic Union) :
    Algebra.opposingKey a b = opposingKey a b := opposingKeyFrom_eq _ _ _ _

omit [DecidableEq Atomic] [DecidableEq Union] [TType Atomic] [TType Union] in
/-- A key that stands at its position is found by a lookup. -/
theorem any_getIndex_or {ν : Type} (m : OrderedMap UInt64 ν) (k : UInt64) (j : ℕ) :
    (((m.getIndex j).any fun l => l.1 == k) || m.containsKey k) = m.containsKey k := by
  cases hkey : m.containsKey k with
  | true => simp
  | false =>
    rw [Bool.or_false, Bool.eq_false_iff]
    intro hany
    obtain ⟨l, hget, hl⟩ := (Option.any_eq_true _ _).mp hany
    have hmem := OrderedMap.mem_keys_of_mem (List.mem_of_getElem? hget)
    rw [beq_iff_eq.mp hl, ← OrderedMap.containsKey_iff, hkey] at hmem
    exact absurd hmem (by simp)

omit [DecidableEq Atomic] [DecidableEq Union] [TType Atomic] [TType Union] in
theorem all_zipIdx_eq {α : Type} {p : α × ℕ → Bool} {q : α → Bool} (h : ∀ x j, p (x, j) = q x)
    (xs : List α) : xs.zipIdx.all p = xs.all q := by
  have hq : p = q ∘ Prod.fst := funext fun x => h x.1 x.2
  rw [hq, ← List.all_map, List.zipIdx_map_fst]

omit [DecidableEq Atomic] [DecidableEq Union] [TType Atomic] [TType Union] in
theorem contains_eq (c other : Clause Atomic Union) : c.contains other = contains c other := by
  unfold Clause.contains contains
  split
  · rename_i hlen
    simp [Nat.not_le.mpr hlen]
  · rename_i hlen
    rw [decide_eq_true (Nat.le_of_not_lt hlen), Bool.true_and]
    apply all_zipIdx_eq
    intro e i
    dsimp only
    rw [OrderedMap.getIndexOr_eq]
    cases c.possibilities.get? e.1 with
    | none => rfl
    | some localPossibilities =>
      exact all_zipIdx_eq (fun k j => any_getIndex_or localPossibilities k j) e.2.keys

/-! ## Resolution -/

/-- What leaves the later clauses that `laterMatching` links to. -/
def linked (S : FixedState) (a : Clause Atomic Union) (b : Clause Atomic Union × ℕ) : Bool :=
  resolvable a && resolvable b.1 && keySignature S b.1 == keySignature S a

omit [DecidableEq Atomic] [DecidableEq Union] [TType Atomic] [TType Union] in
theorem laterMatching_eq (unique : List (Clause Atomic Union)) (i : ℕ)
    (a : Clause Atomic Union) :
    laterMatching S unique i a = (laterClauses unique i a).filter (linked S a) := by
  unfold laterMatching laterClauses linked
  cases ha : resolvable a with
  | false => simp
  | true =>
    rw [if_pos rfl, List.filter_filter]
    apply List.filter_congr
    intro b _
    simp only [Bool.true_and]
    cases hb : resolvable b.1 with
    | false => simp
    | true =>
      have helig : b.1.eligible = true := (Bool.and_eq_true_iff.mp hb).1
      cases hsig : keySignature S b.1 == keySignature S a with
      | false => simp
      | true =>
        have hlen : b.1.possibilities.len = a.possibilities.len :=
          congrArg Prod.fst (beq_iff_eq.mp hsig)
        simp [helig, hlen]

omit [TType Atomic] [TType Union] in
/-- Clauses that resolve have the same variables, and more than one. -/
theorem linked_of_opposingKey {a b : Clause Atomic Union} {j : ℕ} {key : Word}
    (ha : a.eligible = true) (hsimple : simpleLiteral a = none) (hb : b.eligible = true)
    (hlen : b.possibilities.len = a.possibilities.len)
    (h : Algebra.opposingKey a b = some (some key)) : linked S a (b, j) = true := by
  obtain ⟨hall, hr⟩ := opposingKeyFrom_spec h
  obtain ⟨-, e, he, bs, -, -, hneg⟩ := hr.resolve_left (Option.some_ne_none key)
  obtain ⟨k, x, -, -, hsingle, -⟩ := singletonNegation_spec hneg
  have hmany : 1 < a.possibilities.len := by
    by_contra hle
    have hpos : 0 < a.possibilities.len := List.length_pos_of_mem he
    have hentries := OrderedMap.entries_of_len_eq_one (by omega) he
    obtain ⟨v, as⟩ := e
    dsimp only at hsingle
    simp [simpleLiteral, hentries, hsingle] at hsimple
  have hsub : a.possibilities.keys ⊆ b.possibilities.keys := by
    intro v hv
    obtain ⟨as, has⟩ := OrderedMap.mem_keys.mp hv
    obtain ⟨bs, hget, -⟩ := hall _ has
    exact OrderedMap.mem_keys_of_mem (OrderedMap.get?_eq_some_iff.mp hget)
  have hperm : a.possibilities.keys.Perm b.possibilities.keys := by
    apply (List.subperm_of_subset a.possibilities.nodup hsub).perm_of_length_le
    simp only [OrderedMap.keys, List.length_map]
    exact hlen.le
  have hxor : keySignature S b = keySignature S a := by
    unfold keySignature
    rw [hlen, hperm.foldl_eq' fun k _ l _ h => by
      rw [UInt64.xor_assoc, UInt64.xor_comm (S.hashOne k), ← UInt64.xor_assoc]]
  simp only [linked, resolvable, ha, hb, hlen, hmany, hxor, decide_true, Bool.true_and,
    beq_self_eq_true]

omit [TType Atomic] [TType Union] in
/-- Clauses that do not oppose may be left out. -/
theorem resolve_filter {a : Clause Atomic Union} {i : ℕ}
    {keep : Clause Atomic Union × ℕ → Bool} {bs : List (Clause Atomic Union × ℕ)}
    (h : ∀ b ∈ bs, ∀ key, Algebra.opposingKey a b.1 = some (some key) → keep b = true)
    (p : Progress Atomic Union) :
    Algebra.resolve S a i (bs.filter keep) p = resolve S a i bs p := by
  induction bs generalizing p with
  | nil => rfl
  | cons b bs ih =>
    have hrest : ∀ q, Algebra.resolve S a i (bs.filter keep) q = resolve S a i bs q :=
      ih fun c hc => h c (List.mem_cons_of_mem b hc)
    cases hkeep : keep b with
    | true =>
      rw [List.filter_cons_of_pos hkeep]
      rw [Algebra.resolve, resolve, opposingKey_eq]
      cases hopp : opposingKey a b.1 with
      | none => simp only [hrest]
      | some opposing =>
        cases opposing with
        | none => simp only [hrest]
        | some key =>
          cases hkey : a.removePossibilities S key <;> simp only [hkey, hrest]
    | false =>
      rw [List.filter_cons_of_neg (by simp [hkeep]), hrest]
      simp only [resolve]
      split
      · rfl
      · cases hopp : opposingKey a b.1 with
        | none => rfl
        | some opposing =>
          cases opposing with
          | none => rfl
          | some key =>
            have := h b List.mem_cons_self key (by rw [opposingKey_eq, hopp])
            rw [hkeep] at this
            exact absurd this (by simp)

omit [TType Atomic] [TType Union] in
theorem resolve_eq_of_simple {unique : List (Clause Atomic Union)} {a : Clause Atomic Union} {i : ℕ}
    (ha : a.eligible = true) (hsimple : simpleLiteral a = none) (p : Progress Atomic Union) :
    Algebra.resolve S a i (laterMatching S unique i a) p =
      resolve S a i (laterClauses unique i a) p := by
  rw [laterMatching_eq]
  apply resolve_filter
  intro b hb key hopp
  simp only [laterClauses, List.mem_filter, Bool.and_eq_true, beq_iff_eq] at hb
  exact linked_of_opposingKey ha hsimple hb.2.1.2 hb.2.2 hopp

/-! ## Unit propagation -/

omit [DecidableEq Atomic] [DecidableEq Union] [TType Atomic] [TType Union] in
/-- A clause with the negated literal puts it into the index. -/
theorem mem_literalIndex {unique : List (Clause Atomic Union)} {b : Clause Atomic Union}
    {v : Word} {h : UInt64} {clauses : List (Clause Atomic Union)} (hb : b ∈ unique)
    (helig : b.eligible = true) (hinto : propagateInto S v h b = some clauses) :
    (v, h) ∈ literalIndex unique := by
  unfold propagateInto at hinto
  cases hget : b.possibilities.get? v with
  | none => simp [hget] at hinto
  | some matching =>
    cases hkey : matching.containsKey h with
    | false => simp [hget, hkey] at hinto
    | true =>
      have hentry : (v, matching) ∈ b.possibilities.entries :=
        OrderedMap.get?_eq_some_iff.mp hget
      simp only [literalIndex, List.mem_flatMap, List.mem_filter, List.mem_map]
      exact ⟨b, ⟨hb, helig⟩, (v, matching), hentry, h, OrderedMap.containsKey_iff.mp hkey, rfl⟩

omit [DecidableEq Atomic] [DecidableEq Union] [TType Atomic] [TType Union] in
theorem propagateUnit_of_none {v : Word} {h : UInt64} {i : ℕ}
    {bs : List (Clause Atomic Union × ℕ)}
    (hnone : ∀ b ∈ bs, i ≠ b.2 → b.1.eligible = true → propagateInto S v h b.1 = none)
    (p : Progress Atomic Union) : propagateUnit S v h i bs p = p := by
  induction bs with
  | nil => rfl
  | cons b bs ih =>
    have hrest := ih fun c hc => hnone c (List.mem_cons_of_mem b hc)
    unfold propagateUnit
    split
    · exact hrest
    · rename_i hscan
      simp only [Bool.or_eq_true, not_or, beq_iff_eq, Bool.not_eq_true', Bool.not_eq_false]
        at hscan
      rw [hnone b List.mem_cons_self hscan.1.1 hscan.2]
      exact hrest

theorem simplifyStep_eq (unique : List (Clause Atomic Union)) (p : Progress Atomic Union)
    (a : Clause Atomic Union × ℕ) :
    Algebra.simplifyStep S unique p a = simplifyStep S unique p a := by
  unfold Algebra.simplifyStep simplifyStep
  cases ha : a.1.eligible with
  | false => rfl
  | true =>
    simp only [Bool.not_true, Bool.false_eq_true, if_false]
    cases hsimple : simpleLiteral a.1 with
    | none => exact resolve_eq_of_simple ha hsimple p
    | some literal =>
      obtain ⟨v, t⟩ := literal
      dsimp only
      split
      · rfl
      · rename_i hindex
        symm
        apply propagateUnit_of_none
        intro b hb _ helig
        cases hinto : propagateInto S v (t.negatedHash S) b.1 with
        | none => rfl
        | some clauses =>
          have hmem := List.mem_of_getElem? (List.mem_zipIdx_iff_getElem?.mp hb)
          have := mem_literalIndex hmem helig hinto
          exact absurd (List.contains_iff_mem.mpr this) hindex

theorem simplify_eq (unique : List (Clause Atomic Union)) :
    Algebra.simplify S unique = simplify S unique := by
  have hstep : Algebra.simplifyStep S unique = simplifyStep S unique :=
    funext fun p => funext fun a => simplifyStep_eq unique p a
  rw [Algebra.simplify, simplify, hstep]

/-! ## Common consequences -/

/-- Implications come from clauses of two variables. -/
theorem collectImplications_of_not_resolvable {clause : Clause Atomic Union}
    (h : resolvable clause = false) (implications : Implications Atomic Union) :
    collectImplications S implications clause = implications := by
  unfold collectImplications
  split
  · rfl
  · rename_i helig
    split
    · rename_i first second hentries
      have hlen : clause.possibilities.len = 2 := by simp [OrderedMap.len, hentries]
      simp only [Bool.not_eq_true', Bool.not_eq_false] at helig
      simp [resolvable, helig, hlen] at h
    · rfl

theorem foldl_collectImplications {clauses : List (Clause Atomic Union)}
    (h : ∀ c ∈ clauses, resolvable c = false) (implications : Implications Atomic Union) :
    clauses.foldl (collectImplications S) implications = implications := by
  induction clauses with
  | nil => rfl
  | cons c clauses ih =>
    rw [List.foldl_cons, collectImplications_of_not_resolvable (h c List.mem_cons_self)]
    exact ih fun d hd => h d (List.mem_cons_of_mem c hd)

omit [DecidableEq Atomic] [DecidableEq Union] [TType Atomic] [TType Union] in
theorem inferFrom_empty (s : Inference Atomic Union) (clause : Clause Atomic Union) :
    inferFrom S .empty s clause = s := by
  unfold inferFrom
  split
  · rfl
  split
  · rfl
  split
  · rfl
  split <;> rfl

theorem inferCommonConsequences_of_not_resolvable {clauses : List (Clause Atomic Union)}
    (h : ∀ c ∈ clauses, resolvable c = false) : inferCommonConsequences S clauses = [] := by
  have hfold : ∀ (cs : List (Clause Atomic Union)) (s : Inference Atomic Union),
      cs.foldl (inferFrom S .empty) s = s := by
    intro cs
    induction cs with
    | nil => exact fun _ => rfl
    | cons c cs ih =>
      intro s
      rw [List.foldl_cons, inferFrom_empty]
      exact ih s
  unfold inferCommonConsequences
  dsimp only
  rw [foldl_collectImplications h, hfold]

theorem addedClauses_eq (consensusLimit : ℕ) (unique : List (Clause Atomic Union)) :
    Algebra.addedClauses S consensusLimit unique = addedClauses S consensusLimit unique := by
  unfold Algebra.addedClauses addedClauses
  rw [simplify_eq]
  congr 1
  cases hany : unique.any resolvable with
  | true => simp
  | false =>
    have hnone : ∀ c ∈ unique, resolvable c = false := by
      intro c hc
      simpa using List.any_eq_false.mp hany c hc
    simp [inferCommonConsequences_of_not_resolvable hnone]

theorem combinedClauses_eq (consensusLimit : ℕ) (unique : List (Clause Atomic Union)) :
    Algebra.combinedClauses S consensusLimit unique = combinedClauses S consensusLimit unique := by
  unfold Algebra.combinedClauses combinedClauses Algebra.keptClauses keptClauses
  rw [addedClauses_eq, simplify_eq]

/-! ## Absorption -/

omit [DecidableEq Atomic] [DecidableEq Union] [TType Atomic] [TType Union] in
theorem maskBit_ne_zero (v : Word) : maskBit S v ≠ 0 := one_shiftLeft_ne_zero _

omit [DecidableEq Atomic] [DecidableEq Union] [TType Atomic] [TType Union] in
theorem variableMask_eq (c : Clause Atomic Union) :
    variableMask S c = mask (maskBit S) c.possibilities.keys := rfl

omit [DecidableEq Atomic] [DecidableEq Union] [TType Atomic] [TType Union] in
theorem keys_subset_of_contains {c other : Clause Atomic Union} (h : contains c other = true) :
    other.possibilities.keys ⊆ c.possibilities.keys := by
  intro v hv
  obtain ⟨as, has⟩ := OrderedMap.mem_keys.mp hv
  have hall := List.all_eq_true.mp (Bool.and_eq_true_iff.mp h).2 _ has
  obtain ⟨cs, hget, -⟩ := (Option.any_eq_true _ _).mp hall
  exact OrderedMap.mem_keys_of_mem (OrderedMap.get?_eq_some_iff.mp hget)

omit [DecidableEq Atomic] [DecidableEq Union] [TType Atomic] [TType Union] in
/-- The masks let every part of a clause through. -/
theorem absorbs_eq (b a : Clause Atomic Union) : Algebra.absorbs S b a = absorbs b a := by
  unfold Algebra.absorbs absorbs
  rw [contains_eq]
  cases hcontains : contains a b with
  | false => simp
  | true =>
    have hmask : variableMask S a &&& variableMask S b = variableMask S b := by
      rw [variableMask_eq, variableMask_eq]
      exact mask_and_mask_of_subset (keys_subset_of_contains hcontains)
    simp [hmask, ← decide_not]

omit [DecidableEq Atomic] [DecidableEq Union] [TType Atomic] [TType Union] in
theorem absorb_eq {combined : List (Clause Atomic Union)} (h : sizeOne combined = false) :
    Algebra.absorb S combined = absorb combined := by
  unfold Algebra.absorb absorb
  simp only [absorbs_eq, h, Bool.false_eq_true, if_false]

/-! ## Consensus -/

omit [TType Atomic] [TType Union] in
theorem commonNegatedKeys_eq (a b : Clause Atomic Union) :
    Algebra.commonNegatedKeys a b = commonNegatedKeys a b := by
  unfold Algebra.commonNegatedKeys commonNegatedKeys
  simp only [OrderedMap.getIndexOr_eq]
  have hfilter : ∀ (es : List (Word × Assertions Atomic Union)) (n : ℕ)
      (q : Word × Assertions Atomic Union → Bool),
      ((es.zipIdx n).filter fun x => q x.1).map (fun x => x.1.1) = (es.filter q).map Prod.fst := by
    intro es n q
    induction es generalizing n with
    | nil => rfl
    | cons e es ih =>
      cases hq : q e with
      | true => simp [hq, ih]
      | false => simp [hq, ih]
  exact hfilter a.possibilities.entries 0 fun e =>
    e.2.len == 1 && (b.possibilities.get? e.1).any (singletonNegation e.2)

omit [DecidableEq Atomic] [DecidableEq Union] [TType Atomic] [TType Union] in
theorem singletonMask_eq (c : Clause Atomic Union) :
    singletonMask S c = mask (maskBit S)
      ((c.possibilities.entries.filter fun e => e.2.len == 1).map Prod.fst) := by
  unfold singletonMask mask
  rw [List.foldl_map]

omit [TType Atomic] [TType Union] in
/-- Clauses that oppose on a variable share its bit. -/
theorem singletonMask_and_ne_zero {a b : Clause Atomic Union} {v : Word}
    (h : v ∈ commonNegatedKeys a b) : singletonMask S a &&& singletonMask S b ≠ 0 := by
  obtain ⟨⟨w, as⟩, hmem, rfl⟩ := List.mem_map.mp h
  obtain ⟨has, hopp⟩ := List.mem_filter.mp hmem
  obtain ⟨hlen, hany⟩ := Bool.and_eq_true_iff.mp hopp
  obtain ⟨bs, hget, hneg⟩ := (Option.any_eq_true _ _).mp hany
  obtain ⟨-, -, k, y, -, hbs, -⟩ := singletonNegation_spec hneg
  rw [singletonMask_eq, singletonMask_eq]
  refine mask_and_mask_ne_zero (maskBit_ne_zero w) ?_ ?_
  · exact List.mem_map.mpr ⟨(w, as), List.mem_filter.mpr ⟨has, hlen⟩, rfl⟩
  · refine List.mem_map.mpr ⟨(w, bs), List.mem_filter.mpr
      ⟨OrderedMap.get?_eq_some_iff.mp hget, ?_⟩, rfl⟩
    simp [OrderedMap.len, hbs]

omit [TType Atomic] [TType Union] in
theorem consensusHash_eq (a b : Clause Atomic Union) :
    Algebra.consensusHash S a b = consensusHash S a b := by
  unfold Algebra.consensusHash consensusHash
  rw [commonNegatedKeys_eq]
  split
  · rename_i hmask
    have hempty : commonNegatedKeys a b = [] := by
      apply List.eq_nil_iff_forall_not_mem.mpr
      intro v hv
      exact singletonMask_and_ne_zero hv (beq_iff_eq.mp hmask)
    simp [hempty]
  · rfl

omit [TType Atomic] [TType Union] in
theorem removedHashes_eq (clauses : List (Clause Atomic Union)) :
    Algebra.removedHashes S clauses = removedHashes S clauses := by
  have hhash : ∀ a : Clause Atomic Union, Algebra.consensusHash S a = consensusHash S a :=
    fun a => funext fun b => consensusHash_eq a b
  induction clauses with
  | nil => rfl
  | cons a rest ih => rw [Algebra.removedHashes, removedHashes, ih, hhash]

/-! ## The shortcuts -/

omit [TType Atomic] [TType Union] in
theorem resolve_of_not_opposing {a : Clause Atomic Union} {i : ℕ}
    {bs : List (Clause Atomic Union × ℕ)}
    (h : ∀ b ∈ bs, ∀ key, opposingKey a b.1 ≠ some (some key)) (p : Progress Atomic Union) :
    resolve S a i bs p = p := by
  have hfilter : Algebra.resolve S a i (bs.filter fun _ => false) p = resolve S a i bs p :=
    resolve_filter
      (fun b hb key hopp => absurd ((opposingKey_eq a b.1).symm.trans hopp) (h b hb key)) p
  rw [← hfilter, List.filter_false]
  rfl

/-- A clause whose variables the other clauses do not have simplifies none of them. -/
theorem simplifyStep_of_apart {unique : List (Clause Atomic Union)} {a : Clause Atomic Union}
    {i : ℕ} {v : Word} {as : Assertions Atomic Union}
    (ha : a.possibilities.entries = [(v, as)])
    (h : ∀ b j, (b, j) ∈ unique.zipIdx → i ≠ j → b.possibilities.get? v = none)
    (p : Progress Atomic Union) : simplifyStep S unique p (a, i) = p := by
  unfold simplifyStep
  split
  · rfl
  cases hsimple : simpleLiteral a with
  | none =>
    apply resolve_of_not_opposing
    intro b hb key hopp
    simp only [laterClauses, List.mem_filter, Bool.and_eq_true, decide_eq_true_eq] at hb
    have hnone := h b.1 b.2 hb.1 (by omega)
    simp [opposingKey, ha, opposingKeyFrom, hnone] at hopp
  | some literal =>
    obtain ⟨w, t⟩ := literal
    obtain ⟨k, ⟨m, hm, -⟩, -⟩ := simpleLiteral_spec hsimple
    rw [ha, List.mem_singleton] at hm
    obtain ⟨rfl, -⟩ := Prod.mk.inj hm
    apply propagateUnit_of_none
    intro b hb hij _
    simp [propagateInto, h b.1 b.2 hb hij]

omit [DecidableEq Atomic] [DecidableEq Union] [TType Atomic] [TType Union] in
theorem independentPair_spec {unique : List (Clause Atomic Union)}
    (h : independentPair unique = true) :
    ∃ a b v w as bs, unique = [a, b] ∧ a.possibilities.entries = [(v, as)] ∧
      b.possibilities.entries = [(w, bs)] ∧ v ≠ w := by
  unfold independentPair at h
  split at h
  · rename_i a b
    simp only [Bool.and_eq_true, beq_iff_eq, bne_iff_ne, ne_eq] at h
    obtain ⟨⟨ha, hb⟩, hne⟩ := h
    obtain ⟨⟨v, as⟩, has⟩ := List.length_eq_one_iff.mp ha
    obtain ⟨⟨w, bs⟩, hbs⟩ := List.length_eq_one_iff.mp hb
    refine ⟨a, b, v, w, as, bs, rfl, has, hbs, ?_⟩
    intro hvw
    exact hne (by simp [OrderedMap.first, has, hbs, hvw])
  · cases h

/-- Two clauses of one variable each, on different variables, are simplified no further. -/
theorem combinedClauses_of_independentPair {consensusLimit : ℕ}
    {unique : List (Clause Atomic Union)} (h : independentPair unique = true) :
    combinedClauses S consensusLimit unique = unique := by
  obtain ⟨a, b, v, w, as, bs, rfl, has, hbs, hvw⟩ := independentPair_spec h
  have hgetb : b.possibilities.get? v = none := by
    apply OrderedMap.get?_eq_none_iff.mpr
    simpa [OrderedMap.keys, hbs] using hvw
  have hgeta : a.possibilities.get? w = none := by
    apply OrderedMap.get?_eq_none_iff.mpr
    simpa [OrderedMap.keys, has] using hvw.symm
  have hpair : ∀ c j, (c, j) ∈ [a, b].zipIdx → c = a ∧ j = 0 ∨ c = b ∧ j = 1 := by
    intro c j hc
    simpa [List.zipIdx] using hc
  have hsimplify : simplify S [a, b] = ⟨[false, false], []⟩ := by
    change simplifyStep S [a, b] (simplifyStep S [a, b] ⟨[false, false], []⟩ (a, 0)) (b, 1) = _
    rw [simplifyStep_of_apart has, simplifyStep_of_apart hbs]
    · intro c j hc hj
      obtain ⟨rfl, -⟩ | ⟨-, rfl⟩ := hpair c j hc
      · exact hgeta
      · exact absurd rfl hj
    · intro c j hc hj
      obtain ⟨-, rfl⟩ | ⟨rfl, -⟩ := hpair c j hc
      · exact absurd rfl hj
      · exact hgetb
  simp [combinedClauses, keptClauses, addedClauses, hsimplify, Progress.isRemoved, uniqueFrom]

/-- All clauses count as clauses of one variable, and absorption or the consensus rule would
drop one of them. -/
def ShortcutSkips (S : FixedState) (consensusLimit : ℕ) (combined : List (Clause Atomic Union)) :
    Prop :=
  sizeOne combined = true ∧
    ((∃ a ∈ combined, ∃ b ∈ combined, a.wedge = false ∧ a.reconcilable = false ∧
        1 < a.possibilities.len ∧ b.eligible = true ∧ contains a b = true) ∨
      2 < combined.length ∧ combined.length < consensusLimit ∧ ∃ f ∈ combined, ∃ a b,
        [a, b].Sublist combined ∧ consensusHash S a b = some f.hash)

omit [TType Atomic] [TType Union] in
theorem mem_removedHashes {clauses : List (Clause Atomic Union)} {hash : UInt32} :
    hash ∈ removedHashes S clauses ↔
      ∃ a b, [a, b].Sublist clauses ∧ consensusHash S a b = some hash := by
  induction clauses with
  | nil => simp [removedHashes]
  | cons c rest ih =>
    rw [removedHashes, List.mem_append, ih, List.mem_filterMap]
    constructor
    · intro h
      obtain ⟨b, hb, hhash⟩ | ⟨a, b, hsub, hhash⟩ := h
      · exact ⟨c, b, (List.singleton_sublist.mpr hb).cons_cons c, hhash⟩
      · exact ⟨a, b, hsub.cons c, hhash⟩
    · intro h
      obtain ⟨a, b, hsub, hhash⟩ := h
      obtain hsub | ⟨rfl, hb⟩ := List.cons_sublist_cons'.mp hsub
      · exact .inr ⟨a, b, hsub, hhash⟩
      · exact .inl ⟨b, List.singleton_sublist.mp hb, hhash⟩

omit [DecidableEq Atomic] [DecidableEq Union] [TType Atomic] [TType Union] in
theorem len_of_sizeOne {combined : List (Clause Atomic Union)} (h : sizeOne combined = true)
    {c : Clause Atomic Union} (hc : c ∈ combined) :
    c.wedge = true ∨ c.reconcilable = false ∨ c.possibilities.len = 1 := by
  have hsize := List.all_eq_true.mp h c hc
  simpa [or_assoc] using hsize

omit [DecidableEq Atomic] [DecidableEq Union] [TType Atomic] [TType Union] in
theorem len_of_eligible {combined : List (Clause Atomic Union)} (h : sizeOne combined = true)
    {c : Clause Atomic Union} (hc : c ∈ combined) (helig : c.eligible = true) :
    c.possibilities.len = 1 := by
  simp only [Clause.eligible, Bool.and_eq_true, Bool.not_eq_true'] at helig
  simpa [helig] using len_of_sizeOne h hc

omit [DecidableEq Atomic] [DecidableEq Union] [TType Atomic] [TType Union] in
/-- Where all clauses count as clauses of one variable, absorption still fires on clauses that
are not reconcilable. -/
theorem absorb_eq_self_iff {combined : List (Clause Atomic Union)} (h : sizeOne combined = true) :
    absorb combined = combined ↔
      ¬ ∃ a ∈ combined, ∃ b ∈ combined, a.wedge = false ∧ a.reconcilable = false ∧
        1 < a.possibilities.len ∧ b.eligible = true ∧ contains a b = true := by
  constructor
  · intro hself hskip
    obtain ⟨a, ha, b, hb, hwedge, -, hlen, helig, hcontains⟩ := hskip
    obtain ⟨i, hi⟩ := List.mem_iff_getElem?.mp ha
    obtain ⟨j, hj⟩ := List.mem_iff_getElem?.mp hb
    have hone := len_of_eligible h hb helig
    have hij : i ≠ j := by
      intro hij
      rw [hij, hj] at hi
      rw [← Option.some.inj hi] at hlen
      omega
    have hdropped : (a.wedge || !combined.zipIdx.any fun x =>
        i != x.2 && absorbs x.1 a) = false := by
      simp only [hwedge, Bool.false_or, Bool.not_eq_false', List.any_eq_true]
      exact ⟨(b, j), List.mem_zipIdx_iff_getElem?.mpr hj, by
        simp [absorbs, hij, helig, hone, hlen, hcontains]⟩
    have hshorter : (absorb combined).length < combined.length := by
      have hlt := List.length_filter_lt_length_iff_exists (l := combined.zipIdx)
        (p := fun x => x.1.wedge || !combined.zipIdx.any fun y => x.2 != y.2 && absorbs y.1 x.1)
      have := hlt.mpr ⟨(a, i), List.mem_zipIdx_iff_getElem?.mpr hi, by simpa using hdropped⟩
      simpa [absorb] using this
    rw [hself] at hshorter
    omega
  · intro hskip
    have hall : ∀ x ∈ combined.zipIdx, (x.1.wedge || !combined.zipIdx.any fun y =>
        x.2 != y.2 && absorbs y.1 x.1) = true := by
      intro x hx
      by_contra hdropped
      simp only [Bool.not_eq_true, Bool.or_eq_false_iff, Bool.not_eq_false', List.any_eq_true,
        Bool.and_eq_true] at hdropped
      obtain ⟨hwedge, y, hy, -, habsorbs⟩ := hdropped
      simp only [absorbs, Bool.and_eq_true, decide_eq_true_eq] at habsorbs
      obtain ⟨⟨helig, hlen⟩, hcontains⟩ := habsorbs
      have hx' := List.mem_of_getElem? (List.mem_zipIdx_iff_getElem?.mp hx)
      have hy' := List.mem_of_getElem? (List.mem_zipIdx_iff_getElem?.mp hy)
      have hone := len_of_eligible h hy' helig
      have hreconcilable : x.1.reconcilable = false := by
        obtain hw | hr | hlen' := len_of_sizeOne h hx'
        · simp [hwedge] at hw
        · exact hr
        · omega
      exact hskip ⟨x.1, hx', y.1, hy', hwedge, hreconcilable, by omega, helig, hcontains⟩
    unfold absorb
    rw [List.filter_eq_self.mpr hall, List.zipIdx_map_fst]

omit [TType Atomic] [TType Union] in
theorem removeConsensus_eq_self_iff {consensusLimit : ℕ} {simplified : List (Clause Atomic Union)} :
    removeConsensus S consensusLimit simplified = simplified ↔
      ¬ (2 < simplified.length ∧ simplified.length < consensusLimit ∧ ∃ f ∈ simplified, ∃ a b,
        [a, b].Sublist simplified ∧ consensusHash S a b = some f.hash) := by
  unfold removeConsensus
  by_cases hlen : 2 < simplified.length ∧ simplified.length < consensusLimit
  · simp only [hlen.1, hlen.2, decide_true, Bool.and_self, if_true, true_and, not_exists]
    rw [List.filter_eq_self]
    simp only [← mem_removedHashes, Bool.not_eq_true', List.contains_eq_mem,
      decide_eq_false_iff_not, not_and]
  · have hguard : ¬ (decide (simplified.length > 2) &&
        decide (simplified.length < consensusLimit)) = true := by simpa using hlen
    rw [if_neg hguard]
    refine iff_of_true rfl ?_
    intro h
    exact hlen ⟨h.1, h.2.1⟩

omit [DecidableEq Atomic] [DecidableEq Union] [TType Atomic] [TType Union] in
theorem absorb_sublist (combined : List (Clause Atomic Union)) :
    (absorb combined).Sublist combined := by
  have hsub := List.Sublist.map Prod.fst (List.filter_sublist (l := combined.zipIdx)
    (p := fun x => x.1.wedge || !combined.zipIdx.any fun y => x.2 != y.2 && absorbs y.1 x.1))
  rwa [List.zipIdx_map_fst] at hsub

omit [TType Atomic] [TType Union] in
theorem removeConsensus_sublist (consensusLimit : ℕ) (simplified : List (Clause Atomic Union)) :
    (removeConsensus S consensusLimit simplified).Sublist simplified := by
  unfold removeConsensus
  split
  · exact List.filter_sublist
  · exact .refl _

omit [TType Atomic] [TType Union] in
/-- Absorption and consensus keep the same clauses, unless the shortcut passes over one. -/
theorem removeConsensus_absorb_eq_iff {consensusLimit : ℕ}
    {combined : List (Clause Atomic Union)} :
    Algebra.removeConsensus S consensusLimit combined (Algebra.absorb S combined) =
        removeConsensus S consensusLimit (absorb combined) ↔
      ¬ ShortcutSkips S consensusLimit combined := by
  cases hsize : sizeOne combined with
  | false =>
    refine iff_of_true ?_ ?_
    · unfold Algebra.removeConsensus removeConsensus
      rw [absorb_eq hsize, removedHashes_eq, hsize]
      simp
    · intro hskips
      rw [ShortcutSkips, hsize] at hskips
      exact absurd hskips.1 (by simp)
  | true =>
    have hfast : Algebra.removeConsensus S consensusLimit combined
        (Algebra.absorb S combined) = combined := by
      simp [Algebra.removeConsensus, Algebra.absorb, hsize]
    rw [hfast, ShortcutSkips, hsize]
    simp only [true_and, not_or]
    rw [← absorb_eq_self_iff hsize, ← removeConsensus_eq_self_iff]
    constructor
    · intro h
      have hsub : combined.Sublist (absorb combined) := by
        nth_rewrite 1 [h]
        exact removeConsensus_sublist _ _
      have hself := (absorb_sublist combined).antisymm hsub
      rw [hself] at h
      exact ⟨hself, h.symm⟩
    · intro h
      rw [h.1, h.2]

/-- The accelerated pass returns what the plain rules return iff the shortcut for clauses of one
variable, where it is taken, passes over no clause. -/
theorem saturateClauses_eq_iff {thresholds : AlgebraThresholds}
    {clauses : List (Clause Atomic Union)} :
    Algebra.saturateClauses S thresholds clauses = saturateClauses S thresholds clauses ↔
      ¬ (1 < (uniqueFrom [] clauses).length ∧
        (uniqueFrom [] clauses).length ≤ thresholds.saturationComplexity.toNat ∧
        ShortcutSkips S thresholds.consensusLimit.toNat
          (Algebra.combinedClauses S thresholds.consensusLimit.toNat (uniqueFrom [] clauses))) := by
  unfold Algebra.saturateClauses saturateClauses
  generalize uniqueFrom [] clauses = unique
  unfold Algebra.saturateInner saturateInner
  by_cases hempty : unique.length = 0 ∨ unique.length > thresholds.saturationComplexity.toNat
  · rw [if_pos hempty, if_pos hempty]
    refine iff_of_true rfl ?_
    omega
  rw [if_neg hempty, if_neg hempty]
  by_cases hone : unique.length = 1
  · rw [if_pos hone, if_pos hone]
    refine iff_of_true rfl ?_
    omega
  rw [if_neg hone, if_neg hone]
  have hlarge : 1 < unique.length ∧ unique.length ≤ thresholds.saturationComplexity.toNat := by
    omega
  simp only [hlarge.1, hlarge.2, true_and, combinedClauses_eq]
  by_cases hpair : independentPair unique = true
  · rw [if_pos hpair, combinedClauses_of_independentPair hpair,
      ← removeConsensus_absorb_eq_iff, Algebra.removeConsensus, Algebra.absorb]
    obtain ⟨a, b, v, w, as, bs, rfl, has, hbs, -⟩ := independentPair_spec hpair
    have hsize : sizeOne [a, b] = true := by
      simp [sizeOne, OrderedMap.len, has, hbs]
    simp [hsize]
  · rw [if_neg hpair]
    exact removeConsensus_absorb_eq_iff

/-- The clause `$x`, and `$x ∨ $y` as a clause that is not reconcilable. -/
def unreconcilablePair : List (Clause Word Word) :=
  [truthClause byteHash [("$x", true)],
    .new byteHash (truthClause byteHash [("$x", true), ("$y", true)]).possibilities ⟨0, 1⟩ ⟨0, 1⟩
      (some false) (some false) none]

/-- The rules absorb the second clause, the accelerated pass keeps it. -/
theorem shortcut_keeps_absorbed :
    (unreconcilablePair.map Clause.hash).Nodup ∧
      ¬ ∀ (thresholds : AlgebraThresholds) (clauses : List (Clause Word Word)),
        Algebra.saturateClauses byteHash thresholds clauses =
          saturateClauses byteHash thresholds clauses := by
  constructor
  · decide +kernel
  · intro h
    have hlength := congrArg List.length (h .default unreconcilablePair)
    revert hlength
    decide +kernel

end Plain

end Mago.Algebra
