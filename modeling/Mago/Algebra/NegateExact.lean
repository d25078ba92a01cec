import Mago.Algebra.Negate

/-!
# What negation keeps

The impossible clauses hold wherever one of the negated clauses is falsified, as long as no
inserted assertion displaces another one under its key. They hold nowhere else as long as the
loop over the assertions of a variable, which ends at the first opposed one, skips none that
is not opposed.
-/
namespace Mago.Algebra
open Library

variable {Atomic Union : Type} [TType Atomic] [TType Union] {S : FixedState}

/-! ## Negated literals -/

theorem mem_negations {as : Assertions Atomic Union} {n : UInt64 × Assertion Atomic Union} :
    n ∈ negations S as ↔ ∃ l a, (l, a) ∈ as.entries ∧ n = (a.negatedHash S, a.getNegation) := by
  simp only [negations, List.mem_map, OrderedMap.mem_values, Assertion.negatedHash_eq]
  constructor
  · rintro ⟨a, ⟨l, hl⟩, rfl⟩
    exact ⟨l, a, hl, rfl⟩
  · rintro ⟨l, a, hl, rfl⟩
    exact ⟨a, ⟨l, hl⟩, rfl⟩

/-- The literals of the negated units are the negations of the literals of the clauses. -/
theorem clauseLit_negatedUnits {F : List (Clause Atomic Union)} {v : Word} {k : UInt64}
    {n : Assertion Atomic Union} : ClauseLit (F.flatMap (negatedUnits S)) v k n ↔
      ∃ x ∈ clauseLits F, x.1 = v ∧ k = x.2.2.negatedHash S ∧ n = x.2.2.getNegation := by
  rw [clauseLit_iff]
  constructor
  · rintro ⟨u, hu, hl⟩
    obtain ⟨C, hC, hu⟩ := List.mem_flatMap.mp hu
    obtain ⟨e, he, hu⟩ := List.mem_flatMap.mp hu
    obtain ⟨m, hm, rfl⟩ := List.mem_map.mp hu
    obtain ⟨rfl, rfl, rfl⟩ := lit_singleton.mp hl
    obtain ⟨l, a, hla, heq⟩ := mem_negations.mp hm
    exact ⟨(e.1, l, a), clauseLit_iff.mpr ⟨C, hC, e.2, he, hla⟩, rfl,
      congrArg Prod.fst heq, congrArg Prod.snd heq⟩
  · rintro ⟨⟨w, l, a⟩, hx, rfl, rfl, rfl⟩
    obtain ⟨C, hC, m, hm, hla⟩ := clauseLit_iff.mp hx
    refine ⟨_, List.mem_flatMap.mpr ⟨C, hC, List.mem_flatMap.mpr ⟨(w, m), hm,
      List.mem_map.mpr ⟨_, mem_negations.mpr ⟨l, a, hla, rfl⟩, rfl⟩⟩⟩, ?_⟩
    exact lit_singleton.mpr ⟨rfl, rfl, rfl⟩

/-- Every literal of the clause is negated. -/
def NegatedSat (ν : Valuation Atomic Union) (c : Clause Atomic Union) : Prop :=
  ∀ v l a, Lit c.possibilities v l a → ν (v, a.getNegation)

/-- The literals of `g` are negations of literals of the clauses. -/
def Negates (S : FixedState) (F : List (Clause Atomic Union)) (g : Clause Atomic Union) : Prop :=
  ∀ v k n, Lit g.possibilities v k n → ∃ x ∈ clauseLits F, x.1 = v ∧
    k = x.2.2.negatedHash S ∧ n = x.2.2.getNegation

/-- The clause `g` has the negation of a literal from each of the clauses. -/
def Hits (P : List (Clause Atomic Union)) (g : Clause Atomic Union) : Prop :=
  ∀ C ∈ P, ∃ v l a k n, Lit C.possibilities v l a ∧ Lit g.possibilities v k n ∧
    n.Agree a.getNegation

theorem mem_seedClauses {C g : Clause Atomic Union} (hg : g ∈ seedClauses S C) :
    ∃ v l a, Lit C.possibilities v l a ∧ g.possibilities =
      OrderedMap.ofList [(v, OrderedMap.ofList [(a.negatedHash S, a.getNegation)])] := by
  unfold seedClauses at hg
  split_ifs at hg
  · cases hg
  obtain ⟨e, he, hg⟩ := List.mem_flatMap.mp hg
  obtain ⟨m, hm, rfl⟩ := List.mem_map.mp hg
  obtain ⟨l, a, hla, rfl⟩ := mem_negations.mp hm
  exact ⟨e.1, l, a, ⟨e.2, he, hla⟩, rfl⟩

theorem seedClauses_negates {F : List (Clause Atomic Union)} {C g : Clause Atomic Union}
    (hC : C ∈ F) (hg : g ∈ seedClauses S C) : Negates S F g := by
  obtain ⟨v, l, a, hl, heq⟩ := mem_seedClauses hg
  intro w k n hn
  rw [heq] at hn
  obtain ⟨rfl, rfl, rfl⟩ := lit_singleton.mp hn
  exact ⟨(w, l, a), clauseLit_iff.mpr ⟨C, hC, hl⟩, rfl, rfl, rfl⟩

theorem seedClauses_hits {C g : Clause Atomic Union} (hg : g ∈ seedClauses S C) :
    Hits [C] g := by
  obtain ⟨v, l, a, hl, heq⟩ := mem_seedClauses hg
  intro D hD
  obtain rfl := List.mem_singleton.mp hD
  exact ⟨v, l, a, a.negatedHash S, a.getNegation, hl, heq ▸ lit_singleton.mpr ⟨rfl, rfl, rfl⟩,
    Assertion.Agree.refl _⟩

/-- The seeds are all negated literals of a clause that is no wedge. -/
theorem negatedSat_of_seeds {C : Clause Atomic Union} {ν : Valuation Atomic Union}
    (hw : C.wedge = false) (h : ∀ g ∈ seedClauses S C, Holds ν g) : NegatedSat ν C := by
  rintro v l a ⟨m, hm, hla⟩
  have hseed := h (.new S (OrderedMap.ofList [(v, OrderedMap.ofList [(a.negatedHash S,
    a.getNegation)])]) C.conditionSpan C.span none none (some C.generated)) (by
      rw [seedClauses, if_neg (by simp [hw])]
      exact List.mem_flatMap.mpr ⟨(v, m), hm, List.mem_map.mpr
        ⟨_, mem_negations.mpr ⟨l, a, hla, rfl⟩, rfl⟩⟩)
  obtain ⟨w, k, n, hn, hν⟩ := holds_iff.mp hseed
  obtain ⟨rfl, -, rfl⟩ := lit_singleton.mp hn
  exact hν

/-! ## Extension -/

omit [TType Atomic] [TType Union] in
/-- The inserted assertion displaces the one under its key. -/
theorem lit_extendClause {g C : Clause Atomic Union} {v w : Word} {k : UInt64}
    {n : UInt64 × Assertion Atomic Union} {x : Assertion Atomic Union} :
    Lit (extendClause S g C v n).possibilities w k x ↔
      (w = v ∧ k = n.1 ∧ x = n.2) ∨ ¬ (w = v ∧ k = n.1) ∧ Lit g.possibilities w k x := by
  simp only [extendClause, possibilities_new, lit_insert, OrderedMap.mem_insert]
  by_cases hw : w = v
  swap
  · simp [hw]
  subst hw
  have hget : (k, x) ∈ ((g.possibilities.get? w).getD .empty).entries ↔
      Lit g.possibilities w k x := by
    cases hget : g.possibilities.get? w with
    | none =>
      simp only [Option.getD_none, OrderedMap.entries_empty, List.not_mem_nil, false_iff]
      rintro ⟨m, hm, -⟩
      exact OrderedMap.get?_eq_none_iff.mp hget (OrderedMap.mem_keys_of_mem hm)
    | some m => exact (lit_of_get? hget).symm
  by_cases hk : k = n.1
  · subst hk
    simp [Prod.ext_iff]
  · simp [Prod.ext_iff, hk, hget]

variable [DecidableEq Atomic] [DecidableEq Union]

/-- The extensions of a grouped clause that the loops over a clause produce. -/
def extensions (S : FixedState) (clause grouped : Clause Atomic Union) :
    List (Clause Atomic Union) :=
  clause.possibilities.entries.flatMap fun e =>
    ((negations S e.2).takeWhile fun n => !opposed grouped e.1 n.2).map
      (extendClause S grouped clause e.1)

omit [TType Atomic] [TType Union] [DecidableEq Atomic] [DecidableEq Union] in
theorem collect_eq_flatMap {α β : Type} {f : α → ℕ → Option (List β × ℕ)} {h : α → List β}
    (hf : ∀ x n ys m, f x n = some (ys, m) → ys = h x) {xs : List α} {n m : ℕ} {ys : List β}
    (hc : collect f xs n = some (ys, m)) : ys = xs.flatMap h := by
  induction xs generalizing n ys with
  | nil =>
    simp only [collect, Option.some.injEq, Prod.mk.injEq] at hc
    simp [hc.1]
  | cons x xs ih =>
    unfold collect at hc
    split at hc
    · cases hc
    · rename_i zs k hx
      split at hc
      · cases hc
      · rename_i ws k' hxs
        cases hc
        rw [List.flatMap_cons, hf x n zs k hx, ih hxs]

omit [TType Atomic] [TType Union] in
theorem extendVariable_eq {max n m : ℕ} {g C : Clause Atomic Union} {v : Word}
    {ns : List (UInt64 × Assertion Atomic Union)} {out : List (Clause Atomic Union)}
    (h : extendVariable S max g C v ns n = some (out, m)) :
    out = (ns.takeWhile fun x => !opposed g v x.2).map (extendClause S g C v) := by
  induction ns generalizing n out with
  | nil =>
    simp only [extendVariable, Option.some.injEq, Prod.mk.injEq] at h
    simp [h.1]
  | cons x ns ih =>
    unfold extendVariable at h
    split_ifs at h with hmax hopp
    · simp only [Option.some.injEq, Prod.mk.injEq] at h
      simp [hopp, h.1]
    · split at h
      · cases h
      · rename_i out' k hrest
        cases h
        simp [hopp, ih hrest]

theorem distribute_eq {max n m : ℕ} {C : Clause Atomic Union}
    {seeds out : List (Clause Atomic Union)}
    (h : distribute S max C seeds n = some (out, m)) : out = seeds.flatMap (extensions S C) :=
  collect_eq_flatMap (fun _ _ _ _ hg =>
    collect_eq_flatMap (fun _ _ _ _ hv => extendVariable_eq hv) hg) h

theorem mem_extensions {C g g' : Clause Atomic Union} (h : g' ∈ extensions S C g) :
    ∃ e ∈ C.possibilities.entries, ∃ l a, (l, a) ∈ e.2.entries ∧
      (a.negatedHash S, a.getNegation) ∈
        (negations S e.2).takeWhile (fun n => !opposed g e.1 n.2) ∧
      g' = extendClause S g C e.1 (a.negatedHash S, a.getNegation) := by
  obtain ⟨e, he, hg'⟩ := List.mem_flatMap.mp h
  obtain ⟨n, hn, rfl⟩ := List.mem_map.mp hg'
  obtain ⟨l, a, hla, rfl⟩ := mem_negations.mp (List.takeWhile_sublist _ |>.subset hn)
  exact ⟨e, he, l, a, hla, hn, rfl⟩

theorem Negates.extend {F : List (Clause Atomic Union)} {C g g' : Clause Atomic Union}
    (hg : Negates S F g) (hC : C ∈ F) (h : g' ∈ extensions S C g) : Negates S F g' := by
  obtain ⟨e, he, l, a, hla, -, rfl⟩ := mem_extensions h
  intro w k x hx
  rcases lit_extendClause.mp hx with ⟨rfl, rfl, rfl⟩ | ⟨-, hx⟩
  · exact ⟨(e.1, l, a), clauseLit_iff.mpr ⟨C, hC, e.2, he, hla⟩, rfl, rfl, rfl⟩
  · exact hg w k x hx

/-- The insertions into `g` displace no other assertion. -/
def ExtendsSoundly (S : FixedState) (C g : Clause Atomic Union) : Prop :=
  ∀ e ∈ C.possibilities.entries,
    ∀ n ∈ (negations S e.2).takeWhile (fun n => !opposed g e.1 n.2),
    ∀ y ∈ clauseLits [g], y.1 = e.1 → y.2.1 = n.1 → y.2.2.Agree n.2

/-- Where the loop over the assertions of a variable ends, all that remain are opposed. -/
def ExtendsFully (S : FixedState) (C g : Clause Atomic Union) : Prop :=
  ∀ e ∈ C.possibilities.entries, ∀ n ∈ negations S e.2, opposed g e.1 n.2 = false →
    n ∈ (negations S e.2).takeWhile (fun n => !opposed g e.1 n.2)

instance (C g : Clause Atomic Union) : Decidable (ExtendsSoundly S C g) :=
  inferInstanceAs (Decidable (∀ _ ∈ _, _))

instance (C g : Clause Atomic Union) : Decidable (ExtendsFully S C g) :=
  inferInstanceAs (Decidable (∀ _ ∈ _, _))

theorem Hits.extend {P : List (Clause Atomic Union)} {C g g' : Clause Atomic Union}
    (hg : Hits P g) (hsound : ExtendsSoundly S C g) (h : g' ∈ extensions S C g) :
    Hits (C :: P) g' := by
  obtain ⟨e, he, l, a, hla, htake, rfl⟩ := mem_extensions h
  have hnew : Lit (extendClause S g C e.1 (a.negatedHash S, a.getNegation)).possibilities e.1
      (a.negatedHash S) a.getNegation := lit_extendClause.mpr (.inl ⟨rfl, rfl, rfl⟩)
  intro D hD
  rcases List.mem_cons.mp hD with rfl | hD
  · exact ⟨e.1, l, a, _, _, ⟨e.2, he, hla⟩, hnew, Assertion.Agree.refl _⟩
  · obtain ⟨w, l', b, k, n, hb, hn, hagree⟩ := hg D hD
    by_cases hkey : w = e.1 ∧ k = a.negatedHash S
    · obtain ⟨rfl, rfl⟩ := hkey
      have hsame := hsound e he _ htake (e.1, _, n) (mem_clauseLits_singleton.mpr hn) rfl rfl
      exact ⟨e.1, l', b, _, _, hb, hnew, hsame.symm.trans hagree⟩
    · exact ⟨w, l', b, k, n, hb, lit_extendClause.mpr (.inr ⟨hkey, hn⟩), hagree⟩

omit [TType Atomic] [TType Union] in
theorem opposed_eq_true {g : Clause Atomic Union} {v : Word} {n : Assertion Atomic Union} :
    opposed g v n = true ↔ ∃ k x, Lit g.possibilities v k x ∧ x.isNegationOf n = true := by
  simp only [opposed, Option.any_eq_true, List.any_eq_true, OrderedMap.mem_values,
    OrderedMap.get?_eq_some_iff, Lit]
  constructor
  · rintro ⟨m, hm, x, ⟨k, hk⟩, hx⟩
    exact ⟨k, x, ⟨m, hm, hk⟩, hx⟩
  · rintro ⟨k, x, ⟨m, hm, hk⟩, hx⟩
    exact ⟨m, hm, x, ⟨k, hk⟩, hx⟩

/-- When nothing is skipped, the extensions hold only if the grouped clause does or all
literals of the clause are negated. -/
theorem holds_or_of_extensions {ν : Valuation Atomic Union} (hν : Opposing ν)
    {C g : Clause Atomic Union} (hfull : ExtendsFully S C g)
    (h : ∀ g' ∈ extensions S C g, Holds ν g') {v : Word} {l : UInt64}
    {a : Assertion Atomic Union} (hl : Lit C.possibilities v l a) :
    Holds ν g ∨ ν (v, a.getNegation) := by
  obtain ⟨m, hm, hla⟩ := hl
  have hn : (a.negatedHash S, a.getNegation) ∈ negations S m := mem_negations.mpr ⟨l, a, hla, rfl⟩
  cases hopp : opposed g v a.getNegation with
  | false =>
    have htake := hfull (v, m) hm _ hn hopp
    obtain ⟨w, k, x, hx, hνx⟩ := holds_iff.mp
      (h _ (List.mem_flatMap.mpr ⟨(v, m), hm, List.mem_map.mpr ⟨_, htake, rfl⟩⟩))
    rcases lit_extendClause.mp hx with ⟨rfl, -, rfl⟩ | ⟨-, hx⟩
    · exact .inr hνx
    · exact .inl (holds_iff.mpr ⟨w, k, x, hx, hνx⟩)
  | true =>
    -- the skipped clause is a tautology
    obtain ⟨k, x, hx, hneg⟩ := opposed_eq_true.mp hopp
    by_cases hνx : ν (v, x)
    · exact .inl (holds_iff.mpr ⟨v, k, x, hx, hνx⟩)
    · rw [hν v x _ hneg, not_not] at hνx
      exact .inr hνx

/-! ## Distribution -/

/-- The clauses with the grouped clauses that each of them extends. -/
def groupingsFrom (S : FixedState) : List (Clause Atomic Union) → List (Clause Atomic Union) →
    List (Clause Atomic Union × Clause Atomic Union)
  | [], _ => []
  | C :: rest, seeds =>
    seeds.map (fun g => (C, g)) ++ groupingsFrom S rest (seeds.flatMap (extensions S C))

def groupings (S : FixedState) (F : List (Clause Atomic Union)) :
    List (Clause Atomic Union × Clause Atomic Union) :=
  match F.reverse with
  | [] => []
  | C :: rest => groupingsFrom S rest (seedClauses S C)

theorem groupingsFrom_negates {F : List (Clause Atomic Union)}
    {rest seeds : List (Clause Atomic Union)} (hrest : ∀ C ∈ rest, C ∈ F)
    (hseeds : ∀ g ∈ seeds, Negates S F g) :
    ∀ p ∈ groupingsFrom S rest seeds, p.1 ∈ F ∧ Negates S F p.2 := by
  induction rest generalizing seeds with
  | nil => exact fun p hp => by cases hp
  | cons C rest ih =>
    have hC := hrest C List.mem_cons_self
    intro p hp
    rcases List.mem_append.mp hp with hp | hp
    · obtain ⟨g, hg, rfl⟩ := List.mem_map.mp hp
      exact ⟨hC, hseeds g hg⟩
    · refine ih (fun D hD => hrest D (List.mem_cons_of_mem _ hD)) ?_ p hp
      intro g' hg'
      obtain ⟨g, hg, hg'⟩ := List.mem_flatMap.mp hg'
      exact (hseeds g hg).extend hC hg'

theorem groupings_negates {F : List (Clause Atomic Union)} :
    ∀ p ∈ groupings S F, p.1 ∈ F ∧ Negates S F p.2 := by
  unfold groupings
  split
  · exact fun p hp => by cases hp
  · rename_i C rest hF
    have hmem : ∀ D ∈ C :: rest, D ∈ F := fun D hD => List.mem_reverse.mp (hF ▸ hD)
    exact groupingsFrom_negates (fun D hD => hmem D (List.mem_cons_of_mem _ hD))
      fun g hg => seedClauses_negates (hmem C List.mem_cons_self) hg

/-- What holds of the seeds and is kept by extension holds of the impossible clauses. -/
theorem groupFrom_induction {max n : ℕ} {Q : List (Clause Atomic Union) →
    Clause Atomic Union → Prop} {rest P seeds G : List (Clause Atomic Union)}
    (hseeds : ∀ g ∈ seeds, Q P g)
    (hstep : ∀ p ∈ groupingsFrom S rest seeds, ∀ P, Q P p.2 →
      ∀ g' ∈ extensions S p.1 p.2, Q (p.1 :: P) g')
    (h : groupFrom S max rest seeds n = some G) : ∀ g ∈ G, Q (rest.reverse ++ P) g := by
  induction rest generalizing P seeds n with
  | nil =>
    simp only [groupFrom, Option.some.injEq] at h
    intro g hg
    rw [← h] at hg
    exact hseeds g (List.mem_reverse.mp hg)
  | cons C rest ih =>
    unfold groupFrom at h
    split at h
    · cases h
    · rename_i out m hout
      have heq := distribute_eq hout
      have hall := ih (P := C :: P) (fun g' hg' => ?_) (fun p hp => ?_) h
      · simpa using hall
      · rw [heq] at hg'
        obtain ⟨g, hg, hg'⟩ := List.mem_flatMap.mp hg'
        exact hstep (C, g) (List.mem_append_left _ (List.mem_map_of_mem hg)) P (hseeds g hg) g' hg'
      · exact hstep p (List.mem_append_right _ (heq ▸ hp))

theorem groupImpossibilities_induction {F G : List (Clause Atomic Union)} {max : ℕ}
    {Q : List (Clause Atomic Union) → Clause Atomic Union → Prop}
    (hseeds : ∀ C ∈ F, ∀ g ∈ seedClauses S C, Q [C] g)
    (hstep : ∀ p ∈ groupings S F, ∀ P, Q P p.2 → ∀ g' ∈ extensions S p.1 p.2, Q (p.1 :: P) g')
    (h : groupImpossibilities S F max = some G) : ∀ g ∈ G, Q F g := by
  unfold groupImpossibilities at h
  unfold groupings at hstep
  split at h
  · cases h
    simp
  · rename_i C rest hF
    simp only [hF] at hstep
    obtain rfl : F = rest.reverse ++ [C] := by rw [← List.reverse_cons, ← hF, List.reverse_reverse]
    dsimp only at h
    split_ifs at h with hstop
    · cases h
      simp only [Bool.or_eq_true, List.isEmpty_iff] at hstop
      rcases hstop with rfl | hempty
      · simpa using hseeds C (by simp)
      · simp [hempty]
    · exact groupFrom_induction (hseeds C (by simp)) hstep h

/-- Every impossible clause is made of negated literals of the clauses. -/
theorem groupImpossibilities_negates {F G : List (Clause Atomic Union)} {max : ℕ}
    (h : groupImpossibilities S F max = some G) : ∀ g ∈ G, Negates S F g :=
  groupImpossibilities_induction (Q := fun _ g => Negates S F g)
    (fun _ hC _ hg => seedClauses_negates hC hg)
    (fun p hp _ hg _ hg' => hg.extend (groupings_negates p hp).1 hg') h

/-- The impossible clauses hold where one of the clauses is falsified. -/
theorem groupImpossibilities_sound {ν : Valuation Atomic Union} (hν : Opposing ν)
    {F G : List (Clause Atomic Union)} {max : ℕ}
    (hsound : ∀ p ∈ groupings S F, ExtendsSoundly S p.1 p.2)
    (h : groupImpossibilities S F max = some G) {C : Clause Atomic Union} (hC : C ∈ F)
    (hneg : NegatedSat ν C) : ∀ g ∈ G, Holds ν g := by
  have hhits : ∀ g ∈ G, Hits F g := groupImpossibilities_induction (Q := Hits)
    (fun _ _ _ hg => seedClauses_hits hg) (fun p hp _ hg _ hg' => hg.extend (hsound p hp) hg') h
  intro g hg
  obtain ⟨v, l, a, k, n, hl, hn, hagree⟩ := hhits g hg C hC
  exact holds_iff.mpr ⟨v, k, n, hn, (hν.iff_of_agree hagree).mpr (hneg v l a hl)⟩

theorem groupFrom_complete {ν : Valuation Atomic Union} (hν : Opposing ν) {max n : ℕ}
    {rest seeds G : List (Clause Atomic Union)}
    (hfull : ∀ p ∈ groupingsFrom S rest seeds, ExtendsFully S p.1 p.2)
    (h : groupFrom S max rest seeds n = some G) (hG : ∀ g ∈ G, Holds ν g) :
    (∀ g ∈ seeds, Holds ν g) ∨ ∃ C ∈ rest, NegatedSat ν C := by
  induction rest generalizing seeds n with
  | nil =>
    simp only [groupFrom, Option.some.injEq] at h
    exact .inl fun g hg => hG g (h ▸ List.mem_reverse.mpr hg)
  | cons C rest ih =>
    unfold groupFrom at h
    split at h
    · cases h
    · rename_i out m hout
      have heq := distribute_eq hout
      rcases ih (fun p hp => hfull p (List.mem_append_right _ (heq ▸ hp))) h with
        hout' | ⟨D, hD, hneg⟩
      · have hor : (∀ g, g ∈ seeds → Holds ν g) ∨ ∀ x : Word × UInt64 × Assertion Atomic Union,
            Lit C.possibilities x.1 x.2.1 x.2.2 → ν (x.1, x.2.2.getNegation) :=
          forall_or_forall.mp fun g hg x hx => holds_or_of_extensions hν
            (hfull (C, g) (List.mem_append_left _ (List.mem_map_of_mem hg)))
            (fun g' hg' => hout' g' (heq ▸ List.mem_flatMap.mpr ⟨g, hg, hg'⟩)) hx
        exact hor.imp_right fun hneg =>
          ⟨C, List.mem_cons_self, fun v l a hl => hneg (v, l, a) hl⟩
      · exact .inr ⟨D, List.mem_cons_of_mem _ hD, hneg⟩

/-- When nothing is skipped, the impossible clauses hold only where some clause is
falsified. -/
theorem groupImpossibilities_complete {ν : Valuation Atomic Union} (hν : Opposing ν)
    {F G : List (Clause Atomic Union)} {max : ℕ} (hne : F ≠ [])
    (hwedge : ∀ C ∈ F, C.wedge = false) (hfull : ∀ p ∈ groupings S F, ExtendsFully S p.1 p.2)
    (h : groupImpossibilities S F max = some G) (hG : ∀ g ∈ G, Holds ν g) :
    ∃ C ∈ F, NegatedSat ν C := by
  unfold groupImpossibilities at h
  unfold groupings at hfull
  split at h
  · rename_i hF
    exact absurd (List.reverse_eq_nil_iff.mp hF) hne
  · rename_i C rest hF
    simp only [hF] at hfull
    obtain rfl : F = rest.reverse ++ [C] := by rw [← List.reverse_cons, ← hF, List.reverse_reverse]
    have hC : C ∈ rest.reverse ++ [C] := by simp
    dsimp only at h
    split_ifs at h with hstop
    · cases h
      exact ⟨C, hC, negatedSat_of_seeds (hwedge C hC) hG⟩
    · rcases groupFrom_complete hν hfull h hG with hseeds | ⟨D, hD, hneg⟩
      · exact ⟨C, hC, negatedSat_of_seeds (hwedge C hC) hseeds⟩
      · exact ⟨D, by simp [hD], hneg⟩

/-! ## Negated clauses -/

variable {ν : Valuation Atomic Union}

omit [TType Atomic] [TType Union] in
/-- A falsified clause has all its literals negated. -/
theorem negatedSat_of_not_holds (hν : Lawful ν) {C : Clause Atomic Union} (h : ¬ Holds ν C) :
    NegatedSat ν C := fun v l a hl =>
  hν.getNegation fun hνa => h (holds_iff.mpr ⟨v, l, a, hl, hνa⟩)

omit [TType Atomic] [TType Union] in
/-- For clauses of assertions that have a negation, this is all that falsifying one means. -/
theorem negatedSat_iff (hν : Opposing ν) {F : List (Clause Atomic Union)}
    (hneg : ∀ x ∈ clauseLits F, x.2.2.isNegationOf x.2.2.getNegation = true)
    {C : Clause Atomic Union} (hC : C ∈ F) : NegatedSat ν C ↔ ¬ Holds ν C := by
  have hlit : ∀ v l a, Lit C.possibilities v l a → (ν (v, a.getNegation) ↔ ¬ ν (v, a)) := by
    intro v l a hl
    rw [hν v a _ (hneg (v, l, a) (clauseLit_iff.mpr ⟨C, hC, hl⟩)), not_not]
  rw [holds_iff]
  constructor
  · rintro h ⟨v, k, a, hl, hνa⟩
    exact (hlit v k a hl).mp (h v k a hl) hνa
  · intro h v l a hl
    exact (hlit v l a hl).mpr fun hνa => h ⟨v, l, a, hl, hνa⟩

omit [TType Atomic] [TType Union] in
theorem isNegatable_of_isNegationOf {a : Assertion Atomic Union}
    (h : a.isNegationOf a.getNegation = true) : a.isNegatable = true := by
  cases a <;> first | rfl | exact h

omit [TType Atomic] [TType Union] in
theorem filter_negatableClause {F : List (Clause Atomic Union)}
    (hF : ∀ c ∈ F, c.reconcilable = true)
    (hneg : ∀ x ∈ clauseLits F, x.2.2.isNegationOf x.2.2.getNegation = true) :
    F.filter negatableClause = F := by
  refine List.filter_eq_self.mpr fun c hc => ?_
  simp only [negatableClause, hF c hc, Bool.true_and, Bool.or_eq_true, List.all_eq_true]
  refine .inr fun m hm a ha => isNegatable_of_isNegationOf ?_
  obtain ⟨v, hv⟩ := OrderedMap.mem_values.mp hm
  obtain ⟨k, hk⟩ := OrderedMap.mem_values.mp ha
  exact hneg (v, k, a) (clauseLit_iff.mpr ⟨c, hc, m, hv, hk⟩)

/-- The result is the saturation of the impossible clauses. -/
theorem negateFormula_cases {thresholds : AlgebraThresholds} {F N : List (Clause Atomic Union)}
    (h : negateFormula S thresholds F = some N) :
    (F.filter negatableClause = [] ∧ N = []) ∨
    ∃ G, groupImpossibilities S (F.filter negatableClause) thresholds.negationComplexity.toNat =
      some G ∧ N = saturateClauses S thresholds G := by
  unfold negateFormula at h
  dsimp only at h
  split_ifs at h with hempty
  · cases h
    exact .inl ⟨List.isEmpty_iff.mp hempty, rfl⟩
  split at h
  · cases h
  · rename_i G hG
    refine .inr ⟨G, hG, ?_⟩
    split_ifs at h with hnil
    · cases h
      rw [List.isEmpty_iff.mp hnil]
      simp [saturateClauses, uniqueFrom, saturateInner]
    · exact (Option.some.inj h).symm

omit [DecidableEq Atomic] [DecidableEq Union] in
theorem KeysFaithful.of_negates {F G : List (Clause Atomic Union)}
    (hkeys : KeysFaithful S (F.flatMap (negatedUnits S))) (hG : ∀ g ∈ G, Negates S F g) :
    KeysFaithful S G := by
  refine hkeys.mono ?_
  rintro ⟨v, k, a⟩ hx
  obtain ⟨g, hg, hl⟩ := clauseLit_iff.mp hx
  exact clauseLit_negatedUnits.mpr (hG g hg v k a hl)

/-- With keys that identify assertions, no insertion displaces another assertion. -/
theorem KeysIdentify.extendsSoundly {F : List (Clause Atomic Union)}
    (hkeys : KeysIdentify (F.flatMap (negatedUnits S))) :
    ∀ p ∈ groupings S F, ExtendsSoundly S p.1 p.2 := by
  intro p hp e he n hn y hy hv hk
  obtain ⟨hC, hnegates⟩ := groupings_negates p hp
  obtain ⟨l, a, hla, rfl⟩ := mem_negations.mp (List.takeWhile_sublist _ |>.subset hn)
  have hold : ClauseLit (F.flatMap (negatedUnits S)) y.1 y.2.1 y.2.2 :=
    clauseLit_negatedUnits.mpr (hnegates _ _ _ (mem_clauseLits_singleton.mp hy))
  have hnew : ClauseLit (F.flatMap (negatedUnits S)) e.1 (a.negatedHash S) a.getNegation :=
    clauseLit_negatedUnits.mpr
      ⟨(e.1, l, a), clauseLit_iff.mpr ⟨p.1, hC, e.2, he, hla⟩, rfl, rfl, rfl⟩
  exact hkeys _ hold _ hnew hv hk

/-- Negation never excludes a state that falsifies a clause it keeps, while unit propagation
over the impossible clauses meets only assertions that have a negation. -/
theorem negateFormula_sound {thresholds : AlgebraThresholds} {F N : List (Clause Atomic Union)}
    (hkeys : KeysFaithful S ((F.filter negatableClause).flatMap (negatedUnits S)))
    (hunits : ∀ G ∈ groupImpossibilities S (F.filter negatableClause)
      thresholds.negationComplexity.toNat,
      (uniqueFrom [] G).length ≤ thresholds.saturationComplexity.toNat →
      UnitsNegatable S (uniqueFrom [] G))
    (h : negateFormula S thresholds F = some N) (hν : Lawful ν)
    (hfalse : ∃ c ∈ F.filter negatableClause, ¬ Holds ν c) : ∀ c ∈ N, Holds ν c := by
  obtain ⟨C, hC, hnot⟩ := hfalse
  rcases negateFormula_cases h with ⟨-, rfl⟩ | ⟨G, hG, rfl⟩
  · simp
  have hholds : ∀ g ∈ G, Holds ν g := groupImpossibilities_sound hν.opposing
    hkeys.same.extendsSoundly hG hC (negatedSat_of_not_holds hν hnot)
  have hkeysG : KeysFaithful S (uniqueFrom [] G) := hkeys.of_negates fun g hg =>
    groupImpossibilities_negates hG g (mem_of_mem_uniqueFrom hg)
  exact saturateInner_holds hν.opposing (fun hsize => .of_keys hkeysG (hunits G hG hsize))
    fun g hg => hholds g (mem_of_mem_uniqueFrom hg)

/-- Two clauses that share a variable, beside one of a bound-derived fact. -/
def boundBesideClauses : List (Clause Word Word) :=
  [truthClause byteHash [("$x", true), ("$y", true)],
    clauseOf byteHash [(word "$a", .isGreaterThanFromBound 0)],
    truthClause byteHash [("$x", true), ("$z", false)]]

/-- The clause `$x ∨ ¬$z` is falsified, and the bound-derived fact is dropped. -/
theorem negateFormula_sound_bound :
    ((negateFormula byteHash .default boundBesideClauses).getD []).length = 2 ∧
    ∀ c ∈ (negateFormula byteHash .default boundBesideClauses).getD [],
      Holds (ofAtoms litAtom litPositive fun l =>
        l.2 = .any ∨ l.1 = word "$y" ∨ l.1 = word "$z") c := by
  have hN : negateFormula byteHash .default boundBesideClauses =
      some ((negateFormula byteHash .default boundBesideClauses).getD []) := by decide +kernel
  exact ⟨by decide +kernel, negateFormula_sound (by decide +kernel) (by decide +kernel) hN
    (lawful_ofAtoms fun _ => .inl rfl) (by decide +kernel)⟩

/-- A clause of a bound-derived fact is dropped, so falsifying it alone says nothing. -/
theorem bound_clause_dropped :
    ¬ ∀ N, negateFormula byteHash .default [clauseOf byteHash [(word "$x", .truthy)],
        clauseOf byteHash [(word "$a", (.isGreaterThanFromBound 0 : Assertion Word Word))]] =
          some N → ∀ ν, Lawful ν →
      (∃ c ∈ [clauseOf byteHash [(word "$x", .truthy)],
        clauseOf byteHash [(word "$a", .isGreaterThanFromBound 0)]], ¬ Holds ν c) →
      ∀ c ∈ N, Holds ν c := by
  intro h
  have hν := h _ (by decide +kernel : _ = some ((negateFormula byteHash .default
    [clauseOf byteHash [(word "$x", .truthy)],
      clauseOf byteHash [(word "$a", .isGreaterThanFromBound 0)]]).getD []))
    (ofAtoms litAtom litPositive fun l => l.2 = .any ∨ l.2 = .truthy)
    (lawful_ofAtoms fun _ => .inl rfl) (by decide +kernel)
  revert hν
  decide +kernel

/-! ## Exactness -/

/-- Unit propagation strips no clause of all it has. -/
def NothingEmptied (S : FixedState) (unique : List (Clause Atomic Union)) : Prop :=
  ∀ a ∈ unique.zipIdx, ∀ b ∈ unique.zipIdx, ∀ l ∈ simpleLiteral a.1, Scans S unique a b →
    [] ∉ propagateInto S l.1 (l.2.negatedHash S) b.1

instance (unique : List (Clause Atomic Union)) : Decidable (NothingEmptied S unique) :=
  inferInstanceAs (Decidable (∀ _ ∈ _, _))

/-- Saturation neither invents nor loses anything, also where the clauses cannot all hold. -/
structure SaturatesExactly (S : FixedState) (thresholds : AlgebraThresholds)
    (clauses : List (Clause Atomic Union)) : Prop where
  hashes : CollisionFree (occurring S thresholds clauses)
  removals : RemovalsAgree S thresholds.consensusLimit.toNat clauses
  emptied : NothingEmptied S (uniqueFrom [] clauses)
  consensus : ConsensusRedundant S (consensusInput S thresholds clauses)
  steps : StepsSound S thresholds.consensusLimit.toNat (uniqueFrom [] clauses)

theorem SaturatesExactly.iff {thresholds : AlgebraThresholds}
    {clauses : List (Clause Atomic Union)} (h : SaturatesExactly S thresholds clauses)
    (hsize : clauses.length ≤ thresholds.saturationComplexity.toNat) (hν : Opposing ν) :
    (∀ c ∈ saturateClauses S thresholds clauses, Holds ν c) ↔ ∀ c ∈ clauses, Holds ν c := by
  constructor
  · refine saturateClauses_complete_of_consensus ((length_uniqueFrom_le clauses).trans hsize)
      h.hashes h.removals hν (fun b _ hstep => ?_) (h.consensus.entails h.hashes hν)
    obtain ⟨a, b', l, ha, hb', -, hscans, hsimple, hnil⟩ := hstep.nil_spec rfl
    exact absurd hnil (h.emptied a ha b' hb' l hsimple hscans)
  · exact fun hall => saturateInner_holds hν (fun _ => h.steps) fun c hc =>
      hall c (mem_of_mem_uniqueFrom hc)

/-- Negation is exact when distribution skips and displaces no assertion, and the saturation
of the impossible clauses is exact. -/
theorem negateFormula_exact {thresholds : AlgebraThresholds} {F N : List (Clause Atomic Union)}
    (hne : F ≠ []) (hF : ∀ c ∈ F, c.reconcilable = true ∧ c.wedge = false)
    (hneg : ∀ x ∈ clauseLits F, x.2.2.isNegationOf x.2.2.getNegation = true)
    (h : negateFormula S thresholds F = some N)
    (hsize : ∀ G ∈ groupImpossibilities S F thresholds.negationComplexity.toNat,
      G.length ≤ thresholds.saturationComplexity.toNat)
    (hgroup : ∀ p ∈ groupings S F, ExtendsFully S p.1 p.2 ∧ ExtendsSoundly S p.1 p.2)
    (hsaturate : ∀ G ∈ groupImpossibilities S F thresholds.negationComplexity.toNat,
      SaturatesExactly S thresholds G)
    (hν : Opposing ν) : (∀ c ∈ N, Holds ν c) ↔ ∃ c ∈ F, ¬ Holds ν c := by
  have hfilter := filter_negatableClause (fun c hc => (hF c hc).1) hneg
  rcases negateFormula_cases h with ⟨hempty, -⟩ | ⟨G, hG, rfl⟩
  · exact absurd (hfilter ▸ hempty) hne
  rw [hfilter] at hG
  rw [(hsaturate G hG).iff (hsize G hG) hν]
  constructor
  · intro hholds
    obtain ⟨C, hC, hnegated⟩ := groupImpossibilities_complete hν hne (fun C hC => (hF C hC).2)
      (fun p hp => (hgroup p hp).1) hG hholds
    exact ⟨C, hC, (negatedSat_iff hν hneg hC).mp hnegated⟩
  · rintro ⟨C, hC, hnot⟩
    exact groupImpossibilities_sound hν (fun p hp => (hgroup p hp).2) hG hC
      ((negatedSat_iff hν hneg hC).mpr hnot)

/-- The last assertion of `$x` in the first clause opposes the second clause. -/
def opposedLast : List (Clause Word Word) :=
  [clauseOf byteHash [(word "$x", .isIsset), (word "$x", .truthy)],
    truthClause byteHash [("$x", false), ("$z", true)]]

theorem negateFormula_exact_opposedLast :
    (∀ c ∈ (negateFormula byteHash .default opposedLast).getD [],
      Holds (ofAtoms litAtom litPositive fun l => l.2 = .truthy) c) ↔
    ∃ c ∈ opposedLast, ¬ Holds (ofAtoms litAtom litPositive fun l => l.2 = .truthy) c := by
  have hN : negateFormula byteHash .default opposedLast =
      some ((negateFormula byteHash .default opposedLast).getD []) := by decide +kernel
  have hsaturate : ∀ G ∈ groupImpossibilities byteHash opposedLast
      AlgebraThresholds.default.negationComplexity.toNat,
      SaturatesExactly byteHash .default G := by
    intro G hG
    -- the consensus rule removes nothing
    refine ⟨?_, ?_, ?_, ⟨fun _ => 0, ?_⟩, ?_⟩ <;> revert G <;> decide +kernel
  exact negateFormula_exact (by decide +kernel) (by decide +kernel) (by decide +kernel) hN
    (by decide +kernel) (by decide +kernel) hsaturate (opposing_ofAtoms _)

/-- The loop over the assertions of `$x` ends at the first opposed one, so the negation of
the second is lost. -/
theorem opposed_assertion_skips :
    ¬ ∀ N, negateFormula byteHash .default
        [clauseOf byteHash [(word "$x", .truthy), (word "$x", .isIsset)],
          clauseOf byteHash [(word "$x", (.falsy : Assertion Word Word))]] = some N →
      ∀ ν, Opposing ν → ((∀ c ∈ N, Holds ν c) ↔
        ∃ c ∈ [clauseOf byteHash [(word "$x", .truthy), (word "$x", .isIsset)],
          clauseOf byteHash [(word "$x", .falsy)]], ¬ Holds ν c) := by
  intro h
  have hν := h _ (by decide +kernel : _ = some ((negateFormula byteHash .default
    [clauseOf byteHash [(word "$x", .truthy), (word "$x", .isIsset)],
      clauseOf byteHash [(word "$x", .falsy)]]).getD []))
    (ofAtoms litAtom litPositive fun l => l.2 = .isIsset) (opposing_ofAtoms _)
  revert hν
  decide +kernel

end Mago.Algebra
