import Mago.Algebra.Saturate

/-!
# Steps of the simplification

What one rewriting of `simplify` may do, how each operation on clauses acts on keyed
literals, and the induction over all rewritings of a pass.
-/
namespace Mago.Algebra
open Library

variable {Atomic Union : Type} {S : FixedState}

/-! ## Unique clauses -/

theorem mem_of_mem_uniqueFrom {seen : List UInt32} {cs : List (Clause Atomic Union)}
    {c : Clause Atomic Union} (h : c ∈ uniqueFrom seen cs) : c ∈ cs := by
  induction cs generalizing seen with
  | nil => exact h
  | cons x xs ih =>
    unfold uniqueFrom at h
    split_ifs at h with hx
    · exact List.mem_cons_of_mem _ (ih h)
    · rcases List.mem_cons.mp h with rfl | h
      · exact List.mem_cons_self
      · exact List.mem_cons_of_mem _ (ih h)

theorem length_uniqueFrom_le {seen : List UInt32} (cs : List (Clause Atomic Union)) :
    (uniqueFrom seen cs).length ≤ cs.length := by
  induction cs generalizing seen with
  | nil => exact le_rfl
  | cons x xs ih =>
    unfold uniqueFrom
    split_ifs
    · exact ih.trans (Nat.le_succ _)
    · exact Nat.succ_le_succ ih

/-- Every hash keeps a representative. -/
theorem exists_mem_uniqueFrom {seen : List UInt32} {cs : List (Clause Atomic Union)}
    {c : Clause Atomic Union} (h : c ∈ cs) :
    c.hash ∈ seen ∨ ∃ d ∈ uniqueFrom seen cs, d.hash = c.hash := by
  induction cs generalizing seen with
  | nil => cases h
  | cons x xs ih =>
    unfold uniqueFrom
    rcases List.mem_cons.mp h with rfl | h
    · split_ifs with hx
      · exact .inl hx
      · exact .inr ⟨_, List.mem_cons_self, rfl⟩
    · split_ifs with hx
      · exact ih h
      · rcases @ih (x.hash :: seen) h with hseen | ⟨d, hd, hhash⟩
        · rcases List.mem_cons.mp hseen with heq | hseen
          · exact .inr ⟨x, List.mem_cons_self, heq.symm⟩
          · exact .inl hseen
        · exact .inr ⟨d, List.mem_cons_of_mem _ hd, hhash⟩

theorem mem_of_mem_absorb {combined : List (Clause Atomic Union)} {c : Clause Atomic Union}
    (h : c ∈ absorb S combined) : c ∈ combined := by
  unfold absorb at h
  split_ifs at h
  · exact h
  · obtain ⟨x, hx, rfl⟩ := List.mem_map.mp h
    exact List.mem_of_getElem? (List.mem_zipIdx_iff_getElem?.mp (List.mem_filter.mp hx).1)

/-! ## Operations on clauses -/

theorem removePossibilities_eq_some {c d : Clause Atomic Union} {x : Word}
    (h : c.removePossibilities S x = some d) :
    d.possibilities = c.possibilities.filter (fun e => e.1 != x) := by
  simp only [Clause.removePossibilities] at h
  split_ifs at h
  cases h
  rfl

theorem lit_of_remove {c d : Clause Atomic Union} {x : Word}
    (h : c.removePossibilities S x = some d) {v : Word} {k : UInt64} {a : Assertion Atomic Union} :
    Lit d.possibilities v k a ↔ Lit c.possibilities v k a ∧ v ≠ x := by
  rw [removePossibilities_eq_some h, lit_remove]

theorem removePossibilities_eq_none {c : Clause Atomic Union} {x : Word}
    (h : c.removePossibilities S x = none) : ∀ v ∈ c.possibilities.keys, v = x := by
  simp only [Clause.removePossibilities] at h
  split_ifs at h with hempty
  rw [OrderedMap.isEmpty_iff] at hempty
  intro v hv
  by_contra hne
  obtain ⟨m, hm⟩ := OrderedMap.mem_keys.mp hv
  have hmem : (v, m) ∈ (c.possibilities.filter fun e => e.1 != x).entries :=
    OrderedMap.mem_filter.mpr ⟨hm, by simpa using hne⟩
  rw [hempty] at hmem
  cases hmem

/-- The clauses `ds` are what unit propagation may put in place of `c`: nothing when the
literal was all of `c`, and otherwise `c` without it. -/
theorem propagateInto_spec {c : Clause Atomic Union} {x : Word} {h : UInt64}
    {ds : List (Clause Atomic Union)} (hprop : propagateInto S x h c = some ds) :
    (x, h) ∈ keyed c.possibilities ∧
      ((ds = [] ∧ ∀ v k a, Lit c.possibilities v k a → v = x ∧ k = h) ∨
        ∃ d, ds = [d] ∧ ∀ v k a, Lit d.possibilities v k a ↔
          Lit c.possibilities v k a ∧ ¬ (v = x ∧ k = h)) := by
  unfold propagateInto at hprop
  cases hget : c.possibilities.get? x with
  | none => simp [hget] at hprop
  | some m =>
    simp only [hget] at hprop
    by_cases hkey : m.containsKey h = true
    swap
    · simp [hkey] at hprop
    rw [if_pos hkey] at hprop
    rw [OrderedMap.containsKey_iff] at hkey
    refine ⟨(mem_keyed_of_get? hget).mpr hkey, ?_⟩
    cases hprop
    split_ifs with hlen
    · -- the variable has no other assertion
      have honly : ∀ k a, Lit c.possibilities x k a → k = h := by
        intro k a hl
        obtain ⟨b, hb⟩ := OrderedMap.mem_keys.mp hkey
        have ha := (lit_of_get? hget).mp hl
        rw [OrderedMap.entries_of_len_eq_one (by simpa using hlen) hb] at ha
        exact (Prod.mk.inj (List.mem_singleton.mp ha)).1
      cases hrem : c.removePossibilities S x with
      | none =>
        refine .inl ⟨rfl, fun v k a hl => ?_⟩
        obtain ⟨n, hn, -⟩ := id hl
        obtain rfl : v = x := removePossibilities_eq_none hrem v (OrderedMap.mem_keys_of_mem hn)
        exact ⟨rfl, honly k a hl⟩
      | some d =>
        refine .inr ⟨d, rfl, fun v k a => ?_⟩
        rw [lit_of_remove hrem]
        constructor
        · exact fun hl => ⟨hl.1, fun heq => hl.2 heq.1⟩
        · rintro ⟨hl, hne⟩
          refine ⟨hl, ?_⟩
          rintro rfl
          exact hne ⟨rfl, honly k a hl⟩
    · refine .inr ⟨_, rfl, fun v k a => ?_⟩
      simp only [Clause.addPossibility, possibilities_new, lit_insert, OrderedMap.mem_filter,
        bne_iff_ne]
      by_cases hv : v = x
      · subst hv
        simp [lit_of_get? hget]
      · simp [hv]

theorem indexKeysMatch_subset {as bs : Assertions Atomic Union} (h : indexKeysMatch as bs = true) :
    bs.keys ⊆ as.keys := by
  simp only [indexKeysMatch, Bool.and_eq_true, Bool.or_eq_true, beq_iff_eq, List.all_eq_true,
    OrderedMap.containsKey_iff] at h
  obtain ⟨hlen, hkeys | ⟨-, hsub⟩⟩ := h
  · exact hkeys ▸ List.Subset.refl _
  · have hperm : as.keys.Subperm bs.keys := List.subperm_of_subset as.nodup hsub
    have hlen' : bs.keys.length ≤ as.keys.length := by
      simp only [OrderedMap.keys, List.length_map]
      exact hlen.ge
    exact (hperm.perm_of_length_le hlen').symm.subset

theorem simpleLiteral_spec {c : Clause Atomic Union} {v : Word} {a : Assertion Atomic Union}
    (h : simpleLiteral c = some (v, a)) : ∃ k, Lit c.possibilities v k a ∧
      keyed c.possibilities = {(v, k)} := by
  unfold simpleLiteral at h
  split at h
  · rename_i w as hentries
    split at h
    · rename_i k x has
      cases h
      refine ⟨k, ⟨as, by simp [hentries], by simp [has]⟩, ?_⟩
      ext ⟨w, l⟩
      rw [mem_keyed, hentries]
      simp only [List.mem_singleton, Prod.mk.injEq, Set.mem_singleton_iff]
      constructor
      · rintro ⟨m, ⟨rfl, rfl⟩, hl⟩
        rw [OrderedMap.keys, has] at hl
        exact ⟨rfl, List.mem_singleton.mp hl⟩
      · rintro ⟨rfl, rfl⟩
        exact ⟨as, ⟨rfl, rfl⟩, by simp [OrderedMap.keys, has]⟩
    · cases h
  · cases h

theorem laterMatching_spec {unique : List (Clause Atomic Union)} {i : ℕ}
    {a : Clause Atomic Union} {b : Clause Atomic Union × ℕ}
    (h : b ∈ laterMatching S unique i a) : b ∈ unique.zipIdx ∧ i < b.2 ∧ resolvable a = true ∧
      b.1.possibilities.len = a.possibilities.len := by
  unfold laterMatching at h
  split_ifs at h with ha
  · simp only [List.mem_filter, Bool.and_eq_true, beq_iff_eq, decide_eq_true_eq] at h
    obtain ⟨hmem, ⟨hlt, -⟩, hsig⟩ := h
    exact ⟨hmem, hlt, ha, congrArg Prod.fst hsig⟩
  · cases h

variable [DecidableEq Atomic] [DecidableEq Union]

theorem mem_of_mem_removeConsensus {limit : ℕ} {combined simplified : List (Clause Atomic Union)}
    {c : Clause Atomic Union} (h : c ∈ removeConsensus S limit combined simplified) :
    c ∈ simplified := by
  unfold removeConsensus at h
  split_ifs at h
  · exact (List.mem_filter.mp h).1
  · exact h

theorem singletonNegation_spec {as bs : Assertions Atomic Union}
    (h : singletonNegation as bs = true) :
    ∃ k a k' b, as.entries = [(k, a)] ∧ bs.entries = [(k', b)] ∧ a.isNegationOf b = true := by
  simp only [singletonNegation, Bool.and_eq_true, beq_iff_eq, Option.any_eq_true] at h
  obtain ⟨⟨hla, hlb⟩, a, ha, b, hb, hneg⟩ := h
  obtain ⟨x, hx⟩ := List.length_eq_one_iff.mp hla
  obtain ⟨y, hy⟩ := List.length_eq_one_iff.mp hlb
  simp only [OrderedMap.values, hx, hy, List.map_cons, List.head?_cons, Option.some.injEq] at ha hb
  exact ⟨x.1, x.2, y.1, y.2, hx, hy, by rwa [ha, hb]⟩

theorem opposingKeyFrom_spec {b : Possibilities Atomic Union} {i : ℕ} {o r : Option Word}
    {es : List (Word × Assertions Atomic Union)} (h : opposingKeyFrom b i o es = some r) :
    (∀ e ∈ es, ∃ bs, b.get? e.1 = some bs ∧ (indexKeysMatch e.2 bs = true ∨
      r = some e.1 ∧ singletonNegation e.2 bs = true)) ∧
    (r = o ∨ o = none ∧ ∃ e ∈ es, ∃ bs, r = some e.1 ∧ b.get? e.1 = some bs ∧
      singletonNegation e.2 bs = true) := by
  induction es generalizing i o with
  | nil =>
    simp only [opposingKeyFrom, Option.some.injEq] at h
    exact ⟨by simp, .inl h.symm⟩
  | cons e es ih =>
    obtain ⟨key, as⟩ := e
    simp only [opposingKeyFrom, OrderedMap.getIndexOr_eq] at h
    cases hget : b.get? key with
    | none => simp [hget] at h
    | some bs =>
      simp only [hget] at h
      split_ifs at h with hmatch hneg
      · obtain ⟨hall, hr⟩ := ih h
        constructor
        · intro e he
          rcases List.mem_cons.mp he with rfl | he
          · exact ⟨bs, hget, .inl hmatch⟩
          · exact hall e he
        · rcases hr with hr | ⟨ho, e, he, hspec⟩
          · exact .inl hr
          · exact .inr ⟨ho, e, List.mem_cons_of_mem _ he, hspec⟩
      · cases o with
        | some k => simp at h
        | none =>
          obtain ⟨hall, hr⟩ := ih h
          have hkey : r = some key := hr.resolve_right fun hc => by simp at hc
          refine ⟨fun e he => ?_, .inr ⟨rfl, (key, as), List.mem_cons_self, bs, hkey, hget, hneg⟩⟩
          rcases List.mem_cons.mp he with rfl | he
          · exact ⟨bs, hget, .inr ⟨hkey, hneg⟩⟩
          · exact hall e he

/-- Clauses of equal length that oppose on `key` only: each holds one assertion of `key`,
these negate each other, and the rest of `b` is part of `a`. -/
theorem opposingKey_spec {a b : Clause Atomic Union} {key : Word}
    (hlen : b.possibilities.len = a.possibilities.len)
    (h : opposingKey a b = some (some key)) :
    ∃ k x k' y, Lit a.possibilities key k x ∧ Lit b.possibilities key k' y ∧
      x.isNegationOf y = true ∧
      keyed a.possibilities ⊆ insert (key, k) {l | l ∈ keyed a.possibilities ∧ l.1 ≠ key} ∧
      keyed b.possibilities ⊆ insert (key, k') {l | l ∈ keyed a.possibilities ∧ l.1 ≠ key} := by
  obtain ⟨hall, hr⟩ := opposingKeyFrom_spec h
  obtain ⟨-, ⟨key', as⟩, hmem, bs, hkey, hget, hneg⟩ := hr.resolve_left (Option.some_ne_none key)
  obtain rfl : key = key' := Option.some.inj hkey
  obtain ⟨k, x, k', y, has, hbs, hxy⟩ := singletonNegation_spec hneg
  have hgeta : a.possibilities.get? key = some as := OrderedMap.get?_eq_some_iff.mpr hmem
  have hla : Lit a.possibilities key k x := ⟨as, hmem, has ▸ List.mem_singleton_self _⟩
  have hlb : Lit b.possibilities key k' y :=
    ⟨bs, OrderedMap.get?_eq_some_iff.mp hget, hbs ▸ List.mem_singleton_self _⟩
  refine ⟨k, x, k', y, hla, hlb, hxy, ?_, ?_⟩
  · rintro ⟨v, l⟩ hl
    by_cases hv : v = key
    · subst hv
      rw [mem_keyed_of_get? hgeta, OrderedMap.keys, has] at hl
      simp only [List.map_cons, List.map_nil, List.mem_singleton] at hl
      exact .inl (by rw [hl])
    · exact .inr ⟨hl, hv⟩
  · -- the variables of `a` are all variables of `b`, and there are as many of them
    have hkeys : b.possibilities.keys ⊆ a.possibilities.keys := by
      have hsub : a.possibilities.keys ⊆ b.possibilities.keys := by
        intro v hv
        obtain ⟨m, hm⟩ := OrderedMap.mem_keys.mp hv
        obtain ⟨n, hn, -⟩ := hall _ hm
        exact OrderedMap.mem_keys.mpr ⟨n, OrderedMap.get?_eq_some_iff.mp hn⟩
      have hperm := List.subperm_of_subset a.possibilities.nodup hsub
      refine (hperm.perm_of_length_le ?_).symm.subset
      simp only [OrderedMap.keys, List.length_map]
      exact hlen.le
    rintro ⟨v, l⟩ hl
    by_cases hv : v = key
    · subst hv
      rw [mem_keyed_of_get? hget, OrderedMap.keys, hbs] at hl
      simp only [List.map_cons, List.map_nil, List.mem_singleton] at hl
      exact .inl (by rw [hl])
    · obtain ⟨n, hn, hkn⟩ := mem_keyed.mp hl
      obtain ⟨m, hm⟩ := OrderedMap.mem_keys.mp (hkeys (OrderedMap.mem_keys_of_mem hn))
      obtain ⟨n', hn', hmatch | ⟨hkey, -⟩⟩ := hall _ hm
      · obtain rfl : n = n' := OrderedMap.eq_of_mem hn (OrderedMap.get?_eq_some_iff.mp hn')
        exact .inr ⟨mem_keyed.mpr ⟨m, hm, indexKeysMatch_subset hmatch hkn⟩, hv⟩
      · exact absurd (Option.some.inj hkey).symm hv

/-! ## Rewritings of one pass -/

omit [DecidableEq Atomic] [DecidableEq Union] in
/-- What the first state has and every step on a prefix preserves holds after the fold. -/
theorem foldl_take_induction {α β : Type*} {f : β → α → β} {s : β} {l : List α} {P : β → Prop}
    (hinit : P s)
    (hstep : ∀ i a, l[i]? = some a → P ((l.take i).foldl f s) → P (f ((l.take i).foldl f s) a)) :
    P (l.foldl f s) := by
  have hall : ∀ i ≤ l.length, P ((l.take i).foldl f s) := by
    intro i
    induction i with
    | zero => exact fun _ => hinit
    | succ i ih =>
      intro hi
      have hget : l[i]? = some l[i] := List.getElem?_eq_getElem hi
      rw [List.take_add_one, hget, List.foldl_append]
      exact hstep i _ hget (ih (Nat.le_of_succ_le hi))
  simpa using hall l.length le_rfl

variable [TType Atomic] [TType Union]

/-- The progress of the pass over `unique` when it comes to position `i`. -/
def progressAt (S : FixedState) (unique : List (Clause Atomic Union)) (i : ℕ) :
    Progress Atomic Union :=
  (unique.zipIdx.take i).foldl (simplifyStep S unique) ⟨unique.map fun _ => false, []⟩

/-- The scan of the unit clause `a` comes to the clause `b`, which still stands. -/
structure Scans (S : FixedState) (unique : List (Clause Atomic Union))
    (a b : Clause Atomic Union × ℕ) : Prop where
  eligible : a.1.eligible = true
  ne : a.2 ≠ b.2
  standing : (progressAt S unique a.2).isRemoved b.2 = false
  eligible' : b.1.eligible = true

instance (unique : List (Clause Atomic Union)) (a b : Clause Atomic Union × ℕ) :
    Decidable (Scans S unique a b) :=
  decidable_of_iff (a.1.eligible = true ∧ a.2 ≠ b.2 ∧
      (progressAt S unique a.2).isRemoved b.2 = false ∧ b.1.eligible = true)
    ⟨fun h => ⟨h.1, h.2.1, h.2.2.1, h.2.2.2⟩, fun h => ⟨h.1, h.2, h.3, h.4⟩⟩

/-- What the pass over `unique` puts in place of the clause at a position. -/
inductive Rewrite (S : FixedState) (unique : List (Clause Atomic Union)) :
    ℕ → List (Clause Atomic Union) → Prop
  | propagate {a b : Clause Atomic Union × ℕ} {l : Word × Assertion Atomic Union}
      {ds : List (Clause Atomic Union)} (unit : a ∈ unique.zipIdx) (other : b ∈ unique.zipIdx)
      (scans : Scans S unique a b) (simple : l ∈ simpleLiteral a.1)
      (result : ds ∈ propagateInto S l.1 (l.2.negatedHash S) b.1) : Rewrite S unique b.2 ds
  | resolve {a b : Clause Atomic Union × ℕ} {key : Word} (first : a ∈ unique.zipIdx)
      (second : b ∈ laterMatching S unique a.2 a.1)
      (standing : (progressAt S unique a.2).isRemoved b.2 = false)
      (opposing : opposingKey a.1 b.1 = some (some key)) :
      Rewrite S unique a.2 (a.1.removePossibilities S key).toList

/-- A clause is put in place of `b` only when its literals are among those of `b`. -/
theorem Rewrite.covers {unique : List (Clause Atomic Union)} {j : ℕ} {b : Clause Atomic Union}
    {ds : List (Clause Atomic Union)} (h : Rewrite S unique j ds) (hb : (b, j) ∈ unique.zipIdx) :
    ds = [] ∨ ∃ d ∈ ds, ∀ v k a, Lit d.possibilities v k a → Lit b.possibilities v k a := by
  have hunique : ∀ x : Clause Atomic Union × ℕ, x ∈ unique.zipIdx → x.2 = j → x.1 = b := by
    rintro x hx rfl
    exact Option.some.inj ((List.mem_zipIdx_iff_getElem?.mp hx).symm.trans
      (List.mem_zipIdx_iff_getElem?.mp hb))
  cases h with
  | propagate _ hother _ _ hresult =>
    obtain ⟨-, ⟨rfl, -⟩ | ⟨d, rfl, hlit⟩⟩ := propagateInto_spec hresult
    · exact .inl rfl
    · rw [← hunique _ hother rfl]
      exact .inr ⟨d, List.mem_singleton_self d, fun v k x hl => ((hlit v k x).mp hl).1⟩
  | @resolve a _ key hfirst =>
    rw [← hunique a hfirst rfl]
    cases hrem : a.1.removePossibilities S key with
    | none => exact .inl rfl
    | some d =>
      exact .inr ⟨d, List.mem_singleton_self d, fun v k x hl => ((lit_of_remove hrem).mp hl).1⟩

/-- Only unit propagation makes a clause disappear. -/
theorem Rewrite.nil_spec {unique : List (Clause Atomic Union)} {j : ℕ}
    {ds : List (Clause Atomic Union)} (h : Rewrite S unique j ds) (hds : ds = []) :
    ∃ a b l, a ∈ unique.zipIdx ∧ b ∈ unique.zipIdx ∧ b.2 = j ∧ Scans S unique a b ∧
      l ∈ simpleLiteral a.1 ∧ [] ∈ propagateInto S l.1 (l.2.negatedHash S) b.1 := by
  cases h with
  | @propagate a b l _ hunit hother hscans hsimple hresult =>
    exact ⟨a, b, l, hunit, hother, rfl, hscans, hsimple, hds ▸ hresult⟩
  | @resolve a _ key _ hsecond =>
    -- a clause of two variables keeps one of them
    exfalso
    have hnone : a.1.removePossibilities S key = none := by simpa using hds
    have hkeys := removePossibilities_eq_none hnone
    have hres := (laterMatching_spec hsecond).2.2.1
    simp only [resolvable, Bool.and_eq_true, decide_eq_true_eq] at hres
    have hle : a.1.possibilities.keys.length ≤ [key].length :=
      (List.subperm_of_subset a.1.possibilities.nodup fun v hv =>
        List.mem_singleton.mpr (hkeys v hv)).length_le
    simp only [OrderedMap.keys, List.length_map, List.length_singleton] at hle
    exact absurd hres.2 (by simpa [OrderedMap.len] using hle)

omit [DecidableEq Atomic] [DecidableEq Union] [TType Atomic] [TType Union] in
theorem Progress.isRemoved_replace_of_ne {p : Progress Atomic Union} {i j : ℕ}
    {ds : List (Clause Atomic Union)} (h : i ≠ j) :
    (p.replace j ds).isRemoved i = p.isRemoved i := by
  simp [Progress.isRemoved, Progress.replace, List.getD_eq_getElem?_getD,
    List.getElem?_set_ne (Ne.symm h)]

/-- The scan of a unit clause changes only positions that it has passed. -/
theorem propagateUnit_induction {unique : List (Clause Atomic Union)}
    {a : Clause Atomic Union × ℕ} {l : Word × Assertion Atomic Union}
    (hunit : a ∈ unique.zipIdx) (helig : a.1.eligible = true)
    (hsimple : simpleLiteral a.1 = some l) {P : Progress Atomic Union → Prop}
    (hstep : ∀ p j ds, P p → Rewrite S unique j ds → P (p.replace j ds))
    {rest : List (Clause Atomic Union × ℕ)} (hrest : ∀ b ∈ rest, b ∈ unique.zipIdx)
    (hnodup : (rest.map Prod.snd).Nodup) {p : Progress Atomic Union}
    (hsame : ∀ b ∈ rest, p.isRemoved b.2 = (progressAt S unique a.2).isRemoved b.2) (hp : P p) :
    P (propagateUnit S l.1 (l.2.negatedHash S) a.2 rest p) := by
  induction rest generalizing p with
  | nil => exact hp
  | cons b rest ih =>
    obtain ⟨hb, hnodup⟩ := List.nodup_cons.mp hnodup
    have hsame' := fun x hx => hsame x (List.mem_cons_of_mem b hx)
    unfold propagateUnit
    refine ih (fun b hb => hrest b (List.mem_cons_of_mem _ hb)) hnodup ?_ ?_
    · intro x hx
      split_ifs
      · exact hsame' x hx
      · split
        · exact hsame' x hx
        · have hne : x.2 ≠ b.2 := fun heq => hb (heq ▸ List.mem_map_of_mem hx)
          rw [Progress.isRemoved_replace_of_ne hne, hsame' x hx]
    · split_ifs with hskip
      · exact hp
      · simp only [Bool.or_eq_true, beq_iff_eq, Bool.not_eq_true', not_or,
          Bool.not_eq_false, Bool.not_eq_true] at hskip
        have hscans : Scans S unique a b :=
          ⟨helig, hskip.1.1, hsame b List.mem_cons_self ▸ hskip.1.2, hskip.2⟩
        split
        · exact hp
        · rename_i ds hprop
          exact hstep p b.2 ds hp
            (.propagate hunit (hrest b List.mem_cons_self) hscans hsimple hprop)

/-- The scan for resolution changes only the position it starts from. -/
theorem resolve_induction {unique : List (Clause Atomic Union)} {a : Clause Atomic Union × ℕ}
    (hfirst : a ∈ unique.zipIdx) {P : Progress Atomic Union → Prop}
    (hstep : ∀ p j ds, P p → Rewrite S unique j ds → P (p.replace j ds))
    {rest : List (Clause Atomic Union × ℕ)}
    (hrest : ∀ b ∈ rest, b ∈ laterMatching S unique a.2 a.1) {p : Progress Atomic Union}
    (hsame : ∀ b ∈ rest, p.isRemoved b.2 = (progressAt S unique a.2).isRemoved b.2) (hp : P p) :
    P (resolve S a.1 a.2 rest p) := by
  induction rest generalizing p with
  | nil => exact hp
  | cons b rest ih =>
    have hrest' := fun x hx => hrest x (List.mem_cons_of_mem b hx)
    have hsame' := fun x hx => hsame x (List.mem_cons_of_mem b hx)
    unfold resolve
    split_ifs with hremoved
    · exact ih hrest' hsame' hp
    · split
      · rename_i key hkey
        have hstanding := hsame b List.mem_cons_self ▸ Bool.eq_false_iff.mpr hremoved
        have hrewrite := Rewrite.resolve (S := S) hfirst (hrest b List.mem_cons_self) hstanding hkey
        cases hrem : a.1.removePossibilities S key with
        | none => exact hstep p a.2 [] hp (by simpa [hrem] using hrewrite)
        | some d =>
          refine ih hrest' (fun x hx => ?_) (hstep p a.2 [d] hp (by simpa [hrem] using hrewrite))
          have hlt := (laterMatching_spec (hrest' x hx)).2.1
          rw [Progress.isRemoved_replace_of_ne hlt.ne', hsame' x hx]
      · exact ih hrest' hsame' hp

/-- Whatever every rewriting preserves holds after the pass. -/
theorem simplify_induction {unique : List (Clause Atomic Union)}
    {P : Progress Atomic Union → Prop} (hinit : P ⟨unique.map fun _ => false, []⟩)
    (hstep : ∀ p j ds, P p → Rewrite S unique j ds → P (p.replace j ds)) :
    P (simplify S unique) := by
  refine foldl_take_induction hinit fun i a hget hp => ?_
  have ha : a ∈ unique.zipIdx := List.mem_of_getElem? hget
  obtain rfl : i = a.2 := by
    rw [List.getElem?_zipIdx] at hget
    obtain ⟨c, -, rfl⟩ := Option.map_eq_some_iff.mp hget
    simp
  change P (simplifyStep S unique (progressAt S unique a.2) a)
  unfold simplifyStep
  split_ifs with helig
  · exact hp
  · split
    · rename_i v x hsimple
      dsimp only
      split_ifs
      · refine propagateUnit_induction ha (by simpa using helig) hsimple hstep (fun _ hb => hb) ?_
          (fun _ _ => rfl) hp
        rw [List.zipIdx_map_snd]
        exact List.nodup_range'
      · exact hp
    · exact resolve_induction ha hstep (fun _ hb => hb) (fun _ _ => rfl) hp

end Mago.Algebra
