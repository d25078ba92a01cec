import Mago.Library.OrderedMap
import Mago.Library.Clausal
import Mago.Algebra.Assertion

/-!
# Clauses

A clause is a disjunction of assertions, grouped by variable and keyed by their hash. Its
meaning is the set of its literals, pairs of a variable and an assertion.
-/
namespace Mago.Algebra
open Library

structure Span where
  start : UInt32
  stop : UInt32
  deriving DecidableEq

abbrev Assertions (Atomic Union : Type) := OrderedMap UInt64 (Assertion Atomic Union)

abbrev Possibilities (Atomic Union : Type) := OrderedMap Word (Assertions Atomic Union)

structure Clause (Atomic Union : Type) where
  conditionSpan : Span
  span : Span
  hash : UInt32
  possibilities : Possibilities Atomic Union
  wedge : Bool
  reconcilable : Bool
  generated : Bool
  deriving DecidableEq

variable {Atomic Union : Type}

/-- What the hash of a clause is computed from. -/
def shape (p : Possibilities Atomic Union) : List (Word × List UInt64) :=
  p.entries.map fun e => (e.1, e.2.keys)

def getHash (S : FixedState) (possibilities : Possibilities Atomic Union) (clauseSpan : Span)
    (wedge reconcilable : Bool) : UInt32 :=
  if wedge || !reconcilable then
    clauseSpan.start + clauseSpan.stop + (if wedge then 100000 else 0)
  else S.hashPossibilities (shape possibilities)

namespace Clause

def new (S : FixedState) (possibilities : Possibilities Atomic Union) (conditionSpan span : Span)
    (wedge reconcilable generated : Option Bool) : Clause Atomic Union where
  conditionSpan := conditionSpan
  span := span
  hash := getHash S possibilities span (wedge.getD false) (reconcilable.getD true)
  possibilities := possibilities
  wedge := wedge.getD false
  reconcilable := reconcilable.getD true
  generated := generated.getD false

/-- The clause takes part in simplification. -/
def eligible (c : Clause Atomic Union) : Bool := c.reconcilable && !c.wedge

def removePossibilities (S : FixedState) (c : Clause Atomic Union) (varId : Word) :
    Option (Clause Atomic Union) :=
  let possibilities := c.possibilities.filter fun e => e.1 != varId
  if possibilities.isEmpty then none
  else some (new S possibilities c.conditionSpan c.span (some c.wedge) (some c.reconcilable)
    (some c.generated))

def addPossibility (S : FixedState) (c : Clause Atomic Union) (varId : Word)
    (newPossibility : Assertions Atomic Union) : Clause Atomic Union :=
  new S (c.possibilities.insert varId newPossibility) c.conditionSpan c.span (some c.wedge)
    (some c.reconcilable) (some c.generated)

def contains (c other : Clause Atomic Union) : Bool :=
  if other.possibilities.len > c.possibilities.len then false
  else other.possibilities.entries.zipIdx.all fun (e, i) =>
    match c.possibilities.getIndexOr i e.1 with
    | none => false
    | some localPossibilities => e.2.keys.zipIdx.all fun (k, j) =>
      ((localPossibilities.getIndex j).any fun l => l.1 == k) || localPossibilities.containsKey k

end Clause

/-! ## Meaning -/

/-- The assertion `a` stands under the key `k` of the variable `v`. -/
def Lit (p : Possibilities Atomic Union) (v : Word) (k : UInt64) (a : Assertion Atomic Union) :
    Prop := ∃ m, (v, m) ∈ p.entries ∧ (k, a) ∈ m.entries

def literals (p : Possibilities Atomic Union) : Set (Word × Assertion Atomic Union) :=
  {l | ∃ k, Lit p l.1 k l.2}

abbrev Valuation (Atomic Union : Type) := Word × Assertion Atomic Union → Prop

def Holds (ν : Valuation Atomic Union) (c : Clause Atomic Union) : Prop :=
  Sat ν (literals c.possibilities)

/-- The atom of a literal. -/
def litAtom (l : Word × Assertion Atomic Union) : Word × Assertion Atomic Union := (l.1, l.2.base)

def litPositive (l : Word × Assertion Atomic Union) : Bool := l.2.positive

theorem holds_iff {ν : Valuation Atomic Union} {c : Clause Atomic Union} :
    Holds ν c ↔ ∃ v k a, Lit c.possibilities v k a ∧ ν (v, a) := by
  constructor
  · rintro ⟨⟨v, a⟩, ⟨k, h⟩, hν⟩
    exact ⟨v, k, a, h, hν⟩
  · rintro ⟨v, k, a, h, hν⟩
    exact ⟨(v, a), ⟨k, h⟩, hν⟩

@[simp] theorem possibilities_new {S : FixedState} {p : Possibilities Atomic Union}
    {conditionSpan span : Span} {w r g : Option Bool} :
    (Clause.new S p conditionSpan span w r g).possibilities = p := rfl

theorem complementary_iff {v w : Word} {a b : Assertion Atomic Union} :
    Complementary litAtom litPositive (v, a) (w, b) ↔ v = w ∧ a.Opposite b := by
  simp [Complementary, litAtom, litPositive, Assertion.Opposite, and_assoc]

theorem lit_remove {p : Possibilities Atomic Union} {x v : Word} {k : UInt64}
    {a : Assertion Atomic Union} :
    Lit (p.filter fun e => e.1 != x) v k a ↔ Lit p v k a ∧ v ≠ x := by
  simp only [Lit, OrderedMap.mem_filter, bne_iff_ne]
  constructor
  · rintro ⟨m, ⟨h, hx⟩, hk⟩
    exact ⟨⟨m, h, hk⟩, hx⟩
  · rintro ⟨⟨m, h, hk⟩, hx⟩
    exact ⟨m, ⟨h, hx⟩, hk⟩

theorem lit_singleton {x v : Word} {l k : UInt64} {a b : Assertion Atomic Union} :
    Lit (OrderedMap.ofList [(x, OrderedMap.ofList [(l, b)])]) v k a ↔ v = x ∧ k = l ∧ a = b := by
  simp [Lit, and_assoc]

theorem lit_insert {p : Possibilities Atomic Union} {x v : Word} {n : Assertions Atomic Union}
    {k : UInt64} {a : Assertion Atomic Union} :
    Lit (p.insert x n) v k a ↔ v = x ∧ (k, a) ∈ n.entries ∨ v ≠ x ∧ Lit p v k a := by
  simp only [Lit, OrderedMap.mem_insert]
  constructor
  · rintro ⟨m, h | ⟨h, hx⟩, hk⟩
    · obtain ⟨rfl, rfl⟩ := Prod.mk.inj h
      exact .inl ⟨rfl, hk⟩
    · exact .inr ⟨hx, m, h, hk⟩
  · rintro (⟨rfl, hk⟩ | ⟨hx, m, h, hk⟩)
    · exact ⟨n, .inl rfl, hk⟩
    · exact ⟨m, .inr ⟨h, hx⟩, hk⟩

theorem lit_of_get? {p : Possibilities Atomic Union} {v : Word} {m : Assertions Atomic Union}
    (h : p.get? v = some m) {k : UInt64} {a : Assertion Atomic Union} :
    Lit p v k a ↔ (k, a) ∈ m.entries := by
  have hm := OrderedMap.get?_eq_some_iff.mp h
  constructor
  · rintro ⟨m', hm', hk⟩
    rwa [OrderedMap.eq_of_mem hm hm']
  · exact fun hk => ⟨m, hm, hk⟩

theorem Lit.unique {p : Possibilities Atomic Union} {v : Word} {k : UInt64}
    {a b : Assertion Atomic Union} (ha : Lit p v k a) (hb : Lit p v k b) : a = b := by
  obtain ⟨m, hm, ha⟩ := ha
  obtain ⟨n, hn, hb⟩ := hb
  obtain rfl := OrderedMap.eq_of_mem hm hn
  exact OrderedMap.eq_of_mem ha hb

/-- The literals of a clause as pairs of a variable and a key. -/
def keyed (p : Possibilities Atomic Union) : Set (Word × UInt64) := {l | ∃ a, Lit p l.1 l.2 a}

theorem mem_keyed {p : Possibilities Atomic Union} {v : Word} {k : UInt64} :
    (v, k) ∈ keyed p ↔ ∃ m, (v, m) ∈ p.entries ∧ k ∈ m.keys := by
  simp only [keyed, Lit, Set.mem_ofPred_eq, OrderedMap.mem_keys]
  exact exists_comm.trans (exists_congr fun m => exists_and_left)

theorem mem_keyed_of_get? {p : Possibilities Atomic Union} {v : Word}
    {m : Assertions Atomic Union} (h : p.get? v = some m) {k : UInt64} :
    (v, k) ∈ keyed p ↔ k ∈ m.keys := by
  simp only [keyed, Set.mem_ofPred_eq, lit_of_get? h, OrderedMap.mem_keys]

theorem mem_keys_getD {p : Possibilities Atomic Union} {v : Word} {k : UInt64} :
    k ∈ ((p.get? v).getD .empty).keys ↔ (v, k) ∈ keyed p := by
  cases h : p.get? v with
  | none =>
    simp only [Option.getD_none, OrderedMap.keys, OrderedMap.entries_empty, List.map_nil,
      List.not_mem_nil, false_iff]
    intro hl
    obtain ⟨m, hm, -⟩ := mem_keyed.mp hl
    exact OrderedMap.get?_eq_none_iff.mp h (OrderedMap.mem_keys_of_mem hm)
  | some m => rw [mem_keyed_of_get? h, Option.getD_some]

def hasKey (p : Possibilities Atomic Union) (v : Word) (k : UInt64) : Bool :=
  (p.get? v).any fun m => m.containsKey k

theorem hasKey_iff {p : Possibilities Atomic Union} {v : Word} {k : UInt64} :
    hasKey p v k = true ↔ (v, k) ∈ keyed p := by
  simp only [hasKey, Option.any_eq_true, OrderedMap.containsKey_iff, mem_keyed,
    OrderedMap.get?_eq_some_iff]

theorem mem_keyed_insert {p : Possibilities Atomic Union} {x v : Word}
    {n : Assertions Atomic Union} {k : UInt64} :
    (v, k) ∈ keyed (p.insert x n) ↔ v = x ∧ k ∈ n.keys ∨ v ≠ x ∧ (v, k) ∈ keyed p := by
  simp only [keyed, lit_insert, Set.mem_ofPred_eq, OrderedMap.mem_keys, exists_or,
    exists_and_left]

/-- Clauses of one shape have the same keyed literals. -/
theorem keyed_eq_of_shape {p q : Possibilities Atomic Union} (h : shape p = shape q) :
    keyed p = keyed q := by
  have hmem : ∀ (r : Possibilities Atomic Union) (v : Word) (k : UInt64),
      (v, k) ∈ keyed r ↔ ∃ ks, (v, ks) ∈ shape r ∧ k ∈ ks := by
    intro r v k
    simp only [mem_keyed, shape, List.mem_map, Prod.mk.injEq]
    constructor
    · rintro ⟨m, hm, hk⟩
      exact ⟨m.keys, ⟨(v, m), hm, rfl, rfl⟩, hk⟩
    · rintro ⟨ks, ⟨⟨v', m⟩, hm, rfl, rfl⟩, hk⟩
      exact ⟨m, hm, hk⟩
  ext ⟨v, k⟩
  rw [hmem, hmem, h]

theorem Clause.keyed_subset_of_contains {c other : Clause Atomic Union}
    (h : c.contains other = true) : keyed other.possibilities ⊆ keyed c.possibilities := by
  rintro ⟨v, k⟩ hl
  obtain ⟨m, hm, hk⟩ := mem_keyed.mp hl
  unfold contains at h
  split_ifs at h
  obtain ⟨i, hi, hget⟩ := List.getElem_of_mem hm
  have hentry := List.all_eq_true.mp h ((v, m), i) (List.mem_zipIdx_iff_getElem?.mpr
    (by simpa using List.getElem?_eq_some_iff.mpr ⟨hi, hget⟩))
  simp only [OrderedMap.getIndexOr_eq] at hentry
  cases hv : c.possibilities.get? v with
  | none => simp [hv] at hentry
  | some n =>
    simp only [hv] at hentry
    obtain ⟨j, hj, hgetj⟩ := List.getElem_of_mem hk
    have hkey := List.all_eq_true.mp hentry (k, j) (List.mem_zipIdx_iff_getElem?.mpr
      (by simpa using List.getElem?_eq_some_iff.mpr ⟨hj, hgetj⟩))
    simp only [Bool.or_eq_true, Option.any_eq_true, beq_iff_eq] at hkey
    rw [mem_keyed_of_get? hv]
    rcases hkey with ⟨l, hget, rfl⟩ | hkey
    · exact OrderedMap.mem_keys_of_mem (List.mem_of_getElem? hget)
    · exact OrderedMap.containsKey_iff.mp hkey

/-! ## Lists of clauses -/

def clauseLits (clauses : List (Clause Atomic Union)) :
    List (Word × UInt64 × Assertion Atomic Union) :=
  clauses.flatMap fun c => c.possibilities.entries.flatMap fun e =>
    e.2.entries.map fun l => (e.1, l.1, l.2)

/-- The assertion `a` stands under the key `k` of `v` in one of the clauses. -/
def ClauseLit (clauses : List (Clause Atomic Union)) (v : Word) (k : UInt64)
    (a : Assertion Atomic Union) : Prop := (v, k, a) ∈ clauseLits clauses

theorem clauseLit_iff {clauses : List (Clause Atomic Union)} {v : Word} {k : UInt64}
    {a : Assertion Atomic Union} :
    ClauseLit clauses v k a ↔ ∃ c ∈ clauses, Lit c.possibilities v k a := by
  simp only [ClauseLit, clauseLits, List.mem_flatMap, List.mem_map, Prod.mk.injEq, Lit]
  constructor
  · rintro ⟨c, hc, e, he, l, hl, rfl, rfl, rfl⟩
    exact ⟨c, hc, e.2, he, hl⟩
  · rintro ⟨c, hc, m, hm, hl⟩
    exact ⟨c, hc, (v, m), hm, (k, a), hl, rfl, rfl, rfl⟩

theorem mem_clauseLits_singleton {c : Clause Atomic Union}
    {x : Word × UInt64 × Assertion Atomic Union} :
    x ∈ clauseLits [c] ↔ Lit c.possibilities x.1 x.2.1 x.2.2 :=
  clauseLit_iff.trans (by simp)

/-- A key of a variable that both clauses hold stands for one assertion. -/
def KeysAgree (c d : Clause Atomic Union) : Prop :=
  ∀ x ∈ clauseLits [c], ∀ y ∈ clauseLits [d], x.1 = y.1 → x.2.1 = y.2.1 → x.2.2.Agree y.2.2

instance [DecidableEq Atomic] [DecidableEq Union] (c d : Clause Atomic Union) :
    Decidable (KeysAgree c d) := inferInstanceAs (Decidable (∀ _ ∈ _, _))

theorem KeysAgree.agree {c d : Clause Atomic Union} (h : KeysAgree c d) {v : Word} {k : UInt64}
    {a b : Assertion Atomic Union} (ha : Lit c.possibilities v k a)
    (hb : Lit d.possibilities v k b) : a.Agree b :=
  h (v, k, a) (mem_clauseLits_singleton.mpr ha) (v, k, b) (mem_clauseLits_singleton.mpr hb) rfl rfl

theorem holds_iff_clauseLits {ν : Valuation Atomic Union} {c : Clause Atomic Union} :
    Holds ν c ↔ ∃ x ∈ clauseLits [c], ν (x.1, x.2.2) := by
  rw [holds_iff]
  constructor
  · rintro ⟨v, k, a, hl, hν⟩
    exact ⟨(v, k, a), clauseLit_iff.mpr ⟨c, List.mem_singleton_self c, hl⟩, hν⟩
  · rintro ⟨⟨v, k, a⟩, hx, hν⟩
    obtain ⟨d, hd, hl⟩ := clauseLit_iff.mp hx
    exact ⟨v, k, a, List.mem_singleton.mp hd ▸ hl, hν⟩

instance (ν : Valuation Atomic Union) [DecidablePred ν] (c : Clause Atomic Union) :
    Decidable (Holds ν c) := decidable_of_iff _ holds_iff_clauseLits.symm

/-- The clause of a list of literals, with placeholder spans. -/
def clauseOf [TType Atomic] [TType Union] (S : FixedState)
    (literals : List (Word × Assertion Atomic Union)) : Clause Atomic Union :=
  .new S (literals.foldl (fun p l =>
    p.insert l.1 (((p.get? l.1).getD .empty).insert (l.2.toHash S) l.2)) .empty)
    ⟨0, 1⟩ ⟨0, 1⟩ none none none

/-- A clause that asserts the given truth values. -/
def truthClause (S : FixedState) (values : List (String × Bool)) : Clause Word Word :=
  clauseOf S (values.map fun l => (word l.1, if l.2 then .truthy else .falsy))

/-- Polynomial hashes of bytes and keys. -/
def byteHash : FixedState where
  hashOne w := w.foldl (fun h b => h * 257 + b.toUInt64 + 1) 0
  hashPossibilities s := s.foldl (fun h e => e.2.foldl (fun h k => h * 31 + k.toUInt32 + 1)
    (e.1.foldl (fun h b => h * 257 + b.toUInt32 + 1) (h * 7))) 1

/-! ## Valuations -/

section Valuations

variable [DecidableEq Atomic] [DecidableEq Union]

/-- Assertions of one variable that negate each other have opposite values. -/
def Opposing (ν : Valuation Atomic Union) : Prop :=
  ∀ v a b, a.isNegationOf b = true → (ν (v, a) ↔ ¬ ν (v, b))

/-- A valuation that also makes every `any` true. -/
structure Lawful (ν : Valuation Atomic Union) : Prop where
  any : ∀ v, ν (v, .any)
  opposing : Opposing ν

theorem Opposing.iff_not {ν : Valuation Atomic Union} (hν : Opposing ν) {v : Word}
    {a b : Assertion Atomic Union} (h : a.Opposite b) : ν (v, a) ↔ ¬ ν (v, b) := by
  rcases Assertion.opposite_iff.mp h with h | h
  · exact hν v a b h
  · rw [hν v b a h, not_not]

theorem Opposing.complementary {ν : Valuation Atomic Union} (hν : Opposing ν)
    (l m : Word × Assertion Atomic Union) (h : Complementary litAtom litPositive l m) :
    ν l ↔ ¬ ν m := by
  obtain ⟨v, a⟩ := l
  obtain ⟨w, b⟩ := m
  obtain ⟨rfl, hab⟩ := complementary_iff.mp h
  exact hν.iff_not hab

theorem Opposing.iff_of_agree {ν : Valuation Atomic Union} (hν : Opposing ν) {v : Word}
    {a b : Assertion Atomic Union} (h : a.Agree b) : ν (v, a) ↔ ν (v, b) := by
  cases ha : a.positive with
  | true =>
    rw [← Assertion.base_of_positive ha, h.1, Assertion.base_of_positive (h.2 ▸ ha)]
  | false =>
    -- both are opposed by their common positive form
    have hpos : a.base.positive = true := by cases a <;> rfl
    have hbase : a.base.base = a.base := Assertion.base_of_positive hpos
    have hoa : a.Opposite a.base := ⟨hbase.symm, by simp [ha, hpos]⟩
    have hob : b.Opposite a.base := ⟨by rw [hbase, h.1], by simp [← h.2, ha, hpos]⟩
    rw [hν.iff_not hoa, hν.iff_not hob]

/-- A clause holds when one that is part of it does, and shared keys stand for one
assertion. -/
theorem Holds.of_part {ν : Valuation Atomic Union} (hν : Opposing ν) {c d : Clause Atomic Union}
    (h : Holds ν c) (hsub : keyed c.possibilities ⊆ keyed d.possibilities)
    (hagree : KeysAgree c d) : Holds ν d := by
  obtain ⟨v, k, a, ha, hνa⟩ := holds_iff.mp h
  obtain ⟨b, hb⟩ : (v, k) ∈ keyed d.possibilities := hsub ⟨a, ha⟩
  exact holds_iff.mpr ⟨v, k, b, hb, (hν.iff_of_agree (hagree.agree ha hb)).mp hνa⟩

theorem opposing_ofAtoms (P : Word × Assertion Atomic Union → Prop) :
    Opposing (ofAtoms litAtom litPositive P) := fun _ _ _ h =>
  ofAtoms_complementary (complementary_iff.mpr ⟨rfl, Assertion.opposite_of_isNegationOf h⟩)

/-- A false assertion has a true negation. -/
theorem Lawful.getNegation {ν : Valuation Atomic Union} (hν : Lawful ν) {v : Word}
    {a : Assertion Atomic Union} (h : ¬ ν (v, a)) : ν (v, a.getNegation) := by
  rcases a.isNegationOf_getNegation_or with hneg | hany
  · by_contra hc
    exact h ((hν.opposing v a _ hneg).mpr hc)
  · rw [hany]
    exact hν.any v

theorem lawful_ofAtoms {P : Word × Assertion Atomic Union → Prop} (hP : ∀ v, P (v, .any)) :
    Lawful (ofAtoms litAtom litPositive P) := ⟨hP, opposing_ofAtoms P⟩

end Valuations

end Mago.Algebra
