import Mago.Types.ArrayContainment

/-!
# Narrowing by truthiness

What is left of a union when a value of it is known to be truthy or falsy. Each atomic type that
is neither always truthy nor always falsy is rewritten to a type with the values of one side.
-/
namespace Mago.Types.Truthiness

open Mago.Algebra (Word word ArrayKey)

/-! ## Arrays as values -/

section Instances

variable {F K O : Type} [LinearOrder F] [Zero F] [World O] [NamedKind K F O]

/-- An array without entries is falsy. -/
instance : World (PhpArray F O) where
  truth a := !a.entries.isEmpty
  callable := World.callable O

instance : Kind (TArray F K) F (PhpArray F O) where
  Has t v := ∃ a, v = .other a ∧ t.Has a

end Instances

/-! ## Reconciliation -/

section Reconciliation

variable {F K : Type} [LinearOrder F] [Zero F]

abbrev Atomic (F K : Type) := TAtomic F (TArray F K)

/-- A union with the flags that the reconciliation looks at. -/
structure VarType (F K : Type) extends TUnion F (TArray F K) where
  possiblyUndefined : Bool
  possiblyUndefinedFromTry : Bool

inductive Assertion
  | truthy
  | nonEmpty
  | falsy
  | empty
  deriving DecidableEq

/-- Not empty, or with a required entry. -/
def arrayIsTruthy (t : TArray F K) : Bool := t.isNonEmpty || t.hasRequiredKnownEntry

def arrayIsFalsy : TArray F K → Bool
  | .keyed a =>
    if a.knownItems.isSome then false
    else if a.parameters.any fun parameters =>
      !parameters.1.isNever && !parameters.2.isNever then false
    else !a.nonEmpty
  | .list l => l.knownElements.isNone && l.elementType.isNever && !l.nonEmpty

def isTruthy : Atomic F K → Bool
  | .scalar t => t.isTruthy
  | .other t => arrayIsTruthy t
  | .mixed m => m.isTruthy
  | _ => false

def isFalsy : Atomic F K → Bool
  | .scalar t => t.isFalsy
  | .other t => arrayIsFalsy t
  | .mixed m => m.isFalsy
  | .null => true
  | .void => true
  | .never => false

def getNever : VarType F K := ⟨.getNever, false, false⟩

def getAcceptableType (acceptableTypes : List (Atomic F K)) (newVarType : VarType F K) :
    VarType F K :=
  if acceptableTypes.isEmpty then getNever
  else { newVarType with types := acceptableTypes }

def truthyPart : Atomic F K → Atomic F K
  | .scalar (.bool b) => if b.isGeneral then .scalar (.bool ⟨some true⟩) else .scalar (.bool b)
  | .other (.list l) => .other (.list { l with nonEmpty := true })
  | .other (.keyed a) => .other (.keyed { a with nonEmpty := true })
  | .mixed m => .mixed ((m.withIsIssetFromLoop false).withTruthiness .truthy)
  | .scalar (.string s) =>
    if !s.isKnownLiteral then .scalar (.string { s with isTruthy := true, isNonEmpty := true })
    else .scalar (.string s)
  | atomic => atomic

def reconcileTruthyOrNonEmpty (u : VarType F K) : VarType F K :=
  let acceptableTypes := u.types.filterMap fun atomic =>
    if isFalsy atomic then none
    else if !isTruthy atomic || u.possiblyUndefinedFromTry then some (truthyPart atomic)
    else some atomic
  getAcceptableType acceptableTypes
    { u with possiblyUndefined := false, possiblyUndefinedFromTry := false }

/-- A string is empty or zero; the zero is left out where something is known to be empty. -/
def falsyParts (isEmptyAssertion : Bool) : Atomic F K → List (Atomic F K)
  | .other (.list _) => [.other (.list ⟨.getNever, none, none, false⟩)]
  | .other (.keyed _) => [.other (.keyed ⟨none, none, false, false⟩)]
  | .mixed m => if isEmptyAssertion then [.mixed m.asEmpty] else [.mixed (m.withTruthiness .falsy)]
  | .scalar (.bool b) => if b.isGeneral then [.scalar (.bool ⟨some false⟩)] else [.scalar (.bool b)]
  | .scalar (.string s) =>
    (if !s.isNonEmpty then [.scalar (.literalString (word ""))] else []) ++
      if !isEmptyAssertion then [.scalar (.literalString (word "0"))] else []
  | .scalar (.integer i) =>
    if i.contains (.literal 0) then [.scalar (.integer (.literal 0))] else []
  | atomic => [atomic]

def reconcileFalsyOrEmpty (isEmptyAssertion : Bool) (u : VarType F K) : VarType F K :=
  let acceptableTypes := u.types.flatMap fun atomic =>
    if isTruthy atomic && !u.possiblyUndefinedFromTry then []
    else if !isFalsy atomic then falsyParts isEmptyAssertion atomic
    else [atomic]
  getAcceptableType acceptableTypes { u with possiblyUndefinedFromTry := false }

def reconcile (assertion : Assertion) (u : VarType F K) : VarType F K :=
  match assertion with
  | .truthy => reconcileTruthyOrNonEmpty u
  | .nonEmpty => reconcileTruthyOrNonEmpty u
  | .falsy => reconcileFalsyOrEmpty false u
  | .empty => reconcileFalsyOrEmpty true u

end Reconciliation

/-! ## Always truthy, always falsy -/

section Sides

variable {F K O : Type} [LinearOrder F] [Zero F] [World O] [NamedKind K F O]
  {v : Value F (PhpArray F O)}

omit [Zero F] in
theorem integer_truthy [Zero F] {i : TInteger} (h : (TScalar.integer i : TScalar F).isTruthy = true)
    {n : ℤ} (hn : i.Has n) : n ≠ 0 := by
  cases i with
  | literal value =>
    have hvalue : value ≠ 0 := by simpa [TScalar.isTruthy, TInteger.getLiteralValue] using h
    rwa [TInteger.has_literal.mp hn]
  | fromValue value =>
    have hvalue : 0 < value := by
      simpa [TScalar.isTruthy, TInteger.getLiteralValue, TInteger.getBounds] using h
    have hle := TInteger.has_fromValue.mp hn
    omega
  | toValue value =>
    have hvalue : value < 0 := by
      simpa [TScalar.isTruthy, TInteger.getLiteralValue, TInteger.getBounds] using h
    have hle := TInteger.has_toValue.mp hn
    omega
  | range lower upper =>
    have hvalue : 0 < lower ∨ upper < 0 := by
      simpa [TScalar.isTruthy, TInteger.getLiteralValue, TInteger.getBounds] using h
    have hle := TInteger.has_range.mp hn
    omega
  | unspecified => cases h
  | unspecifiedLiteral => cases h

omit [NamedKind K F O] in
theorem scalar_truthy {t : TScalar F} (h : t.isTruthy = true) (hv : t.Has v) :
    v.truthy = true := by
  cases t with
  | bool b =>
    cases v with
    | bool v =>
      have hvalue : b.value = some true := by simpa [TScalar.isTruthy, TBool.isTrue] using h
      exact (hv true hvalue).symm
    | _ => cases hv
  | integer i =>
    cases v with
    | int n =>
      have hn := integer_truthy h hv
      simpa [Value.truthy] using hn
    | _ => cases hv
  | float f =>
    cases v with
    | float x =>
      cases f with
      | literal value =>
        have hvalue : value ≠ 0 := by simpa [TScalar.isTruthy, TFloat.getLiteralValue] using h
        have hx : x = value := hv value rfl
        simpa [Value.truthy, hx] using hvalue
      | float => cases h
      | unspecifiedLiteral => cases h
    | _ => cases hv
  | string s =>
    cases v with
    | string value =>
      have hvalue := TString.Has.truthy hv h
      simpa [Value.truthy] using hvalue
    | _ => cases hv
  | _ => cases h

omit [NamedKind K F O] in
theorem scalar_falsy {t : TScalar F} (h : t.isFalsy = true) (hv : t.Has v) :
    v.truthy = false := by
  cases t with
  | bool b =>
    cases v with
    | bool v =>
      have hvalue : b.value = some false := by simpa [TScalar.isFalsy, TBool.isFalse] using h
      exact (hv false hvalue).symm
    | _ => cases hv
  | integer i =>
    cases v with
    | int n =>
      cases i with
      | literal value =>
        have hvalue : value = 0 := by simpa [TScalar.isFalsy, TInteger.getLiteralValue] using h
        have hn : n.val = 0 := (TInteger.has_literal.mp hv).trans hvalue
        simp [Value.truthy, hn]
      | _ => cases h
    | _ => cases hv
  | float f =>
    cases v with
    | float x =>
      cases f with
      | literal value =>
        have hvalue : value = 0 := by simpa [TScalar.isFalsy, TFloat.getLiteralValue] using h
        have hx : x = value := hv value rfl
        simp [Value.truthy, hx, hvalue]
      | float => cases h
      | unspecifiedLiteral => cases h
    | _ => cases hv
  | string s =>
    cases v with
    | string value =>
      simp only [TScalar.isFalsy, TString.getKnownLiteralValue, Option.any_eq_true] at h
      obtain ⟨known, hknown, hfalsy⟩ := h
      have hvalue := TString.Has.eq_of_known hv hknown
      rw [Bool.or_eq_true, List.isEmpty_iff, beq_iff_eq] at hfalsy
      obtain rfl | rfl := hfalsy
      · rw [hvalue]
        rfl
      · rw [hvalue]
        rfl
    | _ => cases hv
  | _ => cases h

theorem array_truthy {t : TArray F K} {a : PhpArray F O} (h : arrayIsTruthy t = true)
    (ha : t.Has a) : a.entries ≠ [] := by
  rw [arrayIsTruthy, Bool.or_eq_true] at h
  obtain h | h := h
  · exact ha.nonEmpty h
  · exact ha.entries_ne_nil h

theorem array_falsy {t : TArray F K} {a : PhpArray F O} (h : arrayIsFalsy t = true)
    (ha : t.Has a) : a.entries = [] := by
  rw [List.eq_nil_iff_forall_not_mem]
  rintro ⟨k, v⟩ hmem
  cases t with
  | keyed array =>
    simp only [arrayIsFalsy] at h
    split at h
    · cases h
    rename_i hknown
    split at h
    · cases h
    rename_i hparameters
    have hentries : (TArray.keyed array).knownEntries = [] := by
      cases hitems : array.knownItems with
      | none => simp [TArray.knownEntries, TArray.knownItemsView, hitems]
      | some items => simp [hitems] at hknown
    obtain ⟨hvalue, hkey⟩ := ha.further hmem (by simp [hentries])
    cases hsome : array.parameters with
    | none =>
      simp only [TArray.valueType, TArray.keyAndValueTypes, hsome] at hvalue
      exact TUnion.not_has_getNever hvalue
    | some parameters =>
      simp only [TArray.valueType, TArray.keyType, TArray.keyAndValueTypes, hsome,
        Option.some.injEq, forall_eq'] at hvalue hkey
      simp only [hsome, Option.any_some, Bool.and_eq_true, Bool.not_eq_true', not_and,
        Bool.not_eq_false] at hparameters
      obtain ⟨value, hvalue', -⟩ := hkey
      cases hnever : parameters.1.isNever with
      | true => exact TUnion.not_has_of_isNever hnever hvalue'
      | false => exact TUnion.not_has_of_isNever (hparameters hnever) hvalue
  | list l =>
    simp only [arrayIsFalsy, Bool.and_eq_true, Option.isNone_iff_eq_none] at h
    obtain ⟨⟨hknown, hnever⟩, -⟩ := h
    have hentries : (TArray.list l).knownEntries = [] := by
      simp [TArray.knownEntries, TArray.knownItemsView, hknown]
    exact TUnion.not_has_of_isNever hnever (ha.further hmem (by simp [hentries])).1

/-- Only truthy values. -/
theorem truthy_of_isTruthy {t : Atomic F K} (h : isTruthy t = true) (hv : t.Has v) :
    v.truthy = true := by
  cases t with
  | scalar t => exact scalar_truthy h hv
  | mixed m => exact TMixed.Has.truthy hv h
  | other t =>
    obtain ⟨a, rfl, ha⟩ := hv
    simpa [Value.truthy, World.truth] using array_truthy h ha
  | _ => cases h

/-- Only falsy values. -/
theorem falsy_of_isFalsy {t : Atomic F K} (h : isFalsy t = true) (hv : t.Has v) :
    v.truthy = false := by
  cases t with
  | scalar t => exact scalar_falsy h hv
  | mixed m => exact TMixed.Has.falsy hv h
  | other t =>
    obtain ⟨a, rfl, ha⟩ := hv
    simp [Value.truthy, World.truth, array_falsy h ha]
  | null =>
    cases hv
    rfl
  | void =>
    cases hv
    rfl
  | never => cases hv

end Sides

/-! ## The parts -/

section Parts

variable {F K O : Type} [LinearOrder F] [Zero F] [World O] [NamedKind K F O]
  {v : Value F (PhpArray F O)}

theorem array_nonEmpty {l : TList F K} {a : PhpArray F O} (ha : (TArray.list l).Has a)
    (hne : a.entries ≠ []) : (TArray.list { l with nonEmpty := true }).Has a :=
  ⟨ha.known, ha.required, fun _ => hne, ha.further, ha.isList, ha.count, ha.nonList⟩

theorem empty_list {a : PhpArray F O} (h : a.entries = []) :
    (TArray.list (⟨.getNever, none, none, false⟩ : TList F K)).Has a := by
  refine ⟨?_, ?_, ?_, ?_, fun _ => ?_, ?_, ?_⟩
  · intro k opt u v hmem
    cases hmem
  · intro k u hmem
    cases hmem
  · intro hne
    cases hne
  · intro k v hmem
    rw [h] at hmem
    cases hmem
  · simp [PhpArray.IsList, PhpArray.keys, PhpArray.len, h]
  · intro n hn
    cases hn
  · intro hn
    cases hn

theorem empty_keyed {a : PhpArray F O} (h : a.entries = []) :
    (TArray.keyed (⟨none, none, false, false⟩ : TKeyedArray F K)).Has a := by
  refine ⟨?_, ?_, ?_, ?_, ?_, ?_, ?_⟩
  · intro k opt u v hmem
    cases hmem
  · intro k u hmem
    cases hmem
  · intro hne
    cases hne
  · intro k v hmem
    rw [h] at hmem
    cases hmem
  · intro hlist
    cases hlist
  · intro n hn
    cases hn
  · intro hn
    cases hn

omit [Zero F] [World O] [NamedKind K F O] [LinearOrder F] in
theorem contains_zero {i : TInteger} (h : i.Has 0) : i.contains (.literal 0) = true := by
  cases i with
  | literal value => simpa [TInteger.contains, TInteger.isUnspecified,
      TInteger.isUnspecifiedLiteral, eq_comm] using h
  | unspecified => rfl
  | unspecifiedLiteral => rfl
  | _ => simpa [TInteger.contains, TInteger.isUnspecified, TInteger.isUnspecifiedLiteral] using h

theorem keyed_nonEmpty {array : TKeyedArray F K} {a : PhpArray F O}
    (ha : (TArray.keyed array).Has a) (hne : a.entries ≠ []) :
    (TArray.keyed { array with nonEmpty := true }).Has a :=
  ⟨ha.known, ha.required, fun _ => hne, ha.further, ha.isList, ha.count, ha.nonList⟩

omit [NamedKind K F O] in
/-- The new truthiness is one the value has. -/
theorem has_withTruthiness {m : TMixed} {truthiness : TMixedTruthiness} (hv : m.Has v)
    (hempty : m.isEmpty = true → v.truthy = false)
    (htruthy : truthiness = .truthy → v.truthy = true)
    (hfalsy : truthiness = .falsy → v.truthy = false) : (m.withTruthiness truthiness).Has v := by
  rw [TMixed.withTruthiness, TMixed.ensureConsistency]
  split
  · rename_i h
    refine ⟨fun h' => ?_, fun h' => ?_, fun _ => hempty h⟩
    · cases h'
    · cases h'
  · refine ⟨fun h => ?_, fun h => htruthy ?_, fun h => hfalsy ?_⟩
    · simp only [Bool.or_eq_true, beq_iff_eq] at h
      obtain h | h := h
      · exact hv.nonNull h
      · rintro rfl
        cases htruthy h
    · simpa [TMixed.isTruthy] using h
    · simpa [TMixed.isFalsy] using h

omit [NamedKind K F O] in
theorem falsy_of_isEmpty {m : TMixed} (hv : m.Has v) (h : m.isEmpty = true) :
    v.truthy = false :=
  hv.falsy (by simp [TMixed.isFalsy, m.falsy_of_isEmpty h])

/-- The truthy values of a type. -/
theorem has_truthyPart {t : Atomic F K} (hv : t.Has v) (htruthy : v.truthy = true) :
    (truthyPart t).Has v := by
  cases t with
  | scalar t =>
    cases t with
    | bool b =>
      rw [truthyPart]
      split
      · cases v with
        | bool v =>
          rintro u ⟨⟩
          exact htruthy.symm
        | _ => cases hv
      · exact hv
    | string s =>
      rw [truthyPart]
      split
      · cases v with
        | string value =>
          have hvalue : value ≠ [] ∧ value ≠ word "0" := by
            simpa [Value.truthy] using htruthy
          have hs : s.Has _ value := hv
          exact ⟨hs.value, hs.numeric, fun _ => hvalue, fun _ => hvalue.1, hs.callable, hs.casing⟩
        | _ => cases hv
      · exact hv
    | _ => exact hv
  | mixed m =>
    have hloop : (m.withIsIssetFromLoop false).Has v := ⟨hv.nonNull, hv.truthy, hv.falsy⟩
    exact has_withTruthiness hloop (falsy_of_isEmpty hloop) (fun _ => htruthy)
      (fun h => by cases h)
  | other t =>
    obtain ⟨a, rfl, ha⟩ := hv
    have hne : a.entries ≠ [] := by simpa [Value.truthy, World.truth] using htruthy
    cases t with
    | list l => exact ⟨a, rfl, array_nonEmpty ha hne⟩
    | keyed array => exact ⟨a, rfl, keyed_nonEmpty ha hne⟩
  | _ => exact hv

/-- The falsy values of a type that is not always falsy. -/
theorem has_falsyParts {t : Atomic F K} (hv : t.Has v) (hfalsy : v.truthy = false) :
    ∃ part ∈ falsyParts false t, part.Has v := by
  cases t with
  | scalar t =>
    cases t with
    | bool b =>
      cases v with
      | bool v =>
        have hvalue : v = false := hfalsy
        rw [falsyParts]
        split
        · refine ⟨_, List.mem_singleton_self _, ?_⟩
          rintro u ⟨⟩
          exact hvalue.symm
        · exact ⟨_, List.mem_singleton_self _, hv⟩
      | _ => cases hv
    | string s =>
      cases v with
      | string value =>
        have hs : s.Has _ value := hv
        have hvalue : value = [] ∨ value = word "0" := by
          simpa [Value.truthy, or_iff_not_imp_left] using hfalsy
        obtain rfl | rfl := hvalue
        · have hempty : s.isNonEmpty = false := by
            rw [← Bool.not_eq_true]
            exact fun h => hs.nonEmpty h rfl
          refine ⟨.scalar (.literalString (word "")), ?_, ?_⟩
          · simp [falsyParts, hempty]
          · exact TString.has_knownLiteral
        · refine ⟨.scalar (.literalString (word "0")), ?_, ?_⟩
          · simp [falsyParts]
          · exact TString.has_knownLiteral
      | _ => cases hv
    | integer i =>
      cases v with
      | int n =>
        have hn : n.val = 0 := by simpa [Value.truthy] using hfalsy
        have hi : i.Has n := hv
        rw [hn] at hi
        refine ⟨.scalar (.integer (.literal 0)), ?_, hn⟩
        simp [falsyParts, contains_zero hi]
      | _ => cases hv
    | _ => exact ⟨_, List.mem_singleton_self _, hv⟩
  | mixed m =>
    refine ⟨_, List.mem_singleton_self _, ?_⟩
    exact has_withTruthiness hv (fun _ => hfalsy) (fun h => by cases h) (fun _ => hfalsy)
  | other t =>
    obtain ⟨a, rfl, ha⟩ := hv
    have hempty : a.entries = [] := by simpa [Value.truthy, World.truth] using hfalsy
    cases t with
    | list l => exact ⟨_, List.mem_singleton_self _, a, rfl, empty_list hempty⟩
    | keyed array => exact ⟨_, List.mem_singleton_self _, a, rfl, empty_keyed hempty⟩
  | _ => exact ⟨_, List.mem_singleton_self _, hv⟩

end Parts

/-! ## No value is lost -/

section Reconcile

variable {F K O : Type} [LinearOrder F] [Zero F] [World O] [NamedKind K F O]
  {v : Value F (PhpArray F O)}

omit [LinearOrder F] [Zero F] [World O] [NamedKind K F O] in
theorem getAcceptableType_types {acceptableTypes : List (Atomic F K)} {t : Atomic F K}
    (u : VarType F K) (ht : t ∈ acceptableTypes) :
    (getAcceptableType acceptableTypes u).types = acceptableTypes := by
  rw [getAcceptableType, if_neg]
  simpa using List.ne_nil_of_mem ht

theorem has_reconcileTruthyOrNonEmpty {u : VarType F K} (hv : u.Has v)
    (htruthy : v.truthy = true) : (reconcileTruthyOrNonEmpty u).Has v := by
  obtain ⟨t, ht, htv⟩ := hv
  have hfalsy : isFalsy t = false := by
    rw [← Bool.not_eq_true]
    intro h
    rw [falsy_of_isFalsy h htv] at htruthy
    cases htruthy
  obtain ⟨t', hmem, hv'⟩ : ∃ t', (if isFalsy t then none
      else if !isTruthy t || u.possiblyUndefinedFromTry then some (truthyPart t)
      else some t) = some t' ∧ t'.Has v := by
    rw [hfalsy, if_neg Bool.false_ne_true]
    split
    · exact ⟨_, rfl, has_truthyPart htv htruthy⟩
    · exact ⟨_, rfl, htv⟩
  have hacc : t' ∈ u.types.filterMap fun atomic =>
      if isFalsy atomic then none
      else if !isTruthy atomic || u.possiblyUndefinedFromTry then some (truthyPart atomic)
      else some atomic := List.mem_filterMap.mpr ⟨t, ht, hmem⟩
  refine ⟨t', ?_, hv'⟩
  rw [reconcileTruthyOrNonEmpty, getAcceptableType_types _ hacc]
  exact hacc

theorem has_reconcileFalsyOrEmpty {u : VarType F K} (hv : u.Has v) (hfalsy : v.truthy = false) :
    (reconcileFalsyOrEmpty false u).Has v := by
  obtain ⟨t, ht, htv⟩ := hv
  have htruthy : isTruthy t = false := by
    rw [← Bool.not_eq_true]
    intro h
    rw [truthy_of_isTruthy h htv] at hfalsy
    cases hfalsy
  obtain ⟨t', hmem, hv'⟩ : ∃ t' ∈ (if isTruthy t && !u.possiblyUndefinedFromTry then []
      else if !isFalsy t then falsyParts false t
      else [t]), t'.Has v := by
    rw [htruthy, Bool.false_and, if_neg Bool.false_ne_true]
    split
    · exact has_falsyParts htv hfalsy
    · exact ⟨t, List.mem_singleton_self t, htv⟩
  have hacc : t' ∈ u.types.flatMap fun atomic =>
      if isTruthy atomic && !u.possiblyUndefinedFromTry then []
      else if !isFalsy atomic then falsyParts false atomic
      else [atomic] := List.mem_flatMap.mpr ⟨t, ht, hmem⟩
  refine ⟨t', ?_, hv'⟩
  rw [reconcileFalsyOrEmpty, getAcceptableType_types _ hacc]
  exact hacc

/-- Each value of a union is left on the side of its truthiness. -/
theorem reconcile_keeps (u : VarType F K) (v : Value F (PhpArray F O)) (hv : u.Has v) :
    (v.truthy = true → (reconcile .truthy u).Has v) ∧
      (v.truthy = false → (reconcile .falsy u).Has v) :=
  ⟨has_reconcileTruthyOrNonEmpty hv, has_reconcileFalsyOrEmpty hv⟩

/-- The string zero is among the values of `string|null` that are left as falsy. -/
theorem reconcile_keeps_zero :
    let u : VarType ℕ Empty := ⟨⟨[.scalar (.string .general), .null]⟩, false, false⟩
    let v : Value ℕ (PhpArray ℕ Empty) := .string (word "0")
    u.Has v ∧ (v.truthy = true → (reconcile .truthy u).Has v) ∧
      (v.truthy = false → (reconcile .falsy u).Has v) := by
  intro u v
  have hv : u.Has v := ⟨_, List.mem_cons_self, TString.has_general⟩
  exact ⟨hv, reconcile_keeps u v hv⟩

end Reconcile

end Mago.Types.Truthiness
