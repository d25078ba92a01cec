import Mago.Types.ListSubtract

/-!
# Intersection of array types

The type the reconciler computes for the arrays of two array types, over a containment check and
over an intersection of unions. An array of both types is carried over unless an intersection of
entries or of further entries has no type, the empty array is ruled out without reason, or an
entry is known to the first type only.
-/
namespace Mago.Types

open Mago.Algebra (ArrayKey)
open Mago.Library

/-! ## The intersection -/

section Intersection

/-- The entries of a map, some of them left out; `none` ends the whole. -/
def keepEntries {κ ν : Type} (keep : κ → ν → Option (Option ν)) :
    List (κ × ν) → Option (List (κ × ν))
  | [] => some []
  | (k, v) :: entries =>
    match keep k v with
    | none => none
    | some none => keepEntries keep entries
    | some (some kept) => (keepEntries keep entries).map ((k, kept) :: ·)

def keepMap {κ ν : Type} [DecidableEq κ] (keep : κ → ν → Option (Option ν))
    (m : OrderedMap κ ν) : Option (OrderedMap κ ν) :=
  (keepEntries keep m.entries).map OrderedMap.ofList

variable {F K : Type} (isContainedBy : TArray F K → TArray F K → (insideAssertion : Bool) → Bool)
  (intersectUnionWithUnion : ItemType F K → ItemType F K → Option (ItemType F K))

abbrev KnownArrayItems (F K : Type) := OrderedMap ArrayKey (Bool × ItemType F K)

/-- An entry whose type is intersected with another one. -/
def narrowed (optional : Bool) (item other : ItemType F K) :
    Option (Option (Bool × ItemType F K)) :=
  (intersectUnionWithUnion item other).map fun item => some (optional, item)

def keepElement (firstList : TList F K) (firstElements : KnownElements F K) (key : UInt64)
    (second : Bool × ItemType F K) : Option (Option (Bool × ItemType F K)) :=
  match firstElements.get? key with
  | some first => narrowed intersectUnionWithUnion (second.1 && first.1) first.2 second.2
  | none =>
    if !firstList.elementType.isNever then
      narrowed intersectUnionWithUnion second.1 firstList.elementType second.2
    else if !second.1 then none
    else some (some second)

def intersectListArrays (firstList secondList : TList F K) : Option (TList F K) :=
  let elementType := intersectUnionWithUnion firstList.elementType secondList.elementType
  match firstList.knownElements, secondList.knownElements with
  | some firstElements, some secondElements =>
    (keepMap (keepElement intersectUnionWithUnion firstList firstElements) secondElements).bind
      fun elements => elementType.map fun elementType => ⟨elementType, some elements, none, true⟩
  | none, some secondElements =>
    (keepMap (fun _ second =>
      narrowed intersectUnionWithUnion second.1 second.2 firstList.elementType)
      secondElements).bind
      fun elements => elementType.map fun elementType => ⟨elementType, some elements, none, false⟩
  | some firstElements, none =>
    (keepMap (fun _ first =>
      narrowed intersectUnionWithUnion first.1 first.2 secondList.elementType) firstElements).bind
      fun elements => elementType.map fun elementType => ⟨elementType, some elements, none, false⟩
  | none, none => elementType.map fun elementType => ⟨elementType, none, none, true⟩

def keepItem (firstArray : TKeyedArray F K) (firstItems : KnownArrayItems F K)
    (key : ArrayKey) (second : Bool × ItemType F K) : Option (Option (Bool × ItemType F K)) :=
  match firstItems.get? key with
  | some first => narrowed intersectUnionWithUnion (second.1 && first.1) first.2 second.2
  | none =>
    match firstArray.parameters with
    | some parameters => narrowed intersectUnionWithUnion second.1 parameters.2 second.2
    | none => if !second.1 then none else some none

/-- The items of one array against the parameters of the other. -/
def keepAgainst (parameters ownParameters : Option (ItemType F K × ItemType F K))
    (item : Bool × ItemType F K) : Option (Option (Bool × ItemType F K)) :=
  match parameters with
  | some parameters => narrowed intersectUnionWithUnion item.1 item.2 parameters.2
  | none => if ownParameters.isNone && !item.1 then none else some (some item)

/-- No parameters where one side has none; `none` where they have nothing in common. -/
def intersectParameters (first second : Option (ItemType F K × ItemType F K)) :
    Option (Option (ItemType F K × ItemType F K)) :=
  match first, second with
  | some first, some second =>
    match intersectUnionWithUnion first.1 second.1, intersectUnionWithUnion first.2 second.2 with
    | some key, some value => some (some (key, value))
    | _, _ => none
  | _, _ => some none

def intersectKeyedArrays (firstArray secondArray : TKeyedArray F K) : Option (TKeyedArray F K) :=
  let knownNonList := firstArray.knownNonList || secondArray.knownNonList
  (intersectParameters intersectUnionWithUnion firstArray.parameters secondArray.parameters).bind
    fun parameters =>
      match firstArray.knownItems, secondArray.knownItems with
      | some firstItems, some secondItems =>
        (keepMap (keepItem intersectUnionWithUnion firstArray firstItems) secondItems).map
          fun items => ⟨some items, parameters, true, knownNonList⟩
      | none, some secondItems =>
        (keepMap (fun _ => keepAgainst intersectUnionWithUnion firstArray.parameters
          secondArray.parameters) secondItems).map
          fun items => ⟨some items, parameters, true, knownNonList⟩
      | some firstItems, none =>
        (keepMap (fun _ => keepAgainst intersectUnionWithUnion secondArray.parameters
          firstArray.parameters) firstItems).map
          fun items => ⟨some items, parameters, true, knownNonList⟩
      | none, none => some ⟨none, parameters, true, knownNonList⟩

/-- A type contained in the other is the intersection. -/
def intersectAtomicWithAtomic (first second : TArray F K) : Option (TArray F K) :=
  if isContainedBy second first true then some second
  else if isContainedBy first second false then some first
  else
    match first, second with
    | .keyed firstArray, .keyed secondArray =>
      (intersectKeyedArrays intersectUnionWithUnion firstArray secondArray).map .keyed
    | .list firstList, .list secondList =>
      (intersectListArrays intersectUnionWithUnion firstList secondList).map .list
    | _, _ => none

end Intersection

/-! ## Kept entries -/

section Kept

variable {κ ν : Type} {keep : κ → ν → Option (Option ν)}

theorem keepEntries_eq_none_iff {entries : List (κ × ν)} :
    keepEntries keep entries = none ↔ ∃ e ∈ entries, keep e.1 e.2 = none := by
  induction entries with
  | nil => simp [keepEntries]
  | cons e entries ih =>
    obtain ⟨k, v⟩ := e
    rw [keepEntries]
    cases hkeep : keep k v with
    | none => simp [hkeep]
    | some kept =>
      cases kept with
      | none => simp [hkeep, ih]
      | some kept => simp [hkeep, ih]

theorem mem_of_keepEntries {entries kept : List (κ × ν)} (h : keepEntries keep entries = some kept)
    {k : κ} {v : ν} : (k, v) ∈ kept ↔ ∃ v₀, (k, v₀) ∈ entries ∧ keep k v₀ = some (some v) := by
  induction entries generalizing kept with
  | nil =>
    cases h
    simp
  | cons e entries ih =>
    obtain ⟨k', v'⟩ := e
    rw [keepEntries] at h
    cases hkeep : keep k' v' with
    | none =>
      rw [hkeep] at h
      cases h
    | some result =>
      rw [hkeep] at h
      cases result with
      | none =>
        rw [ih h]
        constructor
        · rintro ⟨v₀, hmem, hv⟩
          exact ⟨v₀, List.mem_cons_of_mem _ hmem, hv⟩
        · rintro ⟨v₀, hmem, hv⟩
          obtain heq | hmem := List.mem_cons.mp hmem
          · cases heq
            rw [hkeep] at hv
            cases hv
          · exact ⟨v₀, hmem, hv⟩
      | some result =>
        obtain ⟨rest, hrest, rfl⟩ := Option.map_eq_some_iff.mp h
        rw [List.mem_cons, ih hrest]
        constructor
        · rintro (heq | ⟨v₀, hmem, hv⟩)
          · cases heq
            exact ⟨v', List.mem_cons_self, hkeep⟩
          · exact ⟨v₀, List.mem_cons_of_mem _ hmem, hv⟩
        · rintro ⟨v₀, hmem, hv⟩
          obtain heq | hmem := List.mem_cons.mp hmem
          · cases heq
            rw [hkeep] at hv
            cases hv
            exact Or.inl rfl
          · exact Or.inr ⟨v₀, hmem, hv⟩

theorem keepEntries_sublist {entries kept : List (κ × ν)}
    (h : keepEntries keep entries = some kept) :
    (kept.map Prod.fst).Sublist (entries.map Prod.fst) := by
  induction entries generalizing kept with
  | nil =>
    cases h
    exact List.Sublist.refl _
  | cons e entries ih =>
    obtain ⟨k, v⟩ := e
    rw [keepEntries] at h
    cases hkeep : keep k v with
    | none =>
      rw [hkeep] at h
      cases h
    | some result =>
      rw [hkeep] at h
      cases result with
      | none => exact (ih h).cons _
      | some result =>
        obtain ⟨rest, hrest, rfl⟩ := Option.map_eq_some_iff.mp h
        exact (ih hrest).cons_cons _

variable [DecidableEq κ]

theorem keepMap_eq_none_iff {m : OrderedMap κ ν} :
    keepMap keep m = none ↔ ∃ e ∈ m.entries, keep e.1 e.2 = none := by
  rw [keepMap, Option.map_eq_none_iff, keepEntries_eq_none_iff]

theorem mem_of_keepMap {m kept : OrderedMap κ ν} (h : keepMap keep m = some kept) {k : κ} {v : ν} :
    (k, v) ∈ kept.entries ↔ ∃ v₀, (k, v₀) ∈ m.entries ∧ keep k v₀ = some (some v) := by
  obtain ⟨entries, hentries, rfl⟩ := Option.map_eq_some_iff.mp h
  have hnodup : (entries.map Prod.fst).Nodup := m.nodup.sublist (keepEntries_sublist hentries)
  rw [← OrderedMap.get?_eq_some_iff, OrderedMap.get?_ofList hnodup, mem_of_keepEntries hentries]

end Kept

/-! ## What is intersected -/

section Compared

variable {F K : Type}

/-- An element of the second list and what it is compared with. -/
def comparedElement (firstList : TList F K) (firstElements : KnownElements F K)
    (second : UInt64 × Bool × ItemType F K) : Option (ItemType F K × ItemType F K) :=
  match firstElements.get? second.1 with
  | some first => some (first.2, second.2.2)
  | none =>
    if firstList.elementType.isNever then none else some (firstList.elementType, second.2.2)

def comparedElements (firstList secondList : TList F K) : List (ItemType F K × ItemType F K) :=
  match firstList.knownElements, secondList.knownElements with
  | some firstElements, some secondElements =>
    secondElements.entries.filterMap (comparedElement firstList firstElements)
  | none, some secondElements =>
    secondElements.entries.map fun second => (second.2.2, firstList.elementType)
  | some firstElements, none =>
    firstElements.entries.map fun first => (first.2.2, secondList.elementType)
  | none, none => []

def comparedItem (firstArray : TKeyedArray F K) (firstItems : KnownArrayItems F K)
    (second : ArrayKey × Bool × ItemType F K) : Option (ItemType F K × ItemType F K) :=
  match firstItems.get? second.1 with
  | some first => some (first.2, second.2.2)
  | none => firstArray.parameters.map fun parameters => (parameters.2, second.2.2)

def comparedItems (firstArray secondArray : TKeyedArray F K) :
    List (ItemType F K × ItemType F K) :=
  match firstArray.knownItems, secondArray.knownItems with
  | some firstItems, some secondItems =>
    secondItems.entries.filterMap (comparedItem firstArray firstItems)
  | none, some secondItems => secondItems.entries.filterMap fun second =>
    firstArray.parameters.map fun parameters => (second.2.2, parameters.2)
  | some firstItems, none => firstItems.entries.filterMap fun first =>
    secondArray.parameters.map fun parameters => (first.2.2, parameters.2)
  | none, none => []

def comparedParameters (firstArray secondArray : TKeyedArray F K) :
    List (ItemType F K × ItemType F K) :=
  match firstArray.parameters, secondArray.parameters with
  | some first, some second => [(first.2, second.2)]
  | _, _ => []

/-- The types of entries and of further entries that are intersected. -/
def comparedTypes : TArray F K → TArray F K → List (ItemType F K × ItemType F K)
  | .list firstList, .list secondList =>
    (firstList.elementType, secondList.elementType) :: comparedElements firstList secondList
  | .keyed firstArray, .keyed secondArray =>
    comparedParameters firstArray secondArray ++ comparedItems firstArray secondArray
  | _, _ => []

def comparedKeys : TArray F K → TArray F K → List (ItemType F K × ItemType F K)
  | .keyed firstArray, .keyed secondArray =>
    match firstArray.parameters, secondArray.parameters with
    | some first, some second => [(first.1, second.1)]
    | _, _ => []
  | _, _ => []

variable {O : Type} [LinearOrder F] [Zero F] [World O] [NamedKind K F O]

/-- The intersections of these types are exact, those of key types on keys. -/
structure UnionsExact (O : Type) [World O] [NamedKind K F O]
    (intersectUnions : ItemType F K → ItemType F K → Option (ItemType F K))
    (first second : TArray F K) : Prop where
  values : ∀ {u u' w}, (u, u') ∈ comparedTypes first second → intersectUnions u u' = some w →
    ∀ v : Value F O, w.Has v ↔ u.Has v ∧ u'.Has v
  keys : ∀ {u u' w}, (u, u') ∈ comparedKeys first second → intersectUnions u u' = some w →
    ∀ k, w.HasKey O k ↔ u.HasKey O k ∧ u'.HasKey O k

/-- None of the intersections is without a type. -/
def Meet (intersectUnions : ItemType F K → ItemType F K → Option (ItemType F K))
    (first second : TArray F K) : Prop :=
  ∀ p ∈ comparedTypes first second ++ comparedKeys first second,
    intersectUnions p.1 p.2 ≠ none

/-- Known to the first type only. -/
def OnlyFirst (first second : TArray F K) (k : ArrayKey) : Prop :=
  k ∈ first.knownEntries.map Prod.fst ∧ k ∉ second.knownEntries.map Prod.fst

/-- What the intersection of the two types has to say of an array of both. -/
def Carried (intersectUnions : ItemType F K → ItemType F K → Option (ItemType F K))
    (first second : TArray F K) (a : PhpArray F O) : Prop :=
  match first, second with
  | .list firstList, .list secondList =>
    Meet intersectUnions first second ∧
      (firstList.knownElements.isSome = secondList.knownElements.isSome → a.entries ≠ []) ∧
      (secondList.knownElements.isSome = true → ∀ k v, (k, v) ∈ a.entries →
        OnlyFirst first second k → firstList.elementType.Has v)
  | .keyed firstArray, .keyed secondArray =>
    Meet intersectUnions first second ∧ a.entries ≠ [] ∧
      (secondArray.knownItems.isSome = true → ∀ k v, (k, v) ∈ a.entries →
        OnlyFirst first second k → ∃ parameters, firstArray.parameters = some parameters ∧
          parameters.1.HasKey O k ∧ parameters.2.Has v)
  | _, _ => False

/-- What is left to check of an array when the entries are right. -/
theorem TArray.has_iff_of_entries {r : TArray F K} {a : PhpArray F O}
    (hknown : ∀ {k opt u}, (k, opt, u) ∈ r.knownEntries →
      (∀ v, (k, v) ∈ a.entries → u.Has v) ∧ (opt = false → k ∈ a.keys))
    (hlist : r.isList = true → a.IsList) (hcount : r.knownCount = none)
    (hnonList : r.knownNonList = true → ¬ a.IsList) :
    r.Has a ↔ (r.isNonEmpty = true → a.entries ≠ []) ∧
      ∀ k v, (k, v) ∈ a.entries → k ∉ r.knownEntries.map Prod.fst →
        r.valueType.Has v ∧ ∀ u, r.keyType = some u → u.HasKey O k := by
  constructor
  · intro h
    exact ⟨h.nonEmpty, fun k v => h.further⟩
  · rintro ⟨hnonEmpty, hfurther⟩
    refine ⟨fun hmem hv => (hknown hmem).1 _ hv, fun hmem => (hknown hmem).2 rfl, hnonEmpty,
      fun hv hnot => hfurther _ _ hv hnot, hlist, fun n hn => ?_, hnonList⟩
    rw [hcount] at hn
    cases hn

variable {intersectUnions : ItemType F K → ItemType F K → Option (ItemType F K)}

omit [LinearOrder F] [Zero F] in
theorem narrowed_eq_none_iff {optional : Bool} {item other : ItemType F K} :
    narrowed intersectUnions optional item other = none ↔ intersectUnions item other = none := by
  rw [narrowed, Option.map_eq_none_iff]

omit [LinearOrder F] [Zero F] in
theorem narrowed_eq_some_iff {optional : Bool} {item other : ItemType F K}
    {kept : Option (Bool × ItemType F K)} :
    narrowed intersectUnions optional item other = some kept ↔
      ∃ w, intersectUnions item other = some w ∧ kept = some (optional, w) := by
  rw [narrowed, Option.map_eq_some_iff]
  constructor
  · rintro ⟨w, hw, rfl⟩
    exact ⟨w, hw, rfl⟩
  · rintro ⟨w, hw, rfl⟩
    exact ⟨w, hw, rfl⟩

omit [LinearOrder F] [Zero F] in
theorem narrowed_ne {optional : Bool} {item other : ItemType F K} :
    narrowed intersectUnions optional item other ≠ some none := by
  intro h
  obtain ⟨w, -, hw⟩ := narrowed_eq_some_iff.mp h
  cases hw

end Compared

/-! ## Lists -/

section Lists

variable {F K O : Type}
  {intersectUnions : ItemType F K → ItemType F K → Option (ItemType F K)}
  {first second r : TList F K}

theorem keepElement_ne {elements : KnownElements F K} {key : UInt64}
    {e : Bool × ItemType F K} : keepElement intersectUnions first elements key e ≠ some none := by
  unfold keepElement
  intro h
  split at h
  · obtain ⟨w, -, hw⟩ := narrowed_eq_some_iff.mp h
    cases hw
  · split at h
    · obtain ⟨w, -, hw⟩ := narrowed_eq_some_iff.mp h
      cases hw
    · split at h
      · cases h
      · cases h

variable [LinearOrder F] [Zero F] [World O] [NamedKind K F O] {a : PhpArray F O}

omit [LinearOrder F] [Zero F] in
theorem knownEntries_list_none (h : first.knownElements = none) :
    (TArray.list first).knownEntries = [] := by
  simp [TArray.knownEntries, TArray.knownItemsView, h]

omit [LinearOrder F] [Zero F] in
theorem indexKey_mem_iff {elements : KnownElements F K} (h : first.knownElements = some elements)
    {key : UInt64} : indexKey key ∈ (TArray.list first).knownEntries.map Prod.fst ↔
      elements.get? key ≠ none := by
  rw [Ne, OrderedMap.get?_eq_none_iff, not_not, OrderedMap.mem_keys]
  constructor
  · intro hmem
    obtain ⟨⟨k, e⟩, he, hk⟩ := List.mem_map.mp hmem
    obtain ⟨index, hindex, hkey⟩ := (mem_knownEntries_list h).mp he
    rw [← indexKey_inj (hkey.trans hk)]
    exact ⟨e, hindex⟩
  · rintro ⟨e, he⟩
    exact List.mem_map_of_mem ((mem_knownEntries_list h).mpr ⟨key, he, rfl⟩)

/-- A required entry that a sealed list leaves out is in no common list. -/
theorem TArray.Has.not_sealed_off {elements : KnownElements F K}
    (h₁ : (TArray.list first).Has a) (h₂ : (TArray.list second).Has a)
    (hfirst : first.knownElements = some elements) {key : UInt64} {u : ItemType F K}
    (hkey : elements.get? key = none)
    (hmem : (indexKey key, false, u) ∈ (TArray.list second).knownEntries) :
    first.elementType.isNever = false := by
  obtain ⟨v, hv⟩ := PhpArray.mem_keys.mp (h₂.required hmem)
  have hnot : indexKey key ∉ (TArray.list first).knownEntries.map Prod.fst := by
    rw [indexKey_mem_iff hfirst]
    exact not_not.mpr hkey
  cases hnever : first.elementType.isNever with
  | false => rfl
  | true => exact absurd (h₁.further hv hnot).1 (TUnion.not_has_of_isNever hnever)

/-- An entry ends the intersection when the type it is compared with has nothing of it. -/
theorem keepElement_eq_none_iff {elements : KnownElements F K}
    (h₁ : (TArray.list first).Has a) (h₂ : (TArray.list second).Has a)
    (hfirst : first.knownElements = some elements) {key : UInt64} {e : Bool × ItemType F K}
    (hmem : (indexKey key, e) ∈ (TArray.list second).knownEntries) :
    keepElement intersectUnions first elements key e = none ↔
      ∃ p, comparedElement first elements (key, e) = some p ∧
        intersectUnions p.1 p.2 = none := by
  unfold keepElement comparedElement
  cases hkey : elements.get? key with
  | some e₁ =>
    simp only [narrowed_eq_none_iff, Option.some.injEq, exists_eq_left']
  | none =>
    cases hnever : first.elementType.isNever with
    | false =>
      simp only [Bool.not_false, if_true, Bool.false_eq_true, if_false, narrowed_eq_none_iff,
        Option.some.injEq, exists_eq_left']
    | true =>
      obtain ⟨opt, u⟩ := e
      cases opt with
      | true => simp
      | false =>
        have hopen := h₁.not_sealed_off h₂ hfirst hkey hmem
        rw [hnever] at hopen
        cases hopen

omit [LinearOrder F] [Zero F] in
theorem not_meet_list_iff :
    ¬ Meet intersectUnions (.list first) (.list second) ↔
      (∃ p ∈ comparedElements first second, intersectUnions p.1 p.2 = none) ∨
        intersectUnions first.elementType second.elementType = none := by
  simp only [Meet, comparedTypes, comparedKeys, List.append_nil, List.mem_cons,
    forall_eq_or_imp, ne_eq, not_and_or, not_not, not_forall, exists_prop]
  exact or_comm

omit [LinearOrder F] [Zero F] [World O] [NamedKind K F O] in
theorem bind_map_eq_none_iff {α β γ : Type} {x : Option α} {y : Option β} {f : α → β → γ} :
    (x.bind fun b => y.map (f b)) = none ↔ x = none ∨ y = none := by
  cases x with
  | none => simp
  | some b => simp

/-- The intersection has no type for two lists with a common list exactly when an intersection
of their types has none. -/
theorem intersectListArrays_eq_none_iff (h₁ : (TArray.list first).Has a)
    (h₂ : (TArray.list second).Has a) :
    intersectListArrays intersectUnions first second = none ↔
      ¬ Meet intersectUnions (.list first) (.list second) := by
  rw [not_meet_list_iff]
  unfold intersectListArrays comparedElements
  cases hfirst : first.knownElements with
  | some firstElements =>
    cases hsecond : second.knownElements with
    | some secondElements =>
      simp only []
      rw [bind_map_eq_none_iff, keepMap_eq_none_iff]
      apply or_congr_left
      constructor
      · rintro ⟨⟨key, e⟩, he, hnone⟩
        have hmem := (mem_knownEntries_list hsecond).mpr ⟨key, he, rfl⟩
        obtain ⟨p, hp, hpair⟩ := (keepElement_eq_none_iff h₁ h₂ hfirst hmem).mp hnone
        exact ⟨p, List.mem_filterMap.mpr ⟨(key, e), he, hp⟩, hpair⟩
      · rintro ⟨p, hp, hpair⟩
        obtain ⟨⟨key, e⟩, he, hp⟩ := List.mem_filterMap.mp hp
        have hmem := (mem_knownEntries_list hsecond).mpr ⟨key, he, rfl⟩
        exact ⟨(key, e), he, (keepElement_eq_none_iff h₁ h₂ hfirst hmem).mpr ⟨p, hp, hpair⟩⟩
    | none =>
      simp only []
      rw [bind_map_eq_none_iff, keepMap_eq_none_iff]
      simp only [narrowed_eq_none_iff, List.mem_map, exists_exists_and_eq_and]
  | none =>
    cases hsecond : second.knownElements with
    | some secondElements =>
      simp only []
      rw [bind_map_eq_none_iff, keepMap_eq_none_iff]
      simp only [narrowed_eq_none_iff, List.mem_map, exists_exists_and_eq_and]
    | none =>
      simp only []
      rw [Option.map_eq_none_iff]
      simp

/-- An entry of the intersection says of a common list what the entries and further entries it
comes from say. -/
theorem kept_element {firstElements secondElements kept : KnownElements F K}
    (h₁ : (TArray.list first).Has a) (h₂ : (TArray.list second).Has a)
    (hexact : UnionsExact O intersectUnions (.list first) (.list second))
    (hfirst : first.knownElements = some firstElements)
    (hsecond : second.knownElements = some secondElements)
    (hkept : keepMap (keepElement intersectUnions first firstElements) secondElements = some kept)
    {key : UInt64} {opt : Bool} {u : ItemType F K} (hmem : (key, opt, u) ∈ kept.entries) :
    (∀ v, (indexKey key, v) ∈ a.entries → u.Has v) ∧ (opt = false → indexKey key ∈ a.keys) := by
  obtain ⟨⟨opt₂, u₂⟩, he₂, hkeep⟩ := (mem_of_keepMap hkept).mp hmem
  have hmem₂ := (mem_knownEntries_list hsecond).mpr ⟨key, he₂, rfl⟩
  unfold keepElement at hkeep
  cases hkey : firstElements.get? key with
  | some e₁ =>
    obtain ⟨opt₁, u₁⟩ := e₁
    rw [hkey] at hkeep
    obtain ⟨w, hw, heq⟩ := narrowed_eq_some_iff.mp hkeep
    cases heq
    have hmem₁ := (mem_knownEntries_list hfirst).mpr
      ⟨key, OrderedMap.get?_eq_some_iff.mp hkey, rfl⟩
    have hcompared : (u₁, u₂) ∈ comparedTypes (.list first) (.list second) := by
      simp only [comparedTypes, comparedElements, hfirst, hsecond, List.mem_cons,
        List.mem_filterMap]
      exact Or.inr ⟨(key, opt₂, u₂), he₂, by rw [comparedElement, hkey]⟩
    refine ⟨fun v hv => (hexact.values hcompared hw v).mpr ⟨h₁.known hmem₁ hv, h₂.known hmem₂ hv⟩,
      fun hopt => ?_⟩
    rw [Bool.and_eq_false_iff] at hopt
    obtain rfl | rfl := hopt
    · exact h₂.required hmem₂
    · exact h₁.required hmem₁
  | none =>
    have hnot : indexKey key ∉ (TArray.list first).knownEntries.map Prod.fst := by
      rw [indexKey_mem_iff hfirst]
      exact not_not.mpr hkey
    rw [hkey] at hkeep
    cases hnever : first.elementType.isNever with
    | false =>
      simp only [hnever, Bool.not_false, if_true] at hkeep
      obtain ⟨w, hw, heq⟩ := narrowed_eq_some_iff.mp hkeep
      cases heq
      have hcompared : (first.elementType, u₂) ∈ comparedTypes (.list first) (.list second) := by
        simp only [comparedTypes, comparedElements, hfirst, hsecond, List.mem_cons,
          List.mem_filterMap]
        refine Or.inr ⟨(key, _, u₂), he₂, ?_⟩
        rw [comparedElement, hkey, hnever]
        rfl
      refine ⟨fun v hv => (hexact.values hcompared hw v).mpr
        ⟨(h₁.further hv hnot).1, h₂.known hmem₂ hv⟩, ?_⟩
      rintro rfl
      exact h₂.required hmem₂
    | true =>
      simp only [hnever, Bool.not_true, Bool.false_eq_true, if_false] at hkeep
      split at hkeep
      · cases hkeep
      · cases hkeep
        refine ⟨fun v hv => h₂.known hmem₂ hv, ?_⟩
        rintro rfl
        exact h₂.required hmem₂

/-- The same for the entries of one list beside the further entries of another. -/
theorem kept_against {lists : TList F K} {elements kept : KnownElements F K} {other : ItemType F K}
    (h : (TArray.list lists).Has a) (hlists : lists.knownElements = some elements)
    (hother : ∀ k v, (k, v) ∈ a.entries → other.Has v)
    (hexact : ∀ u w, u ∈ elements.values.map Prod.snd → intersectUnions u other = some w →
      ∀ v : Value F O, w.Has v ↔ u.Has v ∧ other.Has v)
    (hkept : keepMap (fun _ e => narrowed intersectUnions e.1 e.2 other) elements = some kept)
    {key : UInt64} {opt : Bool} {u : ItemType F K} (hmem : (key, opt, u) ∈ kept.entries) :
    (∀ v, (indexKey key, v) ∈ a.entries → u.Has v) ∧ (opt = false → indexKey key ∈ a.keys) := by
  obtain ⟨⟨opt₀, u₀⟩, he₀, hkeep⟩ := (mem_of_keepMap hkept).mp hmem
  have hmem₀ := (mem_knownEntries_list hlists).mpr ⟨key, he₀, rfl⟩
  obtain ⟨w, hw, heq⟩ := narrowed_eq_some_iff.mp hkeep
  cases heq
  have hvalue : u₀ ∈ elements.values.map Prod.snd :=
    List.mem_map_of_mem (f := Prod.snd) (OrderedMap.mem_values_of_mem he₀)
  refine ⟨fun v hv => (hexact u₀ _ hvalue hw v).mpr ⟨h.known hmem₀ hv, hother _ v hv⟩, ?_⟩
  rintro rfl
  exact h.required hmem₀

omit [LinearOrder F] [Zero F] in
/-- The keys of the kept entries are those of all entries. -/
theorem kept_keys {l result : TList F K} {elements kept : KnownElements F K}
    {keep : UInt64 → Bool × ItemType F K → Option (Option (Bool × ItemType F K))}
    (hkeep : ∀ key e, keep key e ≠ some none) (hl : l.knownElements = some elements)
    (hresult : result.knownElements = some kept) (hkept : keepMap keep elements = some kept)
    {k : ArrayKey} : k ∈ (TArray.list result).knownEntries.map Prod.fst ↔
      k ∈ (TArray.list l).knownEntries.map Prod.fst := by
  constructor
  · intro hk
    obtain ⟨⟨k, e⟩, hmem, rfl⟩ := List.mem_map.mp hk
    obtain ⟨index, hindex, rfl⟩ := (mem_knownEntries_list hresult).mp hmem
    obtain ⟨e₀, he₀, -⟩ := (mem_of_keepMap hkept).mp hindex
    exact List.mem_map.mpr ⟨_, (mem_knownEntries_list hl).mpr ⟨index, he₀, rfl⟩, rfl⟩
  · intro hk
    obtain ⟨⟨k, e₀⟩, hmem, rfl⟩ := List.mem_map.mp hk
    obtain ⟨index, hindex, rfl⟩ := (mem_knownEntries_list hl).mp hmem
    have hnone : keep index e₀ ≠ none := by
      intro hnone
      rw [keepMap_eq_none_iff.mpr ⟨(index, e₀), hindex, hnone⟩] at hkept
      cases hkept
    obtain ⟨result, hsome⟩ := Option.ne_none_iff_exists'.mp hnone
    cases result with
    | none => exact absurd hsome (hkeep index e₀)
    | some e =>
      have hmem := (mem_of_keepMap hkept).mpr ⟨e₀, hindex, hsome⟩
      exact List.mem_map.mpr ⟨_, (mem_knownEntries_list hresult).mpr ⟨index, hmem, rfl⟩, rfl⟩

/-- Lists of both types and of a type with the known keys of the second. -/
theorem has_iff_of_keys {l l' : TList F K} (h : (TArray.list l).Has a) (h' : (TArray.list l').Has a)
    (helement : ∀ v : Value F O, r.elementType.Has v ↔ l.elementType.Has v ∧ l'.elementType.Has v)
    (hentries : ∀ {k opt u}, (k, opt, u) ∈ (TArray.list r).knownEntries →
      (∀ v, (k, v) ∈ a.entries → u.Has v) ∧ (opt = false → k ∈ a.keys))
    (hcount : r.knownCount = none)
    (hkeys : ∀ k, k ∈ (TArray.list r).knownEntries.map Prod.fst ↔
      k ∈ (TArray.list l').knownEntries.map Prod.fst) :
    (TArray.list r).Has a ↔ (r.nonEmpty = true → a.entries ≠ []) ∧
      ∀ k v, (k, v) ∈ a.entries → OnlyFirst (.list l) (.list l') k → l.elementType.Has v := by
  rw [TArray.has_iff_of_entries (r := .list r) hentries (fun _ => h.isList rfl) hcount
    (fun hnonList => by cases hnonList)]
  apply and_congr_right
  intro _
  constructor
  · intro hfurther k v hv honly
    have hnot := mt (hkeys k).mp honly.2
    exact ((helement v).mp (hfurther k v hv hnot).1).1
  · intro honly k v hv hnot
    obtain ⟨hvalue', hkey'⟩ := h'.further hv (mt (hkeys k).mpr hnot)
    refine ⟨(helement v).mpr ⟨?_, hvalue'⟩, hkey'⟩
    by_cases hk : k ∈ (TArray.list l).knownEntries.map Prod.fst
    · exact honly k v hv ⟨hk, mt (hkeys k).mpr hnot⟩
    · exact (h.further hv hk).1

omit [LinearOrder F] [Zero F] in
theorem not_onlyFirst_of_none {l m : TList F K} (h : l.knownElements = none) (k : ArrayKey) :
    ¬ OnlyFirst (.list l) (.list m) k := by
  rintro ⟨hk, -⟩
  rw [knownEntries_list_none h] at hk
  cases hk

/-- The further entries of a list with no known ones are all its entries. -/
theorem has_elementType {l : TList F K} (h : (TArray.list l).Has a) (hnone : l.knownElements = none)
    (k : ArrayKey) (v : Value F O) (hv : (k, v) ∈ a.entries) : l.elementType.Has v := by
  refine (h.further hv ?_).1
  rw [knownEntries_list_none hnone]
  exact List.not_mem_nil

/-- A common list belongs to the intersection when it is not empty where this is asked for and
its entries known to the first list only are of the type of further entries. -/
theorem has_intersectListArrays_iff (h₁ : (TArray.list first).Has a)
    (h₂ : (TArray.list second).Has a)
    (hexact : UnionsExact O intersectUnions (.list first) (.list second))
    (hresult : intersectListArrays intersectUnions first second = some r) :
    (TArray.list r).Has a ↔
      (first.knownElements.isSome = second.knownElements.isSome → a.entries ≠ []) ∧
        (second.knownElements.isSome = true → ∀ k v, (k, v) ∈ a.entries →
          OnlyFirst (.list first) (.list second) k → first.elementType.Has v) := by
  have helement {w : ItemType F K}
      (hw : intersectUnions first.elementType second.elementType = some w) (v : Value F O) :
      w.Has v ↔ first.elementType.Has v ∧ second.elementType.Has v :=
    hexact.values List.mem_cons_self hw v
  unfold intersectListArrays at hresult
  cases hfirst : first.knownElements with
  | some firstElements =>
    cases hsecond : second.knownElements with
    | some secondElements =>
      simp only [hfirst, hsecond] at hresult
      obtain ⟨kept, hkept, hresult⟩ := Option.bind_eq_some_iff.mp hresult
      obtain ⟨w, hw, rfl⟩ := Option.map_eq_some_iff.mp hresult
      rw [has_iff_of_keys h₁ h₂ (helement hw) (fun hmem => ?_) rfl
        (fun k => kept_keys (fun _ _ => keepElement_ne) hsecond rfl hkept)]
      · simp
      · obtain ⟨index, hindex, rfl⟩ := (mem_knownEntries_list rfl).mp hmem
        exact kept_element h₁ h₂ hexact hfirst hsecond hkept hindex
    | none =>
      simp only [hfirst, hsecond] at hresult
      obtain ⟨kept, hkept, hresult⟩ := Option.bind_eq_some_iff.mp hresult
      obtain ⟨w, hw, rfl⟩ := Option.map_eq_some_iff.mp hresult
      have hswapped (v : Value F O) :
          w.Has v ↔ second.elementType.Has v ∧ first.elementType.Has v := by
        rw [helement hw, and_comm]
      rw [has_iff_of_keys h₂ h₁ hswapped (fun hmem => ?_) rfl
        (fun k => kept_keys (fun _ _ => narrowed_ne) hfirst rfl hkept)]
      · have hnot := not_onlyFirst_of_none (m := first) hsecond
        simp [hnot]
      · obtain ⟨index, hindex, rfl⟩ := (mem_knownEntries_list rfl).mp hmem
        refine kept_against h₁ hfirst (has_elementType h₂ hsecond) (fun u w hu hw v => ?_) hkept
          hindex
        obtain ⟨e, he, rfl⟩ := List.mem_map.mp hu
        obtain ⟨key, hmem⟩ := OrderedMap.mem_values.mp he
        refine hexact.values (List.mem_cons_of_mem _ ?_) hw v
        simp only [comparedElements, hfirst, hsecond]
        exact List.mem_map_of_mem (f := fun e => (e.2.2, second.elementType)) hmem
  | none =>
    cases hsecond : second.knownElements with
    | some secondElements =>
      simp only [hfirst, hsecond] at hresult
      obtain ⟨kept, hkept, hresult⟩ := Option.bind_eq_some_iff.mp hresult
      obtain ⟨w, hw, rfl⟩ := Option.map_eq_some_iff.mp hresult
      rw [has_iff_of_keys h₁ h₂ (helement hw) (fun hmem => ?_) rfl
        (fun k => kept_keys (fun _ _ => narrowed_ne) hsecond rfl hkept)]
      · have hnot := not_onlyFirst_of_none (m := second) hfirst
        simp [hnot]
      · obtain ⟨index, hindex, rfl⟩ := (mem_knownEntries_list rfl).mp hmem
        refine kept_against h₂ hsecond (has_elementType h₁ hfirst) (fun u w hu hw v => ?_) hkept
          hindex
        obtain ⟨e, he, rfl⟩ := List.mem_map.mp hu
        obtain ⟨key, hmem⟩ := OrderedMap.mem_values.mp he
        refine hexact.values (List.mem_cons_of_mem _ ?_) hw v
        simp only [comparedElements, hfirst, hsecond]
        exact List.mem_map_of_mem (f := fun e => (e.2.2, first.elementType)) hmem
    | none =>
      simp only [hfirst, hsecond] at hresult
      obtain ⟨w, hw, rfl⟩ := Option.map_eq_some_iff.mp hresult
      have hempty {l : TList F K} (hl : l.knownElements = none) :
          (TArray.list l).knownEntries = [] := knownEntries_list_none hl
      rw [has_iff_of_keys h₁ h₂ (helement hw) (fun hmem => ?_) rfl (fun k => ?_)]
      · have hnot := not_onlyFirst_of_none (m := second) hfirst
        simp [hnot]
      · rw [knownEntries_list_none rfl] at hmem
        cases hmem
      · rw [knownEntries_list_none rfl, knownEntries_list_none hsecond]

end Lists

/-! ## Keyed arrays -/

section Keyed

variable {F K O : Type}
  {intersectUnions : ItemType F K → ItemType F K → Option (ItemType F K)}
  {first second r : TKeyedArray F K}

theorem mem_knownEntries_keyed {items : KnownArrayItems F K} (h : first.knownItems = some items)
    {e : ArrayKey × Bool × ItemType F K} :
    e ∈ (TArray.keyed first).knownEntries ↔ e ∈ items.entries := by
  simp [TArray.knownEntries, TArray.knownItemsView, h, KnownItems.iter]

theorem knownEntries_keyed_none (h : first.knownItems = none) :
    (TArray.keyed first).knownEntries = [] := by
  simp [TArray.knownEntries, TArray.knownItemsView, h]

variable [LinearOrder F] [Zero F] [World O] [NamedKind K F O] {a : PhpArray F O}

/-- An entry for the parameters of a keyed array. -/
def TKeyedArray.Further (x : TKeyedArray F K) (k : ArrayKey) (v : Value F O) : Prop :=
  ∃ parameters, x.parameters = some parameters ∧ parameters.1.HasKey O k ∧ parameters.2.Has v

theorem TKeyedArray.further_iff {x : TKeyedArray F K} {k : ArrayKey} {v : Value F O} :
    ((TArray.keyed x).valueType.Has v ∧
      ∀ u, (TArray.keyed x).keyType = some u → u.HasKey O k) ↔ x.Further k v := by
  unfold TKeyedArray.Further
  cases hparameters : x.parameters with
  | none =>
    simp only [TArray.valueType, TArray.keyAndValueTypes, hparameters]
    constructor
    · rintro ⟨hv, -⟩
      exact absurd hv TUnion.not_has_getNever
    · rintro ⟨parameters, hnone, -⟩
      cases hnone
  | some parameters =>
    simp only [TArray.valueType, TArray.keyType, TArray.keyAndValueTypes, hparameters,
      Option.some.injEq, forall_eq', exists_eq_left']
    exact and_comm

theorem TArray.Has.further_keyed {x : TKeyedArray F K} (h : (TArray.keyed x).Has a) {k : ArrayKey}
    {v : Value F O} (hv : (k, v) ∈ a.entries)
    (hk : k ∉ (TArray.keyed x).knownEntries.map Prod.fst) : x.Further k v :=
  TKeyedArray.further_iff.mp (h.further hv hk)

omit [LinearOrder F] [Zero F] in
theorem key_mem_iff {items : KnownArrayItems F K} (h : first.knownItems = some items)
    {k : ArrayKey} : k ∈ (TArray.keyed first).knownEntries.map Prod.fst ↔
      items.get? k ≠ none := by
  rw [Ne, OrderedMap.get?_eq_none_iff, not_not, OrderedMap.mem_keys]
  constructor
  · intro hmem
    obtain ⟨⟨k', e⟩, he, rfl⟩ := List.mem_map.mp hmem
    exact ⟨e, (mem_knownEntries_keyed h).mp he⟩
  · rintro ⟨e, he⟩
    exact List.mem_map.mpr ⟨(k, e), (mem_knownEntries_keyed h).mpr he, rfl⟩

/-- An entry ends the intersection when the type it is compared with has nothing of it. -/
theorem keepItem_eq_none_iff {items : KnownArrayItems F K} (h₁ : (TArray.keyed first).Has a)
    (h₂ : (TArray.keyed second).Has a) (hfirst : first.knownItems = some items) {k : ArrayKey}
    {e : Bool × ItemType F K} (hmem : (k, e) ∈ (TArray.keyed second).knownEntries) :
    keepItem intersectUnions first items k e = none ↔
      ∃ p, comparedItem first items (k, e) = some p ∧ intersectUnions p.1 p.2 = none := by
  unfold keepItem comparedItem
  cases hkey : items.get? k with
  | some e₁ => simp only [narrowed_eq_none_iff, Option.some.injEq, exists_eq_left']
  | none =>
    cases hparameters : first.parameters with
    | some parameters =>
      simp only [narrowed_eq_none_iff, Option.map_some, Option.some.injEq, exists_eq_left']
    | none =>
      obtain ⟨opt, u⟩ := e
      cases opt with
      | true => simp
      | false =>
        obtain ⟨v, hv⟩ := PhpArray.mem_keys.mp (h₂.required hmem)
        have hnot : k ∉ (TArray.keyed first).knownEntries.map Prod.fst := by
          rw [key_mem_iff hfirst]
          exact not_not.mpr hkey
        obtain ⟨parameters, hsome, -⟩ := h₁.further_keyed hv hnot
        rw [hparameters] at hsome
        cases hsome

theorem keepAgainst_eq_none_iff {x y : TKeyedArray F K} (hx : (TArray.keyed x).Has a)
    (hy : (TArray.keyed y).Has a) (hnone : x.knownItems = none) {k : ArrayKey}
    {e : Bool × ItemType F K} (hmem : (k, e) ∈ (TArray.keyed y).knownEntries) :
    keepAgainst intersectUnions x.parameters y.parameters e = none ↔
      ∃ p, (x.parameters.map fun parameters => (e.2, parameters.2)) = some p ∧
        intersectUnions p.1 p.2 = none := by
  unfold keepAgainst
  cases hparameters : x.parameters with
  | some parameters =>
    simp only [narrowed_eq_none_iff, Option.map_some, Option.some.injEq, exists_eq_left']
  | none =>
    obtain ⟨opt, u⟩ := e
    cases opt with
    | true => simp
    | false =>
      obtain ⟨v, hv⟩ := PhpArray.mem_keys.mp (hy.required hmem)
      have hnot : k ∉ (TArray.keyed x).knownEntries.map Prod.fst := by
        rw [knownEntries_keyed_none hnone]
        exact List.not_mem_nil
      obtain ⟨parameters, hsome, -⟩ := hx.further_keyed hv hnot
      rw [hparameters] at hsome
      cases hsome

omit [LinearOrder F] [Zero F] in
theorem intersectParameters_eq_none_iff :
    intersectParameters intersectUnions first.parameters second.parameters = none ↔
      ∃ p ∈ comparedParameters first second ++ comparedKeys (.keyed first) (.keyed second),
        intersectUnions p.1 p.2 = none := by
  cases h₁ : first.parameters with
  | none => simp [intersectParameters, comparedParameters, comparedKeys, h₁]
  | some p =>
    cases h₂ : second.parameters with
    | none => simp [intersectParameters, comparedParameters, comparedKeys, h₁, h₂]
    | some p' =>
      have hlists : comparedParameters first second ++ comparedKeys (.keyed first) (.keyed second) =
          [(p.2, p'.2), (p.1, p'.1)] := by
        simp [comparedParameters, comparedKeys, h₁, h₂]
      rw [hlists, intersectParameters]
      cases hkey : intersectUnions p.1 p'.1 with
      | none => simp [hkey]
      | some key =>
        cases hvalue : intersectUnions p.2 p'.2 with
        | none => simp [hvalue]
        | some value => simp [hkey, hvalue]

omit [LinearOrder F] [Zero F] in
theorem not_meet_keyed_iff :
    ¬ Meet intersectUnions (.keyed first) (.keyed second) ↔
      intersectParameters intersectUnions first.parameters second.parameters = none ∨
        ∃ p ∈ comparedItems first second, intersectUnions p.1 p.2 = none := by
  rw [intersectParameters_eq_none_iff]
  simp only [Meet, comparedTypes, List.mem_append, ne_eq, not_forall, not_not, exists_prop]
  constructor
  · rintro ⟨p, (h | h) | h, hp⟩
    · exact Or.inl ⟨p, Or.inl h, hp⟩
    · exact Or.inr ⟨p, h, hp⟩
    · exact Or.inl ⟨p, Or.inr h, hp⟩
  · rintro (⟨p, h | h, hp⟩ | ⟨p, h, hp⟩)
    · exact ⟨p, Or.inl (Or.inl h), hp⟩
    · exact ⟨p, Or.inr h, hp⟩
    · exact ⟨p, Or.inl (Or.inr h), hp⟩

/-- The intersection has no type for two keyed arrays with a common array exactly when an
intersection of their types has none. -/
theorem intersectKeyedArrays_eq_none_iff (h₁ : (TArray.keyed first).Has a)
    (h₂ : (TArray.keyed second).Has a) :
    intersectKeyedArrays intersectUnions first second = none ↔
      ¬ Meet intersectUnions (.keyed first) (.keyed second) := by
  rw [not_meet_keyed_iff]
  unfold intersectKeyedArrays
  cases hparameters :
      intersectParameters intersectUnions first.parameters second.parameters with
  | none => simp
  | some parameters =>
    rw [Option.bind_some]
    simp only [reduceCtorEq, false_or]
    unfold comparedItems
    cases hfirst : first.knownItems with
    | some firstItems =>
      cases hsecond : second.knownItems with
      | some secondItems =>
        simp only []
        rw [Option.map_eq_none_iff, keepMap_eq_none_iff]
        constructor
        · rintro ⟨⟨k, e⟩, he, hnone⟩
          have hmem := (mem_knownEntries_keyed hsecond).mpr he
          obtain ⟨p, hp, hpair⟩ := (keepItem_eq_none_iff h₁ h₂ hfirst hmem).mp hnone
          exact ⟨p, List.mem_filterMap.mpr ⟨(k, e), he, hp⟩, hpair⟩
        · rintro ⟨p, hp, hpair⟩
          obtain ⟨⟨k, e⟩, he, hp⟩ := List.mem_filterMap.mp hp
          have hmem := (mem_knownEntries_keyed hsecond).mpr he
          exact ⟨(k, e), he, (keepItem_eq_none_iff h₁ h₂ hfirst hmem).mpr ⟨p, hp, hpair⟩⟩
      | none =>
        simp only []
        rw [Option.map_eq_none_iff, keepMap_eq_none_iff]
        constructor
        · rintro ⟨⟨k, e⟩, he, hnone⟩
          have hmem := (mem_knownEntries_keyed hfirst).mpr he
          obtain ⟨p, hp, hpair⟩ := (keepAgainst_eq_none_iff h₂ h₁ hsecond hmem).mp hnone
          exact ⟨p, List.mem_filterMap.mpr ⟨(k, e), he, hp⟩, hpair⟩
        · rintro ⟨p, hp, hpair⟩
          obtain ⟨⟨k, e⟩, he, hp⟩ := List.mem_filterMap.mp hp
          have hmem := (mem_knownEntries_keyed hfirst).mpr he
          exact ⟨(k, e), he, (keepAgainst_eq_none_iff h₂ h₁ hsecond hmem).mpr ⟨p, hp, hpair⟩⟩
    | none =>
      cases hsecond : second.knownItems with
      | some secondItems =>
        simp only []
        rw [Option.map_eq_none_iff, keepMap_eq_none_iff]
        constructor
        · rintro ⟨⟨k, e⟩, he, hnone⟩
          have hmem := (mem_knownEntries_keyed hsecond).mpr he
          obtain ⟨p, hp, hpair⟩ := (keepAgainst_eq_none_iff h₁ h₂ hfirst hmem).mp hnone
          exact ⟨p, List.mem_filterMap.mpr ⟨(k, e), he, hp⟩, hpair⟩
        · rintro ⟨p, hp, hpair⟩
          obtain ⟨⟨k, e⟩, he, hp⟩ := List.mem_filterMap.mp hp
          have hmem := (mem_knownEntries_keyed hsecond).mpr he
          exact ⟨(k, e), he, (keepAgainst_eq_none_iff h₁ h₂ hfirst hmem).mpr ⟨p, hp, hpair⟩⟩
      | none => simp

/-- Of the parameters of both. -/
theorem further_intersectParameters {parameters : Option (ItemType F K × ItemType F K)}
    (hexact : UnionsExact O intersectUnions (.keyed first) (.keyed second))
    (h : intersectParameters intersectUnions first.parameters second.parameters =
      some parameters) (hr : r.parameters = parameters) {k : ArrayKey} {v : Value F O} :
    r.Further k v ↔ first.Further k v ∧ second.Further k v := by
  unfold TKeyedArray.Further
  unfold intersectParameters at h
  cases h₁ : first.parameters with
  | none =>
    rw [h₁] at h
    cases h
    simp [hr]
  | some p =>
    cases h₂ : second.parameters with
    | none =>
      rw [h₁, h₂] at h
      cases h
      simp [hr]
    | some p' =>
      rw [h₁, h₂] at h
      simp only [] at h
      split at h
      · rename_i key value hkey hvalue
        cases h
        have hcomparedKeys : (p.1, p'.1) ∈ comparedKeys (.keyed first) (.keyed second) := by
          simp [comparedKeys, h₁, h₂]
        have hkeys := hexact.keys hcomparedKeys hkey k
        have hcomparedTypes : (p.2, p'.2) ∈ comparedTypes (.keyed first) (.keyed second) := by
          simp [comparedTypes, comparedParameters, h₁, h₂]
        have hvalues := hexact.values hcomparedTypes hvalue v
        simp only [hr, Option.some.injEq, exists_eq_left', hkeys, hvalues]
        tauto
      · cases h

/-- An entry of the intersection says of a common array what the entries and further entries it
comes from say. -/
theorem kept_item {firstItems secondItems kept : KnownArrayItems F K}
    (h₁ : (TArray.keyed first).Has a) (h₂ : (TArray.keyed second).Has a)
    (hexact : UnionsExact O intersectUnions (.keyed first) (.keyed second))
    (hfirst : first.knownItems = some firstItems)
    (hsecond : second.knownItems = some secondItems)
    (hkept : keepMap (keepItem intersectUnions first firstItems) secondItems = some kept)
    {k : ArrayKey} {opt : Bool} {u : ItemType F K} (hmem : (k, opt, u) ∈ kept.entries) :
    (∀ v, (k, v) ∈ a.entries → u.Has v) ∧ (opt = false → k ∈ a.keys) := by
  obtain ⟨⟨opt₂, u₂⟩, he₂, hkeep⟩ := (mem_of_keepMap hkept).mp hmem
  have hmem₂ := (mem_knownEntries_keyed hsecond).mpr he₂
  have hcompared {p : ItemType F K × ItemType F K}
      (hp : comparedItem first firstItems (k, opt₂, u₂) = some p) :
      p ∈ comparedTypes (.keyed first) (.keyed second) := by
    simp only [comparedTypes, comparedItems, hfirst, hsecond, List.mem_append, List.mem_filterMap]
    exact Or.inr ⟨_, he₂, hp⟩
  unfold keepItem at hkeep
  cases hkey : firstItems.get? k with
  | some e₁ =>
    obtain ⟨opt₁, u₁⟩ := e₁
    rw [hkey] at hkeep
    have hcompared := hcompared (p := (u₁, u₂)) (by rw [comparedItem, hkey])
    obtain ⟨w, hw, heq⟩ := narrowed_eq_some_iff.mp hkeep
    cases heq
    have hmem₁ := (mem_knownEntries_keyed hfirst).mpr (OrderedMap.get?_eq_some_iff.mp hkey)
    refine ⟨fun v hv => (hexact.values hcompared hw v).mpr ⟨h₁.known hmem₁ hv, h₂.known hmem₂ hv⟩,
      fun hopt => ?_⟩
    rw [Bool.and_eq_false_iff] at hopt
    obtain rfl | rfl := hopt
    · exact h₂.required hmem₂
    · exact h₁.required hmem₁
  | none =>
    have hnot : k ∉ (TArray.keyed first).knownEntries.map Prod.fst := by
      rw [key_mem_iff hfirst]
      exact not_not.mpr hkey
    rw [hkey] at hkeep
    cases hparameters : first.parameters with
    | some parameters =>
      rw [hparameters] at hkeep
      have hcompared := hcompared (p := (parameters.2, u₂))
        (by rw [comparedItem, hkey, hparameters]; rfl)
      obtain ⟨w, hw, heq⟩ := narrowed_eq_some_iff.mp hkeep
      cases heq
      refine ⟨fun v hv => (hexact.values hcompared hw v).mpr ⟨?_, h₂.known hmem₂ hv⟩, ?_⟩
      · obtain ⟨parameters', hsome, -, hvalue⟩ := h₁.further_keyed hv hnot
        cases Option.some.inj (hparameters.symm.trans hsome)
        exact hvalue
      · rintro rfl
        exact h₂.required hmem₂
    | none =>
      simp only [hparameters] at hkeep
      split at hkeep
      · cases hkeep
      · cases hkeep

/-- The same for the entries of one array beside the parameters of another. -/
theorem kept_item_against {x y : TKeyedArray F K} {items kept : KnownArrayItems F K}
    (hx : (TArray.keyed x).Has a) (hy : (TArray.keyed y).Has a) (hnone : x.knownItems = none)
    (hitems : y.knownItems = some items)
    (hexact : ∀ {k e parameters w}, (k, e) ∈ items.entries → x.parameters = some parameters →
      intersectUnions e.2 parameters.2 = some w →
      ∀ v : Value F O, w.Has v ↔ e.2.Has v ∧ parameters.2.Has v)
    (hkept : keepMap (fun _ => keepAgainst intersectUnions x.parameters y.parameters) items =
      some kept) {k : ArrayKey} {opt : Bool} {u : ItemType F K}
    (hmem : (k, opt, u) ∈ kept.entries) :
    (∀ v, (k, v) ∈ a.entries → u.Has v) ∧ (opt = false → k ∈ a.keys) := by
  obtain ⟨⟨opt₀, u₀⟩, he₀, hkeep⟩ := (mem_of_keepMap hkept).mp hmem
  have hmem₀ := (mem_knownEntries_keyed hitems).mpr he₀
  have hnot : k ∉ (TArray.keyed x).knownEntries.map Prod.fst := by
    rw [knownEntries_keyed_none hnone]
    exact List.not_mem_nil
  unfold keepAgainst at hkeep
  cases hparameters : x.parameters with
  | some parameters =>
    rw [hparameters] at hkeep
    obtain ⟨w, hw, heq⟩ := narrowed_eq_some_iff.mp hkeep
    cases heq
    refine ⟨fun v hv => (hexact he₀ hparameters hw v).mpr ⟨hy.known hmem₀ hv, ?_⟩, ?_⟩
    · obtain ⟨parameters', hsome, -, hvalue⟩ := hx.further_keyed hv hnot
      cases Option.some.inj (hparameters.symm.trans hsome)
      exact hvalue
    · rintro rfl
      exact hy.required hmem₀
  | none =>
    simp only [hparameters] at hkeep
    split at hkeep
    · cases hkeep
    · cases hkeep
      refine ⟨fun v hv => hy.known hmem₀ hv, ?_⟩
      rintro rfl
      exact hy.required hmem₀

/-- Keyed arrays of both types and of a type with the known keys of the second, as far as they
are in the array. -/
theorem has_iff_of_items {x y : TKeyedArray F K} (hx : (TArray.keyed x).Has a)
    (hy : (TArray.keyed y).Has a)
    (hfurther : ∀ {k} {v : Value F O}, r.Further k v ↔ x.Further k v ∧ y.Further k v)
    (hentries : ∀ {k opt u}, (k, opt, u) ∈ (TArray.keyed r).knownEntries →
      (∀ v, (k, v) ∈ a.entries → u.Has v) ∧ (opt = false → k ∈ a.keys))
    (hnonEmpty : r.nonEmpty = true)
    (hnonList : r.knownNonList = true → x.knownNonList = true ∨ y.knownNonList = true)
    (hkeys : ∀ k ∈ a.keys, k ∈ (TArray.keyed r).knownEntries.map Prod.fst ↔
      k ∈ (TArray.keyed y).knownEntries.map Prod.fst) :
    (TArray.keyed r).Has a ↔ a.entries ≠ [] ∧
      ∀ k v, (k, v) ∈ a.entries → OnlyFirst (.keyed x) (.keyed y) k → x.Further k v := by
  have hnot : (TArray.keyed r).knownNonList = true → ¬ a.IsList := by
    intro h
    obtain h | h := hnonList h
    · exact hx.nonList h
    · exact hy.nonList h
  rw [TArray.has_iff_of_entries (r := .keyed r) hentries (fun hlist => by cases hlist) rfl hnot]
  simp only [TKeyedArray.further_iff, TArray.isNonEmpty, hnonEmpty, forall_const]
  apply and_congr_right
  intro _
  constructor
  · intro h k v hv honly
    have hkey : k ∈ a.keys := PhpArray.mem_keys.mpr ⟨v, hv⟩
    exact (hfurther.mp (h k v hv (mt (hkeys k hkey).mp honly.2))).1
  · intro h k v hv hk
    have hkey : k ∈ a.keys := PhpArray.mem_keys.mpr ⟨v, hv⟩
    have hky := mt (hkeys k hkey).mpr hk
    refine hfurther.mpr ⟨?_, hy.further_keyed hv hky⟩
    by_cases hkx : k ∈ (TArray.keyed x).knownEntries.map Prod.fst
    · exact h k v hv ⟨hkx, hky⟩
    · exact hx.further_keyed hv hkx

omit [LinearOrder F] [Zero F] in
/-- The keys of the kept entries are those of all entries, among the keys of an array that has
none of the others. -/
theorem kept_item_keys {x result : TKeyedArray F K} {items kept : KnownArrayItems F K}
    {keep : ArrayKey → Bool × ItemType F K → Option (Option (Bool × ItemType F K))}
    (hx : x.knownItems = some items) (hresult : result.knownItems = some kept)
    (hkept : keepMap keep items = some kept) {k : ArrayKey}
    (hkeep : ∀ e, keep k e ≠ some none) :
    k ∈ (TArray.keyed result).knownEntries.map Prod.fst ↔
      k ∈ (TArray.keyed x).knownEntries.map Prod.fst := by
  constructor
  · intro hk
    obtain ⟨⟨k', e⟩, hmem, rfl⟩ := List.mem_map.mp hk
    obtain ⟨e₀, he₀, -⟩ := (mem_of_keepMap hkept).mp ((mem_knownEntries_keyed hresult).mp hmem)
    exact List.mem_map.mpr ⟨_, (mem_knownEntries_keyed hx).mpr he₀, rfl⟩
  · intro hk
    obtain ⟨⟨k', e₀⟩, hmem, rfl⟩ := List.mem_map.mp hk
    have he₀ := (mem_knownEntries_keyed hx).mp hmem
    have hnone : keep k' e₀ ≠ none := by
      intro hnone
      rw [keepMap_eq_none_iff.mpr ⟨(k', e₀), he₀, hnone⟩] at hkept
      cases hkept
    obtain ⟨result, hsome⟩ := Option.ne_none_iff_exists'.mp hnone
    cases result with
    | none => exact absurd hsome (hkeep e₀)
    | some e =>
      have hkeptMem := (mem_of_keepMap hkept).mpr ⟨e₀, he₀, hsome⟩
      exact List.mem_map.mpr ⟨_, (mem_knownEntries_keyed hresult).mpr hkeptMem, rfl⟩

omit [LinearOrder F] [Zero F] in
theorem keepAgainst_ne {parameters own : Option (ItemType F K × ItemType F K)}
    {e : Bool × ItemType F K} : keepAgainst intersectUnions parameters own e ≠ some none := by
  unfold keepAgainst
  intro h
  split at h
  · exact narrowed_ne h
  · split at h
    · cases h
    · cases h

/-- An entry is left out only where the first array can have none under its key. -/
theorem keepItem_ne {items : KnownArrayItems F K} (h₁ : (TArray.keyed first).Has a)
    (hfirst : first.knownItems = some items) {k : ArrayKey} (hk : k ∈ a.keys)
    (e : Bool × ItemType F K) : keepItem intersectUnions first items k e ≠ some none := by
  unfold keepItem
  cases hkey : items.get? k with
  | some e₁ => exact narrowed_ne
  | none =>
    cases hparameters : first.parameters with
    | some parameters => exact narrowed_ne
    | none =>
      obtain ⟨v, hv⟩ := PhpArray.mem_keys.mp hk
      have hnot : k ∉ (TArray.keyed first).knownEntries.map Prod.fst := by
        rw [key_mem_iff hfirst]
        exact not_not.mpr hkey
      obtain ⟨parameters, hsome, -⟩ := h₁.further_keyed hv hnot
      rw [hparameters] at hsome
      cases hsome

omit [LinearOrder F] [Zero F] in
theorem not_onlyFirst_of_keyed_none {x y : TKeyedArray F K} (h : x.knownItems = none)
    (k : ArrayKey) : ¬ OnlyFirst (.keyed x) (.keyed y) k := by
  rintro ⟨hk, -⟩
  rw [knownEntries_keyed_none h] at hk
  cases hk

/-- A common array belongs to the intersection when it is not empty and its entries known to the
first array only fit its parameters. -/
theorem has_intersectKeyedArrays_iff (h₁ : (TArray.keyed first).Has a)
    (h₂ : (TArray.keyed second).Has a)
    (hexact : UnionsExact O intersectUnions (.keyed first) (.keyed second))
    (hresult : intersectKeyedArrays intersectUnions first second = some r) :
    (TArray.keyed r).Has a ↔ a.entries ≠ [] ∧
      (second.knownItems.isSome = true → ∀ k v, (k, v) ∈ a.entries →
        OnlyFirst (.keyed first) (.keyed second) k → first.Further k v) := by
  unfold intersectKeyedArrays at hresult
  obtain ⟨parameters, hparameters, hresult⟩ := Option.bind_eq_some_iff.mp hresult
  have hor {x y : Bool} (h : (x || y) = true) : x = true ∨ y = true := by
    rwa [Bool.or_eq_true] at h
  cases hfirst : first.knownItems with
  | some firstItems =>
    cases hsecond : second.knownItems with
    | some secondItems =>
      simp only [hfirst, hsecond] at hresult
      obtain ⟨kept, hkept, rfl⟩ := Option.map_eq_some_iff.mp hresult
      rw [has_iff_of_items h₁ h₂ (further_intersectParameters hexact hparameters rfl)
        (fun hmem => kept_item h₁ h₂ hexact hfirst hsecond hkept
          ((mem_knownEntries_keyed rfl).mp hmem)) rfl hor
        (fun k hk => kept_item_keys hsecond rfl hkept (keepItem_ne h₁ hfirst hk))]
      simp
    | none =>
      simp only [hfirst, hsecond] at hresult
      obtain ⟨kept, hkept, rfl⟩ := Option.map_eq_some_iff.mp hresult
      have hfurther {k : ArrayKey} {v : Value F O} := further_intersectParameters
        (r := ⟨some kept, parameters, true, first.knownNonList || second.knownNonList⟩) (k := k)
        (v := v) hexact hparameters rfl
      rw [has_iff_of_items h₂ h₁ (by intro k v; rw [hfurther, and_comm])
        (fun hmem => kept_item_against h₂ h₁ hsecond hfirst (fun he hsome hw v => ?_) hkept
          ((mem_knownEntries_keyed rfl).mp hmem)) rfl (fun h => (hor h).symm)
        (fun k _ => kept_item_keys hfirst rfl hkept (fun _ => keepAgainst_ne))]
      · have hnot := not_onlyFirst_of_keyed_none (y := first) hsecond
        simp [hnot]
      · refine hexact.values ?_ hw v
        simp only [comparedTypes, comparedItems, hfirst, hsecond, List.mem_append,
          List.mem_filterMap]
        exact Or.inr ⟨_, he, by rw [hsome]; rfl⟩
  | none =>
    cases hsecond : second.knownItems with
    | some secondItems =>
      simp only [hfirst, hsecond] at hresult
      obtain ⟨kept, hkept, rfl⟩ := Option.map_eq_some_iff.mp hresult
      rw [has_iff_of_items h₁ h₂ (further_intersectParameters hexact hparameters rfl)
        (fun hmem => kept_item_against h₁ h₂ hfirst hsecond (fun he hsome hw v => ?_) hkept
          ((mem_knownEntries_keyed rfl).mp hmem)) rfl hor
        (fun k _ => kept_item_keys hsecond rfl hkept (fun _ => keepAgainst_ne))]
      · have hnot := not_onlyFirst_of_keyed_none (y := second) hfirst
        simp [hnot]
      · refine hexact.values ?_ hw v
        simp only [comparedTypes, comparedItems, hfirst, hsecond, List.mem_append,
          List.mem_filterMap]
        exact Or.inr ⟨_, he, by rw [hsome]; rfl⟩
    | none =>
      simp only [hfirst, hsecond, Option.some.injEq] at hresult
      subst hresult
      rw [has_iff_of_items h₁ h₂ (further_intersectParameters hexact hparameters rfl)
        (fun hmem => ?_) rfl hor (fun k _ => ?_)]
      · have hnot := not_onlyFirst_of_keyed_none (y := second) hfirst
        simp [hnot]
      · rw [knownEntries_keyed_none rfl] at hmem
        cases hmem
      · rw [knownEntries_keyed_none rfl, knownEntries_keyed_none hsecond]

end Keyed

/-! ## Both kinds -/

section Exact

variable {F K O : Type} [LinearOrder F] [Zero F] [World O] [NamedKind K F O]
  {isContainedBy : TArray F K → TArray F K → Bool → Bool}
  {intersectUnions : ItemType F K → ItemType F K → Option (ItemType F K)} {first second : TArray F K}

/-- A result that has a type for common arrays when `Meets`, and then has those with a
property. -/
theorem keeps_iff {result : Option (TArray F K)} {Meets : Prop} {Rest : PhpArray F O → Prop}
    (hnone : ∀ {a : PhpArray F O}, first.Has a → second.Has a → (result = none ↔ ¬ Meets))
    (hsome : ∀ {r} {a : PhpArray F O}, first.Has a → second.Has a → result = some r →
      (r.Has a ↔ Rest a)) :
    ((∀ r, result = some r → ∀ a : PhpArray F O, first.Has a → second.Has a → r.Has a) ∧
      (result = none → ∀ a : PhpArray F O, ¬ (first.Has a ∧ second.Has a))) ↔
    ∀ a : PhpArray F O, first.Has a → second.Has a → Meets ∧ Rest a := by
  constructor
  · rintro ⟨hkeeps, hdisjoint⟩ a h₁ h₂
    cases hresult : result with
    | none => exact absurd ⟨h₁, h₂⟩ (hdisjoint hresult a)
    | some r =>
      refine ⟨?_, (hsome h₁ h₂ hresult).mp (hkeeps r hresult a h₁ h₂)⟩
      by_contra hmeets
      rw [(hnone h₁ h₂).mpr hmeets] at hresult
      cases hresult
  · intro h
    constructor
    · intro r hresult a h₁ h₂
      exact (hsome h₁ h₂ hresult).mpr (h a h₁ h₂).2
    · rintro hresult a ⟨h₁, h₂⟩
      exact (hnone h₁ h₂).mp hresult (h a h₁ h₂).1

/-- The intersection loses no common array, and none is common where it has no type, exactly when
one type is contained in the other or every common array is carried over. -/
theorem intersectAtomicWithAtomic_keeps_iff (hexact : UnionsExact O intersectUnions first second) :
    ((∀ r, intersectAtomicWithAtomic isContainedBy intersectUnions first second = some r →
        ∀ a : PhpArray F O, first.Has a → second.Has a → r.Has a) ∧
      (intersectAtomicWithAtomic isContainedBy intersectUnions first second = none →
        ∀ a : PhpArray F O, ¬ (first.Has a ∧ second.Has a))) ↔
    isContainedBy second first true = true ∨ isContainedBy first second false = true ∨
      ∀ a : PhpArray F O, first.Has a → second.Has a → Carried intersectUnions first second a := by
  unfold intersectAtomicWithAtomic
  by_cases hsecond : isContainedBy second first true = true
  · rw [if_pos hsecond]
    refine iff_of_true ⟨?_, fun h => by cases h⟩ (Or.inl hsecond)
    rintro r ⟨⟩ a - h₂
    exact h₂
  · rw [if_neg hsecond]
    by_cases hfirst : isContainedBy first second false = true
    · rw [if_pos hfirst]
      refine iff_of_true ⟨?_, fun h => by cases h⟩ (Or.inr (Or.inl hfirst))
      rintro r ⟨⟩ a h₁ -
      exact h₁
    · rw [if_neg hfirst, or_iff_right hsecond, or_iff_right hfirst]
      cases first with
      | list firstList =>
        cases second with
        | keyed secondArray => simp [Carried]
        | list secondList =>
          refine keeps_iff (fun h₁ h₂ => ?_) (fun h₁ h₂ hresult => ?_)
          · rw [Option.map_eq_none_iff]
            exact intersectListArrays_eq_none_iff h₁ h₂
          · obtain ⟨r, hr, rfl⟩ := Option.map_eq_some_iff.mp hresult
            exact has_intersectListArrays_iff h₁ h₂ hexact hr
      | keyed firstArray =>
        cases second with
        | list secondList => simp [Carried]
        | keyed secondArray =>
          refine keeps_iff (fun h₁ h₂ => ?_) (fun h₁ h₂ hresult => ?_)
          · rw [Option.map_eq_none_iff]
            exact intersectKeyedArrays_eq_none_iff h₁ h₂
          · obtain ⟨r, hr, rfl⟩ := Option.map_eq_some_iff.mp hresult
            exact has_intersectKeyedArrays_iff h₁ h₂ hexact hr

end Exact

section Concrete

/-- An intersection of equal unions, of others there is none. -/
def intersectEqual (u u' : ItemType ℕ Empty) : Option (ItemType ℕ Empty) :=
  if u = u' then some u else none

theorem unionsExact_intersectEqual (first second : TArray ℕ Empty) :
    UnionsExact Empty intersectEqual first second := by
  have heq {u u' w : ItemType ℕ Empty} (h : intersectEqual u u' = some w) : u = w ∧ u' = w := by
    unfold intersectEqual at h
    rw [Option.ite_none_right_eq_some] at h
    obtain ⟨rfl, h⟩ := h
    cases h
    exact ⟨rfl, rfl⟩
  constructor
  · intro u u' w _ hw v
    obtain ⟨rfl, rfl⟩ := heq hw
    exact (and_self_iff).symm
  · intro u u' w _ hw k
    obtain ⟨rfl, rfl⟩ := heq hw
    exact (and_self_iff).symm

/-- A containment check that finds types of different entries apart. -/
def containedNever (_ _ : TArray ℕ Empty) (_ : Bool) : Bool := false

/-- `list` of a scalar type. -/
def listOf (t : TScalar ℕ) : TArray ℕ Empty :=
  .list ⟨.fromSingle (.scalar t), none, none, false⟩

/-- Integers, at least one. -/
def listFromInt : TArray ℕ Empty :=
  .list ⟨.fromSingle (.scalar .int),
    some ⟨[(0, false, .fromSingle (.scalar .int))], by decide⟩, none, true⟩

/-- Every common list of integers is in the intersection of a list with a known element and
one without. -/
theorem intersectAtomicWithAtomic_keeps_iff_known :
    (intersectAtomicWithAtomic containedNever intersectEqual listFromInt
      (listOf .int)).isSome = true ∧
    (∀ r, intersectAtomicWithAtomic containedNever intersectEqual listFromInt
        (listOf .int) = some r →
      ∀ a : PhpArray ℕ Empty, listFromInt.Has a → (listOf .int).Has a → r.Has a) ∧
    (intersectAtomicWithAtomic containedNever intersectEqual listFromInt (listOf .int) = none →
      ∀ a : PhpArray ℕ Empty, ¬ (listFromInt.Has a ∧ (listOf .int).Has a)) :=
  ⟨by decide, (intersectAtomicWithAtomic_keeps_iff (unionsExact_intersectEqual _ _)).mpr
    (.inr (.inr fun _ _ _ => ⟨by unfold Meet; decide, by simp, by simp⟩))⟩

def PhpArray.ofOne (v : Value ℕ Empty) : PhpArray ℕ Empty where
  entries := [(.integer 0, v)]
  nodup := List.nodup_singleton _
  isKey e he := ⟨.int ⟨0, by decide⟩, by rw [List.mem_singleton.mp he]; rfl⟩

theorem has_listOf_iff {t : TScalar ℕ} {a : PhpArray ℕ Empty} :
    (listOf t).Has a ↔ a.IsList ∧ ∀ e ∈ a.entries, t.Has e.2 := by
  constructor
  · intro h
    refine ⟨h.isList rfl, fun e he => ?_⟩
    exact ItemType.has_fromSingle.mp (h.further (k := e.1) (v := e.2) he List.not_mem_nil).1
  · rintro ⟨hlist, hvalues⟩
    constructor
    · intro k opt u v hmem
      cases hmem
    · intro k u hmem
      cases hmem
    · intro h
      cases h
    · intro k v hv _
      obtain ⟨i, rfl, hi⟩ := hlist.exists_index (PhpArray.mem_keys.mpr ⟨v, hv⟩)
      refine ⟨ItemType.has_fromSingle.mpr (hvalues _ hv), ?_⟩
      rintro u ⟨⟩
      have hle := hlist.len_le
      have hin : i64Min ≤ (i : ℤ) ∧ (i : ℤ) ≤ i64Max := by
        have hmin : i64Min ≤ 0 := by decide
        have hmax : i64Max = 2 ^ 63 - 1 := by decide
        omega
      exact ⟨.int ⟨i, hin⟩, ItemType.has_fromSingle.mpr (Int.natCast_nonneg i), rfl⟩
    · intro _
      exact hlist
    · intro n hn
      cases hn
    · intro h
      cases h

/-- `list<int>` and `list<string>`, neither of which contains the other, have no intersection
although the empty array is of both. -/
theorem intersectAtomicWithAtomic_loses_empty :
    intersectAtomicWithAtomic containedNever intersectEqual (listOf .int)
        (listOf .generalString) = none ∧
      UnionsExact Empty intersectEqual (listOf .int) (listOf .generalString) ∧
      (∃ a : PhpArray ℕ Empty, (listOf .int).Has a ∧ ¬ (listOf .generalString).Has a) ∧
      (∃ a : PhpArray ℕ Empty, (listOf .generalString).Has a ∧ ¬ (listOf .int).Has a) ∧
      ∃ a : PhpArray ℕ Empty, (listOf .int).Has a ∧ (listOf .generalString).Has a := by
  have hone (v : Value ℕ Empty) (t : TScalar ℕ) :
      (listOf t).Has (PhpArray.ofOne v) ↔ t.Has v := by
    rw [has_listOf_iff, and_iff_right]
    · simp [PhpArray.ofOne]
    · rfl
  refine ⟨by decide, unionsExact_intersectEqual _ _, ⟨.ofOne (.int ⟨5, by decide⟩), ?_⟩,
    ⟨.ofOne (.string []), ?_⟩, ⟨⟨[], List.nodup_nil, fun e he => by cases he⟩, ?_⟩⟩
  · rw [hone, hone]
    exact ⟨trivial, id⟩
  · rw [hone, hone]
    exact ⟨TString.has_general, id⟩
  · rw [has_listOf_iff, has_listOf_iff]
    exact ⟨⟨rfl, fun e he => by cases he⟩, ⟨rfl, fun e he => by cases he⟩⟩

end Concrete

end Mago.Types
