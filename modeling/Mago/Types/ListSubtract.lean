import Mago.Types.ArrayContainment

/-!
# Subtraction of list shapes

A sealed list type is expanded to the combinations of the atomic types of its entries, the one
combination of the type to subtract is taken out, and each of the others is a list type again. All
of them require every entry, so the lists that leave optional entries out are lost.
-/
namespace Mago.Types

open Mago.Algebra (ArrayKey)
open Mago.Library

/-! ## The subtraction -/

section Subtraction

variable {F K : Type}

abbrev KnownElements (F K : Type) := OrderedMap UInt64 (Bool × ItemType F K)

/-- A general boolean is its two values. -/
def expandUnionToConcreteTypes (unionType : ItemType F K) : List (TAtomic F K) :=
  unionType.types.flatMap fun atomic =>
    match atomic with
    | .scalar (.bool ⟨none⟩) => [.scalar (.bool ⟨some true⟩), .scalar (.bool ⟨some false⟩)]
    | atomic => [atomic]

/-- One choice from each set, the sets from the current index on. -/
def generateCartesianProduct {α : Type} :
    List (List α) → (currentCombination : List α) → (resultCombinations : List (List α)) →
      List (List α)
  | [], currentCombination, resultCombinations => resultCombinations ++ [currentCombination]
  | elementTypes :: behind, currentCombination, resultCombinations =>
    elementTypes.foldl (fun resultCombinations atomic =>
      generateCartesianProduct behind (currentCombination ++ [atomic]) resultCombinations)
      resultCombinations

/-- The indexes without an entry are passed over. -/
def expandedElements (elements : KnownElements F K) : List (List (TAtomic F K)) :=
  (List.range elements.len).filterMap fun i =>
    (elements.get? (UInt64.ofNat i)).map fun e => expandUnionToConcreteTypes e.2

def generateAllCombinations (existingElements : KnownElements F K) :
    List (List (TAtomic F K)) :=
  if existingElements.len = 0 then []
  else generateCartesianProduct (expandedElements existingElements) [] []

def firstAtomic (elements : KnownElements F K) (i : ℕ) : Option (TAtomic F K) :=
  (elements.get? (UInt64.ofNat i)).bind fun e => e.2.types.head?

def extractSpecificCombination (subtractElements : KnownElements F K) : List (TAtomic F K) :=
  (List.range subtractElements.len).filterMap (firstAtomic subtractElements)

/-- The list type of a combination: every entry is required. -/
def combinationList (existingList : TList F K) (existingSize : ℕ)
    (combination : List (TAtomic F K)) : TList F K where
  elementType := .getNever
  knownElements := some <| .ofList <| combination.zipIdx.map fun e =>
    (UInt64.ofNat e.2, false, .fromSingle e.1)
  knownCount := some existingSize
  nonEmpty := existingList.nonEmpty || decide (0 < existingSize)

instance [DecidableEq F] [DecidableEq K] : DecidableEq (TList F K) := fun l l' =>
  decidable_of_iff (l.elementType = l'.elementType ∧ l.knownElements = l'.knownElements ∧
    l.knownCount = l'.knownCount ∧ l.nonEmpty = l'.nonEmpty) (by
      cases l
      cases l'
      simp)

variable [DecidableEq F] [DecidableEq K]

def pushNew {α : Type} [DecidableEq α] (results : List α) (result : α) : List α :=
  if results.any (· == result) then results else results ++ [result]

def subtractListElements (existingList listToSubtract : TList F K) :
    Option (List (TList F K)) :=
  match existingList.knownElements, listToSubtract.knownElements with
  | some existingElements, some subtractElements =>
    let existingSize := existingElements.len
    if existingSize = subtractElements.len then
      let subtractCombination := extractSpecificCombination subtractElements
      let remainingCombinations := (generateAllCombinations existingElements).filter
        fun combination => decide (combination ≠ subtractCombination)
      some <| (remainingCombinations.map (combinationList existingList existingSize)).foldl
        pushNew []
    else none
  | _, _ => none

end Subtraction

/-! ## Combinations -/

theorem mem_generateCartesianProduct {α : Type} {sets : List (List α)} {current c : List α}
    {results : List (List α)} :
    c ∈ generateCartesianProduct sets current results ↔
      c ∈ results ∨ ∃ choice, List.Forall₂ (· ∈ ·) choice sets ∧ c = current ++ choice := by
  induction sets generalizing current results with
  | nil => simp [generateCartesianProduct]
  | cons set sets ih =>
    have hfold (atomics : List α) (results : List (List α)) :
        c ∈ atomics.foldl (fun results atomic =>
          generateCartesianProduct sets (current ++ [atomic]) results) results ↔
        c ∈ results ∨ ∃ atomic ∈ atomics, ∃ choice, List.Forall₂ (· ∈ ·) choice sets ∧
          c = current ++ atomic :: choice := by
      induction atomics generalizing results with
      | nil => simp
      | cons atomic atomics ihAtomics =>
        rw [List.foldl_cons, ihAtomics, ih]
        simp only [List.append_assoc, List.singleton_append, List.mem_cons, exists_eq_or_imp]
        exact or_assoc
    rw [generateCartesianProduct, hfold]
    constructor
    · rintro (h | ⟨atomic, hatomic, choice, hchoice, rfl⟩)
      · exact Or.inl h
      · exact Or.inr ⟨atomic :: choice, List.Forall₂.cons hatomic hchoice, rfl⟩
    · rintro (h | ⟨choice, hchoice, rfl⟩)
      · exact Or.inl h
      · cases hchoice with
        | cons hatomic hchoice => exact Or.inr ⟨_, hatomic, _, hchoice, rfl⟩

theorem mem_foldl_pushNew {α : Type} [DecidableEq α] {xs results : List α} {x : α} :
    x ∈ xs.foldl pushNew results ↔ x ∈ results ∨ x ∈ xs := by
  induction xs generalizing results with
  | nil => simp
  | cons y xs ih =>
    have hpush : x ∈ pushNew results y ↔ x ∈ results ∨ x = y := by
      unfold pushNew
      by_cases h : y ∈ results
      · rw [if_pos (by simpa using h)]
        constructor
        · exact Or.inl
        · rintro (hx | rfl)
          · exact hx
          · exact h
      · rw [if_neg (by simpa using h), List.mem_append, List.mem_singleton]
    rw [List.foldl_cons, ih, hpush, List.mem_cons, or_assoc]

/-! ## Lists by their positions -/

section Positions

variable {F K O : Type}

theorem ArrayKey.ofValue_le {v : Value F O} {n : ℤ}
    (h : ArrayKey.ofValue v = some (.integer n)) : n ≤ i64Max := by
  cases v with
  | int m =>
    simp only [ofValue, Option.some.injEq, ArrayKey.integer.injEq] at h
    exact h ▸ m.property.2
  | string s =>
    simp only [ofValue, Option.some.injEq] at h
    obtain hstring | ⟨m, hinteger, -, hle⟩ := fromString_eq (s := s)
    · rw [hstring] at h
      cases h
    · rw [hinteger, ArrayKey.integer.injEq] at h
      exact h ▸ hle
  | _ => cases h

theorem PhpArray.IsList.len_le {a : PhpArray F O} (h : a.IsList) : a.len ≤ 2 ^ 63 := by
  by_contra hlong
  have hlast : .integer (2 ^ 63 : ℤ) ∈ a.keys := by
    rw [h.mem_keys]
    omega
  obtain ⟨v, hv⟩ := PhpArray.mem_keys.mp hlast
  obtain ⟨w, hw⟩ := a.isKey _ hv
  have hle := ArrayKey.ofValue_le hw
  simp [i64Max] at hle

theorem toNat_ofNat {i : ℕ} (h : i < 2 ^ 63) : (UInt64.ofNat i).toNat = i := by
  rw [UInt64.toNat_ofNat']
  omega

theorem indexKey_ofNat {i : ℕ} (h : i < 2 ^ 63) :
    indexKey (UInt64.ofNat i) = .integer (i : ℤ) := by
  have hint : (UInt64.ofNat i).toInt64.toInt = ((UInt64.ofNat i).toNat : ℤ).bmod (2 ^ 64) :=
    BitVec.toInt_eq_toNat_bmod (UInt64.ofNat i).toBitVec
  rw [toNat_ofNat h, Int.bmod_def] at hint
  rw [indexKey, ArrayKey.integer.injEq]
  omega

/-- The known entries of a list type under the keys of lists. -/
theorem mem_knownEntries_list {l : TList F K} {elements : KnownElements F K}
    (hknown : l.knownElements = some elements) {key : ArrayKey}
    {e : Bool × ItemType F K} :
    (key, e) ∈ (TArray.list l).knownEntries ↔
      ∃ index, (index, e) ∈ elements.entries ∧ indexKey index = key := by
  simp only [TArray.knownEntries, TArray.knownItemsView, hknown, Option.map_some,
    Option.elim_some, KnownItems.iter, List.mem_map, Prod.mk.injEq]
  constructor
  · rintro ⟨⟨index, e'⟩, hmem, hkey, rfl⟩
    exact ⟨index, hmem, hkey⟩
  · rintro ⟨index, hmem, hkey⟩
    exact ⟨(index, e), hmem, hkey, rfl⟩

/-- The positions of a list are its keys. -/
theorem PhpArray.IsList.exists_index {a : PhpArray F O} (hlist : a.IsList) {key : ArrayKey}
    (hkey : key ∈ a.keys) : ∃ i : ℕ, key = .integer i ∧ i < a.len := by
  rw [PhpArray.IsList] at hlist
  rw [hlist] at hkey
  obtain ⟨i, hi, rfl⟩ := List.mem_map.mp hkey
  exact ⟨i, rfl, List.mem_range.mp hi⟩

theorem PhpArray.IsList.exists_entry {a : PhpArray F O} (hlist : a.IsList) {i : ℕ} (hi : i < a.len) :
    ∃ v, (.integer i, v) ∈ a.entries := by
  rw [← PhpArray.mem_keys, hlist.mem_keys]
  omega

variable [LinearOrder F] [Zero F] [World O] [NamedKind K F O] {l : TList F K}
  {elements : KnownElements F K} {a : PhpArray F O}

/-- In a list of a sealed type each element has its own known entry. -/
theorem TArray.Has.entry_at (h : (TArray.list l).Has a) (hsealed : l.elementType.isNever = true)
    (hknown : l.knownElements = some elements) {i : ℕ} {v : Value F O}
    (hv : (.integer i, v) ∈ a.entries) :
    ∃ e, elements.get? (UInt64.ofNat i) = some e ∧ e.2.Has v := by
  have hlist : a.IsList := h.isList rfl
  have hi : i < a.len := by
    have hkey := hlist.mem_keys.mp (PhpArray.mem_keys.mpr ⟨v, hv⟩)
    omega
  have hmem : .integer i ∈ (TArray.list l).knownEntries.map Prod.fst := by
    by_contra hfurther
    exact TUnion.not_has_of_isNever hsealed (h.further hv hfurther).1
  obtain ⟨⟨key, e⟩, he, hkey⟩ := List.mem_map.mp hmem
  change key = .integer i at hkey
  subst hkey
  obtain ⟨index, hindex, hkey⟩ := (mem_knownEntries_list hknown).mp he
  rw [← indexKey_ofNat (lt_of_lt_of_le hi hlist.len_le)] at hkey
  rw [indexKey_inj hkey] at hindex
  exact ⟨e, OrderedMap.get?_eq_some_iff.mpr hindex, h.known he hv⟩

/-- A list whose elements have their entries belongs to the type when no further entry is
required. -/
theorem TArray.Has.of_entries (hlist : a.IsList) (hknown : l.knownElements = some elements)
    (hentry : ∀ {i : ℕ} {v : Value F O}, (.integer i, v) ∈ a.entries →
      ∃ e, elements.get? (UInt64.ofNat i) = some e ∧ e.2.Has v)
    (hindex : ∀ index ∈ elements.keys, ∃ i < a.len, index = UInt64.ofNat i)
    (hnonEmpty : l.nonEmpty = true → a.entries ≠ [])
    (hcount : ∀ n, l.knownCount = some n → a.len = n) : (TArray.list l).Has a := by
  have hlt {i : ℕ} (hi : i < a.len) : i < 2 ^ 63 := lt_of_lt_of_le hi hlist.len_le
  constructor
  · intro k opt u v hmem hv
    obtain ⟨i, rfl, hi⟩ := hlist.exists_index (PhpArray.mem_keys.mpr ⟨v, hv⟩)
    obtain ⟨index, hindex, hkey⟩ := (mem_knownEntries_list hknown).mp hmem
    rw [← indexKey_ofNat (hlt hi)] at hkey
    obtain ⟨e, he, hv⟩ := hentry hv
    rw [indexKey_inj hkey] at hindex
    cases Option.some.inj (he.symm.trans (OrderedMap.get?_eq_some_iff.mpr hindex))
    exact hv
  · intro k u hmem
    obtain ⟨index, hentry, rfl⟩ := (mem_knownEntries_list hknown).mp hmem
    obtain ⟨i, hi, rfl⟩ := hindex index (OrderedMap.mem_keys.mpr ⟨_, hentry⟩)
    rw [indexKey_ofNat (hlt hi), hlist.mem_keys]
    omega
  · exact hnonEmpty
  · intro k v hv hnot
    obtain ⟨i, rfl, hi⟩ := hlist.exists_index (PhpArray.mem_keys.mpr ⟨v, hv⟩)
    obtain ⟨e, he, -⟩ := hentry hv
    have hmem := (mem_knownEntries_list hknown).mpr
      ⟨_, OrderedMap.get?_eq_some_iff.mp he, indexKey_ofNat (hlt hi)⟩
    exact absurd (List.mem_map_of_mem hmem) hnot
  · intro _
    exact hlist
  · exact hcount
  · intro hnonList
    cases hnonList

end Positions

/-! ## Lists of a combination -/

section Combination

variable {F K O : Type}

theorem zipIdx_ofNat_nodup {α : Type} {choice : List α} (f : α → Bool × ItemType F K)
    (h : choice.length ≤ 2 ^ 63) :
    ((choice.zipIdx.map fun e => (UInt64.ofNat e.2, f e.1)).map Prod.fst).Nodup := by
  have hkeys : (choice.zipIdx.map fun e => (UInt64.ofNat e.2, f e.1)).map Prod.fst =
      (List.range choice.length).map UInt64.ofNat := by
    rw [List.map_map, List.range_eq_range', ← List.zipIdx_map_snd 0 choice, List.map_map]
    rfl
  rw [hkeys]
  apply List.Nodup.map_on _ List.nodup_range
  intro i hi j hj heq
  rw [List.mem_range] at hi hj
  have hnat := congrArg UInt64.toNat heq
  rwa [toNat_ofNat (by omega), toNat_ofNat (by omega)] at hnat

/-- The entry at a position is the atomic type there. -/
theorem get?_combination {choice : List (TAtomic F K)} (h : choice.length ≤ 2 ^ 63) {i : ℕ}
    (hi : i < 2 ^ 63) {e : Bool × ItemType F K} :
    (OrderedMap.ofList (choice.zipIdx.map fun e =>
      (UInt64.ofNat e.2, false, ItemType.fromSingle e.1))).get? (UInt64.ofNat i) = some e ↔
      ∃ t, choice[i]? = some t ∧ e = (false, .fromSingle t) := by
  rw [OrderedMap.get?_ofList (zipIdx_ofNat_nodup (fun t => (false, .fromSingle t)) h)]
  simp only [List.mem_map, Prod.mk.injEq, Prod.exists, List.mem_zipIdx_iff_getElem?]
  constructor
  · rintro ⟨t, j, ht, hj, rfl⟩
    have hlt : j < choice.length := (List.getElem?_eq_some_iff.mp ht).1
    have hnat := congrArg UInt64.toNat hj
    rw [toNat_ofNat (by omega), toNat_ofNat hi] at hnat
    exact ⟨t, hnat ▸ ht, rfl⟩
  · rintro ⟨t, ht, rfl⟩
    exact ⟨t, i, ht, rfl, rfl⟩

variable [LinearOrder F] [Zero F] [World O] [NamedKind K F O] {existing : TList F K}
  {n : ℕ} {choice : List (TAtomic F K)} {a : PhpArray F O}

theorem has_combinationList (hlist : a.IsList) (hlen : a.len = n) (hn : n ≠ 0)
    (hc : choice.length = n)
    (hentry : ∀ {i : ℕ} {v : Value F O}, (.integer i, v) ∈ a.entries →
      ∃ t, choice[i]? = some t ∧ t.Has v) :
    (TArray.list (combinationList existing n choice)).Has a := by
  have hle : choice.length ≤ 2 ^ 63 := by
    rw [hc, ← hlen]
    exact hlist.len_le
  refine .of_entries hlist rfl (fun {i v} hv => ?_) (fun index hindex => ?_) (fun _ hnil => ?_)
    (fun m hm => ?_)
  · obtain ⟨t, ht, htv⟩ := hentry hv
    have hlt : i < choice.length := (List.getElem?_eq_some_iff.mp ht).1
    refine ⟨(false, .fromSingle t), (get?_combination hle (by omega)).mpr ⟨t, ht, rfl⟩, ?_⟩
    exact ItemType.has_fromSingle.mpr htv
  · rw [OrderedMap.ofList, OrderedMap.mem_keys_extend] at hindex
    obtain hnone | hmem := hindex
    · cases hnone
    · obtain ⟨e, he, rfl⟩ := List.mem_map.mp hmem
      obtain ⟨⟨t, i⟩, ht, rfl⟩ := List.mem_map.mp he
      have hi := (List.getElem?_eq_some_iff.mp (List.mem_zipIdx_iff_getElem?.mp ht)).1
      exact ⟨i, by omega, rfl⟩
  · rw [PhpArray.len, hnil] at hlen
    exact hn hlen.symm
  · cases hm
    exact hlen

/-- The elements of a list of the type are of the atomic types of the combination. -/
theorem exists_of_has_combinationList (h : (TArray.list (combinationList existing n choice)).Has a)
    (hc : choice.length ≤ 2 ^ 63) {i : ℕ} {v : Value F O} (hv : (.integer i, v) ∈ a.entries) :
    ∃ t, choice[i]? = some t ∧ t.Has v := by
  have hlist : a.IsList := h.isList rfl
  have hkey := hlist.mem_keys.mp (PhpArray.mem_keys.mpr ⟨v, hv⟩)
  have hle := hlist.len_le
  obtain ⟨e, he, hev⟩ := h.entry_at rfl rfl hv
  obtain ⟨t, ht, rfl⟩ := (get?_combination hc (by omega)).mp he
  exact ⟨t, ht, ItemType.has_fromSingle.mp hev⟩

end Combination

/-! ## What is lost -/

section Exact

variable {F K O : Type}

/-- A combination of entries without gaps has one concrete type of each entry. -/
theorem mem_generateAllCombinations {elements : KnownElements F K}
    (hgapless : ∀ i < elements.len, ∃ e, elements.get? (UInt64.ofNat i) = some e)
    {choice : List (TAtomic F K)} :
    choice ∈ generateAllCombinations elements ↔
      elements.len ≠ 0 ∧ choice.length = elements.len ∧
        ∀ i e, elements.get? (UInt64.ofNat i) = some e → i < elements.len →
          ∃ t, choice[i]? = some t ∧ t ∈ expandUnionToConcreteTypes e.2 := by
  have hexpanded : expandedElements elements = (List.range elements.len).map fun i =>
      (elements.get? (UInt64.ofNat i)).elim [] fun e => expandUnionToConcreteTypes e.2 := by
    rw [expandedElements, List.filterMap_eq_map_iff_forall_eq_some]
    intro i hi
    obtain ⟨e, he⟩ := hgapless i (List.mem_range.mp hi)
    rw [he]
    rfl
  unfold generateAllCombinations
  by_cases hn : elements.len = 0
  · rw [if_pos hn]
    simp [hn]
  · rw [if_neg hn, mem_generateCartesianProduct, hexpanded]
    simp only [List.not_mem_nil, false_or, List.nil_append, exists_eq_right', List.forall₂_iff_get,
      List.length_map, List.length_range, List.get_eq_getElem, List.getElem_map,
      List.getElem_range]
    constructor
    · rintro ⟨hlen, hmem⟩
      refine ⟨hn, hlen, fun i e he hi => ⟨_, List.getElem?_eq_getElem (hlen ▸ hi), ?_⟩⟩
      have hchoice := hmem i (hlen ▸ hi) hi
      rwa [he] at hchoice
    · rintro ⟨-, hlen, hmem⟩
      refine ⟨hlen, fun i hi hi' => ?_⟩
      obtain ⟨e, he⟩ := hgapless i hi'
      obtain ⟨t, ht, hexpand⟩ := hmem i e he hi'
      rw [List.getElem?_eq_getElem hi, Option.some.injEq] at ht
      rw [he, ht]
      exact hexpand

/-- A combination is the one to subtract when it has its atomic type at each index. -/
theorem extractSpecificCombination_eq_iff {elements : KnownElements F K}
    {choice : List (TAtomic F K)} (hlen : choice.length = elements.len) :
    extractSpecificCombination elements = choice ↔
      ∀ i < elements.len, firstAtomic elements i = choice[i]? := by
  have hmap (g : ℕ → TAtomic F K) (i : ℕ) (hi : i < elements.len) :
      ((List.range elements.len).map g)[i]? = some (g i) := by
    rw [List.getElem?_map, List.getElem?_range hi, Option.map_some]
  constructor
  · intro h i hi
    have hsome : ∀ j ∈ List.range elements.len, (firstAtomic elements j).isSome = true := by
      rw [← List.filterMap_length_eq_length, ← extractSpecificCombination, h, hlen,
        List.length_range]
    have heq : extractSpecificCombination elements =
        (List.range elements.len).map fun j => (firstAtomic elements j).getD .never := by
      rw [extractSpecificCombination, List.filterMap_eq_map_iff_forall_eq_some]
      intro j hj
      obtain ⟨t, ht⟩ := Option.isSome_iff_exists.mp (hsome j hj)
      rw [ht]
      rfl
    obtain ⟨t, ht⟩ := Option.isSome_iff_exists.mp (hsome i (List.mem_range.mpr hi))
    rw [← h, heq, hmap _ i hi, ht]
    rfl
  · intro h
    have heq : extractSpecificCombination elements =
        (List.range elements.len).map fun j => choice[j]?.getD .never := by
      rw [extractSpecificCombination, List.filterMap_eq_map_iff_forall_eq_some]
      intro j hj
      rw [List.mem_range] at hj
      rw [h j hj, List.getElem?_eq_getElem (hlen ▸ hj)]
      rfl
    rw [heq]
    apply List.ext_getElem?
    intro i
    by_cases hi : i < elements.len
    · rw [hmap _ i hi, List.getElem?_eq_getElem (hlen ▸ hi)]
      rfl
    · rw [List.getElem?_eq_none (by simpa using hi), List.getElem?_eq_none (by omega)]

variable [LinearOrder F] [Zero F] [World O] [NamedKind K F O]

theorem has_expandUnionToConcreteTypes {u : ItemType F K} {v : Value F O} :
    (∃ t ∈ expandUnionToConcreteTypes u, t.Has v) ↔ u.Has v := by
  have hatomic (t : TAtomic F K) : (∃ t' ∈ expandUnionToConcreteTypes ⟨⟨[t]⟩, false⟩, t'.Has v) ↔
      t.Has v := by
    unfold expandUnionToConcreteTypes
    simp only [List.flatMap_cons, List.flatMap_nil, List.append_nil]
    split
    · -- a general boolean
      simp only [List.mem_cons, List.not_mem_nil, or_false, exists_eq_or_imp, exists_eq_left]
      cases v <;> simp [TScalar.Has, TBool.Has]
    · simp
  unfold expandUnionToConcreteTypes at hatomic ⊢
  simp only [List.flatMap_cons, List.flatMap_nil, List.append_nil] at hatomic
  simp only [List.mem_flatMap]
  constructor
  · rintro ⟨t', ⟨t, ht, ht'⟩, hv⟩
    exact ⟨t, ht, (hatomic t).mp ⟨t', ht', hv⟩⟩
  · rintro ⟨t, ht, hv⟩
    obtain ⟨t', ht', hv'⟩ := (hatomic t).mpr hv
    exact ⟨t', ⟨t, ht, ht'⟩, hv'⟩

/-- An element is of a concrete type of its entry other than the first type of the entry to
subtract. -/
def Avoids (existingElements subtractElements : KnownElements F K) (a : PhpArray F O) : Prop :=
  ∃ (i : ℕ) (v : Value F O) (e : Bool × ItemType F K), (.integer i, v) ∈ a.entries ∧
    existingElements.get? (UInt64.ofNat i) = some e ∧
    ∃ t ∈ expandUnionToConcreteTypes e.2, t.Has v ∧ firstAtomic subtractElements i ≠ some t

/-- Every list of the first type that is not of the second has all entries, at least one, and
the subtracted shape says nothing of the length or its combination is avoided. -/
def SubtractionKeeps (O : Type) [World O] [NamedKind K F O]
    (existingList listToSubtract : TList F K) : Prop :=
  ∀ existingElements subtractElements, existingList.knownElements = some existingElements →
    listToSubtract.knownElements = some subtractElements →
    existingElements.len = subtractElements.len →
    ∀ a : PhpArray F O, (TArray.list existingList).Has a → ¬ (TArray.list listToSubtract).Has a →
      a.len = existingElements.len ∧ existingElements.len ≠ 0 ∧
        (listToSubtract.knownCount = none ∨
          listToSubtract.knownCount = some subtractElements.len ∨
          Avoids existingElements subtractElements a)

variable {existing subtract : TList F K} {es ss : KnownElements F K} {a : PhpArray F O}

omit [LinearOrder F] [Zero F] in
theorem mem_subtractListElements [DecidableEq F] [DecidableEq K]
    (hes : existing.knownElements = some es) (hss : subtract.knownElements = some ss)
    (hlen : es.len = ss.len) :
    ∃ lists, subtractListElements existing subtract = some lists ∧
      ∀ l, l ∈ lists ↔ ∃ choice ∈ generateAllCombinations es,
        choice ≠ extractSpecificCombination ss ∧ combinationList existing es.len choice = l := by
  unfold subtractListElements
  rw [hes, hss]
  simp only []
  rw [if_pos hlen]
  refine ⟨_, rfl, fun l => ?_⟩
  rw [mem_foldl_pushNew]
  simp only [List.not_mem_nil, false_or, List.mem_map, List.mem_filter, decide_eq_true_eq,
    and_assoc]

/-- A list with all entries leaves no gap. -/
theorem TArray.Has.gapless (h : (TArray.list existing).Has a)
    (hsealed : existing.elementType.isNever = true) (hes : existing.knownElements = some es)
    (hlen : a.len = es.len) : ∀ i < es.len, ∃ e, es.get? (UInt64.ofNat i) = some e := by
  intro i hi
  obtain ⟨v, hv⟩ := (h.isList rfl).exists_entry (hlen ▸ hi)
  obtain ⟨e, he, -⟩ := h.entry_at hsealed hes hv
  exact ⟨e, he⟩

/-- A list that is found again has all entries and avoids the combination. -/
theorem avoids_of_has (h : (TArray.list existing).Has a)
    (hsealed : existing.elementType.isNever = true) (hes : existing.knownElements = some es)
    (hss : es.len = ss.len) {choice : List (TAtomic F K)}
    (hchoice : choice ∈ generateAllCombinations es) (hne : choice ≠ extractSpecificCombination ss)
    (hl : (TArray.list (combinationList existing es.len choice)).Has a) :
    a.len = es.len ∧ es.len ≠ 0 ∧ Avoids es ss a := by
  have hlist : a.IsList := h.isList rfl
  have hlen : a.len = es.len := hl.count _ rfl
  obtain ⟨hn, hchoiceLen, hentry⟩ :=
    (mem_generateAllCombinations (h.gapless hsealed hes hlen)).mp hchoice
  refine ⟨hlen, hn, ?_⟩
  by_contra hnot
  refine hne ((extractSpecificCombination_eq_iff (hchoiceLen.trans hss)).mpr ?_).symm
  intro i hi
  obtain ⟨v, hv⟩ := hlist.exists_entry (i := i) (by omega)
  obtain ⟨e, he, -⟩ := h.entry_at hsealed hes hv
  obtain ⟨t, ht, hexpand⟩ := hentry i e he (by omega)
  have hle := hlist.len_le
  obtain ⟨t', ht', htv⟩ := exists_of_has_combinationList hl (by omega) hv
  cases Option.some.inj (ht.symm.trans ht')
  rw [ht]
  by_contra hfirst
  exact hnot ⟨i, v, e, hv, he, t, hexpand, htv, hfirst⟩

/-- Without a known count, a list outside the subtracted type avoids its combination. -/
theorem avoids_of_not_has (h : (TArray.list existing).Has a)
    (hsealed : existing.elementType.isNever = true) (hes : existing.knownElements = some es)
    (hss : subtract.knownElements = some ss) (hsize : es.len = ss.len) (hlen : a.len = es.len)
    (hn : es.len ≠ 0)
    (hcount : subtract.knownCount = none ∨ subtract.knownCount = some ss.len)
    (hnot : ¬ (TArray.list subtract).Has a) : Avoids es ss a := by
  have hlist : a.IsList := h.isList rfl
  by_contra havoid
  -- each element is of the first type of the entry to subtract, so the list is of that type
  have hfirst {i : ℕ} {v : Value F O} (hv : (.integer i, v) ∈ a.entries) :
      ∃ t, firstAtomic ss i = some t ∧ t.Has v := by
    obtain ⟨e, he, hev⟩ := h.entry_at hsealed hes hv
    obtain ⟨t, ht, htv⟩ := has_expandUnionToConcreteTypes.mpr hev
    refine ⟨t, ?_, htv⟩
    by_contra hne
    exact havoid ⟨i, v, e, hv, he, t, ht, htv, hne⟩
  have hentry {i : ℕ} {v : Value F O} (hv : (.integer i, v) ∈ a.entries) :
      ∃ e, ss.get? (UInt64.ofNat i) = some e ∧ e.2.Has v := by
    obtain ⟨t, ht, htv⟩ := hfirst hv
    obtain ⟨e, he, hhead⟩ := Option.bind_eq_some_iff.mp ht
    exact ⟨e, he, t, List.mem_of_mem_head? hhead, htv⟩
  have hindex : ∀ index ∈ ss.keys, ∃ i < a.len, index = UInt64.ofNat i := by
    have hsub : (List.range a.len).map UInt64.ofNat ⊆ ss.keys := by
      intro index hmem
      obtain ⟨i, hi, rfl⟩ := List.mem_map.mp hmem
      obtain ⟨v, hv⟩ := hlist.exists_entry (List.mem_range.mp hi)
      obtain ⟨e, he, -⟩ := hentry hv
      exact OrderedMap.mem_keys.mpr ⟨e, OrderedMap.get?_eq_some_iff.mp he⟩
    have hnodup : ((List.range a.len).map UInt64.ofNat).Nodup := by
      apply List.Nodup.map_on _ List.nodup_range
      intro i hi j hj heq
      have hle := hlist.len_le
      rw [List.mem_range] at hi hj
      have hnat := congrArg UInt64.toNat heq
      rwa [toNat_ofNat (by omega), toNat_ofNat (by omega)] at hnat
    have hkeys : ss.keys.length = a.len := by
      rw [hlen, hsize, OrderedMap.keys, List.length_map, OrderedMap.len]
    have hperm : ((List.range a.len).map UInt64.ofNat).Perm ss.keys :=
      (hnodup.subperm hsub).perm_of_length_le (by simp [hkeys])
    intro index hmem
    obtain ⟨i, hi, rfl⟩ := List.mem_map.mp (hperm.mem_iff.mpr hmem)
    exact ⟨i, List.mem_range.mp hi, rfl⟩
  refine hnot (.of_entries hlist hss hentry hindex (fun _ hnil => ?_) (fun m hm => ?_))
  · rw [PhpArray.len, hnil] at hlen
    exact hn hlen.symm
  · obtain hnone | hsome := hcount
    · rw [hnone] at hm
      cases hm
    · rw [hsome] at hm
      cases hm
      omega

/-- A list with all entries that avoids the combination is found again. -/
theorem exists_of_avoids (h : (TArray.list existing).Has a)
    (hsealed : existing.elementType.isNever = true) (hes : existing.knownElements = some es)
    (hsize : es.len = ss.len) (hlen : a.len = es.len) (hn : es.len ≠ 0) (havoid : Avoids es ss a) :
    ∃ choice ∈ generateAllCombinations es, choice ≠ extractSpecificCombination ss ∧
      (TArray.list (combinationList existing es.len choice)).Has a := by
  have hlist : a.IsList := h.isList rfl
  obtain ⟨i₀, v₀, e₀, hv₀, he₀, t₀, ht₀, htv₀, hne₀⟩ := havoid
  have hunique {i : ℕ} {v w : Value F O} (hv : (.integer i, v) ∈ a.entries)
      (hw : (.integer i, w) ∈ a.entries) : v = w := by
    have heq := List.inj_on_of_nodup_map a.nodup hv hw rfl
    exact (Prod.mk.inj heq).2
  have hpick (i : ℕ) : ∃ t : TAtomic F K, (i = i₀ → t = t₀) ∧ (i < es.len →
      (∀ e, es.get? (UInt64.ofNat i) = some e → t ∈ expandUnionToConcreteTypes e.2) ∧
      ∀ v, (.integer i, v) ∈ a.entries → t.Has v) := by
    by_cases hi₀ : i = i₀
    · subst hi₀
      refine ⟨t₀, fun _ => rfl, fun _ => ⟨fun e he => ?_, fun v hv => ?_⟩⟩
      · cases Option.some.inj (he.symm.trans he₀)
        exact ht₀
      · rwa [hunique hv hv₀]
    · by_cases hi : i < es.len
      · obtain ⟨v, hv⟩ := hlist.exists_entry (hlen ▸ hi)
        obtain ⟨e, he, hev⟩ := h.entry_at hsealed hes hv
        obtain ⟨t, ht, htv⟩ := has_expandUnionToConcreteTypes.mpr hev
        refine ⟨t, fun heq => absurd heq hi₀, fun _ => ⟨fun e' he' => ?_, fun w hw => ?_⟩⟩
        · cases Option.some.inj (he.symm.trans he')
          exact ht
        · rwa [hunique hw hv]
      · exact ⟨.never, fun heq => absurd heq hi₀, fun hlt => absurd hlt hi⟩
  choose pick hpick₀ hpick using hpick
  have hget {i : ℕ} (hi : i < es.len) : ((List.range es.len).map pick)[i]? = some (pick i) := by
    rw [List.getElem?_map, List.getElem?_range hi, Option.map_some]
  have hmapLen : ((List.range es.len).map pick).length = es.len := by simp
  have hi₀ : i₀ < es.len := by
    have hkey := hlist.mem_keys.mp (PhpArray.mem_keys.mpr ⟨v₀, hv₀⟩)
    omega
  refine ⟨(List.range es.len).map pick, ?_, fun heq => ?_, ?_⟩
  · rw [mem_generateAllCombinations (h.gapless hsealed hes hlen)]
    exact ⟨hn, hmapLen, fun i e he hi => ⟨pick i, hget hi, (hpick i hi).1 e he⟩⟩
  · have hfirst := (extractSpecificCombination_eq_iff (hmapLen.trans hsize)).mp heq.symm
    rw [hfirst i₀ (by omega), hget hi₀, hpick₀ i₀ rfl] at hne₀
    exact hne₀ rfl
  · refine has_combinationList hlist hlen hn hmapLen (fun {i v} hv => ?_)
    have hkey := hlist.mem_keys.mp (PhpArray.mem_keys.mpr ⟨v, hv⟩)
    have hi : i < es.len := by omega
    exact ⟨pick i, hget hi, (hpick i hi).2 v hv⟩

/-- Nothing of the difference is lost exactly when the subtraction keeps it. -/
theorem subtractListElements_sound_iff [DecidableEq F] [DecidableEq K]
    (hsealed : existing.elementType.isNever = true) :
    (∀ lists, subtractListElements existing subtract = some lists →
      ∀ a : PhpArray F O, (TArray.list existing).Has a → ¬ (TArray.list subtract).Has a →
        ∃ l ∈ lists, (TArray.list l).Has a) ↔
      SubtractionKeeps O existing subtract := by
  constructor
  · intro hsound es ss hes hss hsize a h hnot
    obtain ⟨lists, hlists, hmem⟩ := mem_subtractListElements hes hss hsize
    obtain ⟨l, hl, hla⟩ := hsound lists hlists a h hnot
    obtain ⟨choice, hchoice, hne, rfl⟩ := (hmem l).mp hl
    obtain ⟨hlen, hn, havoid⟩ := avoids_of_has h hsealed hes hsize hchoice hne hla
    exact ⟨hlen, hn, Or.inr (Or.inr havoid)⟩
  · intro hkeeps lists hlists a h hnot
    cases hes : existing.knownElements with
    | none => simp [subtractListElements, hes] at hlists
    | some es =>
      cases hss : subtract.knownElements with
      | none => simp [subtractListElements, hes, hss] at hlists
      | some ss =>
        by_cases hsize : es.len = ss.len
        · obtain ⟨lists', hlists', hmem⟩ := mem_subtractListElements hes hss hsize
          cases Option.some.inj (hlists.symm.trans hlists')
          obtain ⟨hlen, hn, hcount⟩ := hkeeps es ss hes hss hsize a h hnot
          have havoid : Avoids es ss a := by
            rw [← or_assoc] at hcount
            obtain hcount | havoid := hcount
            · exact avoids_of_not_has h hsealed hes hss hsize hlen hn hcount hnot
            · exact havoid
          obtain ⟨choice, hchoice, hne, hla⟩ :=
            exists_of_avoids h hsealed hes hsize hlen hn havoid
          exact ⟨_, (hmem _).mpr ⟨choice, hchoice, hne, rfl⟩, hla⟩
        · simp [subtractListElements, hes, hss, hsize] at hlists

end Exact

section Concrete

/-- An integer and, perhaps, another one. -/
def oneOrTwo : TList ℕ Empty :=
  ⟨.getNever, some ⟨[(0, false, intItem), (1, true, intItem)], by decide⟩, none, true⟩

/-- Two integers. -/
def two : TList ℕ Empty :=
  ⟨.getNever, some ⟨[(0, false, intItem), (1, false, intItem)], by decide⟩, some 2, true⟩

/-- An integer or a string, and an integer. -/
def intOrStringThenInt : TList ℕ Empty :=
  ⟨.getNever, some ⟨[(0, false, ⟨⟨[.scalar .int, .scalar .generalString]⟩, false⟩),
    (1, false, intItem)], by decide⟩, some 2, true⟩

/-- Without two integers there remain a string and an integer. -/
theorem subtractListElements_sound_iff_string :
    ((subtractListElements intOrStringThenInt two).getD []).length = 1 ∧
    ∀ lists, subtractListElements intOrStringThenInt two = some lists →
      ∀ a : PhpArray ℕ Empty, (TArray.list intOrStringThenInt).Has a →
        ¬ (TArray.list two).Has a → ∃ l ∈ lists, (TArray.list l).Has a := by
  refine ⟨by decide, (subtractListElements_sound_iff rfl).mpr fun es ss hes hss _ a h _ => ?_⟩
  cases hes
  cases hss
  exact ⟨h.count 2 rfl, by decide, .inr (.inl rfl)⟩

/-- The lists of one element are lost. -/
theorem subtractListElements_loses_shorter :
    subtractListElements oneOrTwo two = some [] ∧
      ∃ a : PhpArray ℕ Empty, (TArray.list oneOrTwo).Has a ∧ ¬ (TArray.list two).Has a := by
  refine ⟨by decide, PhpArray.single ⟨0, by decide⟩ ⟨5, by decide⟩, ?_, ?_⟩
  · constructor
    · intro k opt u v hmem hv
      cases List.mem_singleton.mp hv
      obtain ⟨index, hindex, hkey⟩ := (mem_knownEntries_list rfl).mp hmem
      obtain hfirst | hsecond := List.mem_pair.mp hindex
      · cases hfirst
        exact ⟨_, List.mem_singleton_self _, trivial⟩
      · cases hsecond
        exact absurd hkey (by decide)
    · intro k u hmem
      obtain ⟨index, hindex, rfl⟩ := (mem_knownEntries_list rfl).mp hmem
      obtain hfirst | hsecond := List.mem_pair.mp hindex
      · cases hfirst
        exact List.mem_singleton_self _
      · cases hsecond
    · intro _
      exact List.cons_ne_nil _ _
    · intro k v hv hnot
      cases List.mem_singleton.mp hv
      exact absurd List.mem_cons_self hnot
    · intro _
      decide
    · intro n hn
      cases hn
    · intro hnonList
      cases hnonList
  · intro h
    exact absurd (h.count 2 rfl) (by decide)

end Concrete

end Mago.Types
