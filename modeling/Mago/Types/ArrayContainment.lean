import Mago.Types.ArrayType
import Mathlib

/-!
# Containment of array types

The comparison of two array types over a comparison of unions. What the first type says of an
array is compared with what the second one says of its entries; that the keys are those of a
list, the number of entries, and that the array is no list are not.
-/
namespace Mago.Types

open Mago.Algebra (Word word ArrayKey)
open Mago.Library

/-! ## The comparison -/

section Comparison

variable {F K : Type} (O : Type) [NamedKind K F O]
  (unionIsContainedBy : ItemType F K → ItemType F K →
    (ignoreNull ignoreFalse insideAssertion : Bool) → Bool)

def lookup (a : TArray F K) (key : ArrayKey) : Option (Bool × ItemType F K) :=
  a.knownItemsView.bind fun items => items.get key

/-- A known entry of the input against the entry or the further entries of the container. -/
def itemIsContained (container : TArray F K) (insideAssertion : Bool)
    (e : ArrayKey × Bool × ItemType F K) : Bool :=
  match lookup container e.1 with
  | some (containerIsOptional, containerItem) =>
    !(e.2.1 && !containerIsOptional) &&
      unionIsContainedBy e.2.2 containerItem false false insideAssertion
  | none =>
    match container.keyType with
    | some keyType =>
      unionIsContainedBy (.ofKey e.1) keyType false false insideAssertion &&
        unionIsContainedBy e.2.2 container.valueType false false insideAssertion
    | none => false

/-- Every array of the input has the key although no entry of the input is known for it. -/
def keyIsGuaranteed (input : TArray F K) (key : ArrayKey) : Bool :=
  match input, key with
  | .list l, .integer index =>
    decide (0 ≤ index) &&
      (decide (index.toNat < input.getMinimumSize) ||
        l.knownElements.any fun elements =>
          elements.entries.any fun e => decide (index.toNat ≤ e.1.toNat) && !e.2.1)
  | .keyed a, key =>
    a.nonEmpty && !input.hasKnownItems &&
      input.keyType.any fun keyType => keyType.getSingleArrayKey O == some key
  | _, _ => false

/-- A known entry of the container against the further entries of the input. -/
def entryIsMet (input : TArray F K) (insideAssertion : Bool)
    (e : ArrayKey × Bool × ItemType F K) : Bool :=
  let inputHasKey := (lookup input e.1).isSome
  let met := unionIsContainedBy input.valueType e.2.2 false false insideAssertion
  if !e.2.1 then
    inputHasKey || (!(input.valueType.isNever || !keyIsGuaranteed O input e.1) && met)
  else inputHasKey || input.valueType.isNever || met

def keysAreContained (input container : TArray F K) (insideAssertion : Bool) : Bool :=
  match input.keyType, container.keyType with
  | some inputKey, some containerKey =>
    unionIsContainedBy inputKey containerKey false inputKey.ignoreFalsableIssues insideAssertion
  | _, _ => true

def valuesAreContained (input container : TArray F K) (insideAssertion : Bool) : Bool :=
  input.valueType.isNever ||
    unionIsContainedBy input.valueType container.valueType false
      input.valueType.ignoreFalsableIssues insideAssertion

/-- Keyed with further entries, or known to be no list. -/
def cannotBeList : TArray F K → Bool
  | .keyed a => a.parameters.isSome || a.knownNonList
  | .list _ => false

def isArrayContainedByArray (input container : TArray F K) (insideAssertion : Bool) : Bool :=
  if container.isSealed && !input.isSealed then false
  else if container.isNonEmpty && !input.isNonEmpty && !input.hasRequiredKnownEntry then false
  else if input.isEmpty then !container.isNonEmpty && !container.hasRequiredKnownEntry
  else if container.isList && cannotBeList input then false
  else
    (input.knownEntries.all (itemIsContained unionIsContainedBy container insideAssertion)) &&
      (container.knownEntries.all (entryIsMet O unionIsContainedBy input insideAssertion)) &&
      keysAreContained unionIsContainedBy input container insideAssertion &&
      valuesAreContained unionIsContainedBy input container insideAssertion

end Comparison

/-! ## Known entries -/

section KnownEntries

variable {F K : Type}

theorem indexKey_inj {i j : UInt64} (h : indexKey i = indexKey j) : i = j := by
  have hint : i.toInt64.toInt = j.toInt64.toInt := by simpa [indexKey] using h
  have h64 : i.toInt64 = j.toInt64 := Int64.toInt_inj.mp hint
  have := congrArg Int64.toUInt64 h64
  simpa using this

theorem KnownItems.get_eq_some_iff {items : KnownItems F K} {key : ArrayKey}
    {e : Bool × ItemType F K} : items.get key = some e ↔ (key, e) ∈ items.iter := by
  cases items with
  | keyed items => exact OrderedMap.get?_eq_some_iff
  | list elements =>
    simp only [iter, List.mem_map, Prod.mk.injEq]
    constructor
    · intro h
      cases key with
      | integer index =>
        simp only [get] at h
        split at h
        · cases h
        · rename_i hback
          exact ⟨(_, e), OrderedMap.get?_eq_some_iff.mp h, by simpa [indexKey] using hback, rfl⟩
      | string s => cases h
      | classLikeConstant c n => cases h
    · rintro ⟨⟨i, x⟩, hmem, rfl, rfl⟩
      have hback : (Int64.ofInt i.toInt64.toInt).toUInt64 = i := by simp
      simp only [get, indexKey, hback, ne_eq, not_true_eq_false, if_false]
      exact OrderedMap.get?_eq_some_iff.mpr hmem

theorem lookup_eq_some_iff {a : TArray F K} {key : ArrayKey} {e : Bool × ItemType F K} :
    lookup a key = some e ↔ (key, e) ∈ a.knownEntries := by
  unfold lookup TArray.knownEntries
  cases a.knownItemsView with
  | none => simp
  | some items => exact KnownItems.get_eq_some_iff

theorem lookup_eq_none_iff {a : TArray F K} {key : ArrayKey} :
    lookup a key = none ↔ key ∉ a.knownEntries.map Prod.fst := by
  rw [Option.eq_none_iff_forall_not_mem]
  simp only [Option.mem_def, lookup_eq_some_iff, List.mem_map, Prod.exists, exists_and_right,
    exists_eq_right, not_exists, Prod.forall]

theorem nodup_knownEntries (a : TArray F K) : (a.knownEntries.map Prod.fst).Nodup := by
  have hiter : ∀ items : KnownItems F K, (items.iter.map Prod.fst).Nodup := by
    intro items
    cases items with
    | keyed items => exact items.nodup
    | list elements =>
      have hkeys : (KnownItems.list elements).iter.map Prod.fst =
          (elements.entries.map Prod.fst).map indexKey := by
        simp [KnownItems.iter, Function.comp_def]
      rw [hkeys]
      exact elements.nodup.map fun i j => indexKey_inj
  unfold TArray.knownEntries
  cases a.knownItemsView with
  | none => exact List.nodup_nil
  | some items => exact hiter items

theorem hasKnownItems_eq_false {a : TArray F K} :
    a.hasKnownItems = false ↔ a.knownEntries = [] := by
  simp [TArray.hasKnownItems]

/-- A key that is not negative is the index it comes from. -/
theorem toNat_index {i : UInt64} (h : 0 ≤ i.toInt64.toInt) : i.toInt64.toInt.toNat = i.toNat := by
  have hint : i.toInt64.toInt = (i.toNat : ℤ).bmod (2 ^ 64) :=
    BitVec.toInt_eq_toNat_bmod i.toBitVec
  have hlt := i.toNat_lt
  rw [Int.bmod_def] at hint
  omega

theorem hasRequiredKnownEntry_iff {a : TArray F K} :
    a.hasRequiredKnownEntry = true ↔ ∃ k u, (k, false, u) ∈ a.knownEntries := by
  simp [TArray.hasRequiredKnownEntry]

theorem valueType_of_keyType_eq_none {a : TArray F K} (h : a.keyType = none) :
    a.valueType = .getNever := by
  cases a with
  | list l => cases h
  | keyed keyedArray =>
    cases hparameters : keyedArray.parameters with
    | none => simp [TArray.valueType, TArray.keyAndValueTypes, hparameters]
    | some types => simp [TArray.keyType, TArray.keyAndValueTypes, hparameters] at h

variable {t : TArray F K} {e : ArrayKey × Bool × ItemType F K} {u : ItemType F K}

theorem ofKey_mem_itemTypes (h : e ∈ t.knownEntries) : .ofKey e.1 ∈ t.itemTypes := by
  simp only [TArray.itemTypes, List.mem_append, List.mem_map]
  exact .inl (.inl (.inl ⟨e, h, rfl⟩))

theorem item_mem_itemTypes (h : e ∈ t.knownEntries) : e.2.2 ∈ t.itemTypes := by
  simp only [TArray.itemTypes, List.mem_append, List.mem_map]
  exact .inl (.inl (.inr ⟨e, h, rfl⟩))

theorem keyType_mem_itemTypes (h : t.keyType = some u) : u ∈ t.itemTypes := by
  simp [TArray.itemTypes, h]

theorem valueType_mem_itemTypes : t.valueType ∈ t.itemTypes := by
  simp [TArray.itemTypes]

end KnownEntries

/-! ## Accepted comparisons -/

section Accepted

variable {F K O : Type} [NamedKind K F O]
  {unionIsContainedBy : ItemType F K → ItemType F K →
    (ignoreNull ignoreFalse insideAssertion : Bool) → Bool}
  {input container : TArray F K} {insideAssertion : Bool}

/-- What an accepted comparison has found, where the input is more than the empty array. -/
structure Compared (O : Type) [NamedKind K F O]
    (unionIsContainedBy : ItemType F K → ItemType F K →
      (ignoreNull ignoreFalse insideAssertion : Bool) → Bool)
    (input container : TArray F K) (insideAssertion : Bool) : Prop where
  nonEmpty : container.isNonEmpty = true →
    input.isNonEmpty = true ∨ input.hasRequiredKnownEntry = true
  items : ∀ e ∈ input.knownEntries,
    itemIsContained unionIsContainedBy container insideAssertion e = true
  entries : ∀ e ∈ container.knownEntries,
    entryIsMet O unionIsContainedBy input insideAssertion e = true
  keys : keysAreContained unionIsContainedBy input container insideAssertion = true
  values : valuesAreContained unionIsContainedBy input container insideAssertion = true

theorem isArrayContainedByArray_cases
    (h : isArrayContainedByArray O unionIsContainedBy input container insideAssertion = true) :
    (input.isEmpty = true ∧ container.isNonEmpty = false ∧
      container.hasRequiredKnownEntry = false) ∨
    Compared O unionIsContainedBy input container insideAssertion := by
  unfold isArrayContainedByArray at h
  split at h
  · cases h
  split at h
  · cases h
  rename_i hnonEmpty
  split at h
  · rename_i hempty
    simp only [Bool.and_eq_true, Bool.not_eq_true'] at h
    exact .inl ⟨hempty, h.1, h.2⟩
  split at h
  · cases h
  simp only [Bool.and_eq_true, List.all_eq_true] at h
  obtain ⟨⟨⟨hitems, hentries⟩, hkeys⟩, hvalues⟩ := h
  refine .inr ⟨?_, hitems, hentries, hkeys, hvalues⟩
  intro hcontainer
  by_contra hinput
  simp_all

end Accepted

/-! ## Arrays of a type -/

section Arrays

variable {F K O : Type}

theorem PhpArray.mem_keys {a : PhpArray F O} {k : ArrayKey} :
    k ∈ a.keys ↔ ∃ v, (k, v) ∈ a.entries := by
  simp [PhpArray.keys]

theorem PhpArray.IsList.mem_keys {a : PhpArray F O} (h : a.IsList) {index : ℤ} :
    .integer index ∈ a.keys ↔ 0 ≤ index ∧ index.toNat < a.len := by
  rw [PhpArray.IsList] at h
  rw [h]
  simp only [List.mem_map, List.mem_range, ArrayKey.integer.injEq]
  constructor
  · rintro ⟨i, hi, rfl⟩
    simpa using hi
  · intro hindex
    exact ⟨index.toNat, hindex.2, by omega⟩

/-- An array with no key other than zero has at most this one. -/
theorem PhpArray.isList_of_keys {a : PhpArray F O} (h : ∀ k ∈ a.keys, k = .integer 0) :
    a.IsList := by
  have hlen : a.keys.length = a.len := by simp [PhpArray.keys, PhpArray.len]
  rw [PhpArray.IsList, ← hlen]
  have hnodup : a.keys.Nodup := a.nodup
  match hkeys : a.keys with
  | [] => rfl
  | [k] =>
    have : k = .integer 0 := h k (by simp [hkeys])
    subst this
    rfl
  | k :: k' :: rest =>
    have hk : k = .integer 0 := h k (by simp [hkeys])
    have hk' : k' = .integer 0 := h k' (by simp [hkeys])
    rw [hkeys, hk, hk'] at hnodup
    simp at hnodup

/-- The entries in an order with a given key first. -/
theorem PhpArray.exists_perm_cons {a : PhpArray F O} {k : ArrayKey} (hk : k ∈ a.keys) :
    ∃ b : PhpArray F O, b.entries.Perm a.entries ∧ b.keys.head? = some k := by
  obtain ⟨v, hv⟩ := PhpArray.mem_keys.mp hk
  obtain ⟨before, behind, hentries⟩ := List.append_of_mem hv
  have hperm : ((k, v) :: (before ++ behind)).Perm a.entries := by
    rw [hentries]
    exact List.perm_middle.symm
  exact ⟨⟨_, (hperm.map Prod.fst).nodup_iff.mpr a.nodup,
    fun e he => a.isKey e (hperm.mem_iff.mp he)⟩, hperm, rfl⟩

theorem PhpArray.IsList.head?_keys {a : PhpArray F O} {k : ArrayKey} (h : a.IsList) (hk : a.keys.head? = some k) :
    k = .integer 0 := by
  rw [PhpArray.IsList] at h
  rw [h, List.head?_map] at hk
  cases hlen : a.len with
  | zero => simp [hlen] at hk
  | succ n => simpa [hlen, List.range_succ_eq_map] using hk.symm

theorem fromString_eq {s : Word} :
    ArrayKey.fromString s = .string s ∨
      ∃ n, ArrayKey.fromString s = .integer n ∧ i64Min ≤ n ∧ n ≤ i64Max := by
  have hparse : (parseI64 s).elim (.string s) ArrayKey.integer = .string s ∨
      ∃ n, (parseI64 s).elim (.string s) ArrayKey.integer = .integer n ∧
        i64Min ≤ n ∧ n ≤ i64Max := by
    cases hn : parseI64 s with
    | none => exact .inl rfl
    | some n =>
      simp only [parseI64, Option.ite_none_right_eq_some] at hn
      obtain ⟨hrange, hvalue⟩ := hn
      cases hvalue
      exact .inr ⟨_, rfl, hrange⟩
  unfold ArrayKey.fromString
  simp only
  generalize (if s.head? = some 45 then s.tail else s) = digits
  split
  · exact .inl rfl
  · exact hparse

variable [LinearOrder F] [Zero F] [World O] [NamedKind K F O]

theorem ItemType.has_fromSingle {t : TAtomic F K} {v : Value F O} :
    (ItemType.fromSingle t).Has v ↔ t.Has v := TUnion.has_fromAtomic

/-- The type of a key has the key. -/
theorem ItemType.hasKey_ofKey {k : ArrayKey} (h : ∃ v : Value F O, ArrayKey.ofValue v = some k) :
    (ItemType.ofKey k : ItemType F K).HasKey O k := by
  have hinteger : ∀ n : PhpInt,
      (ItemType.ofKey (.integer n) : ItemType F K).HasKey O (.integer n) := by
    intro n
    refine ⟨.int n, ?_, rfl⟩
    rw [ItemType.ofKey, ItemType.has_fromSingle]
    simp [ArrayKey.toAtomic]
  obtain ⟨v, hv⟩ := h
  cases v with
  | int n =>
    cases hv
    exact hinteger n
  | string s =>
    cases hv
    obtain hstring | ⟨n, hn, hrange⟩ := fromString_eq (s := s)
    · rw [hstring]
      refine ⟨.string s, ?_, by rw [ArrayKey.ofValue, hstring]⟩
      rw [ItemType.ofKey, ItemType.has_fromSingle]
      exact TString.has_knownLiteral
    · rw [hn]
      exact hinteger ⟨n, hrange⟩
  | null => cases hv
  | bool b => cases hv
  | float x => cases hv
  | other o => cases hv

/-- A key type with a single key has no other one. -/
theorem ItemType.eq_of_getSingleArrayKey {u : ItemType F K} {k k' : ArrayKey}
    (h : u.getSingleArrayKey O = some k) (hk : u.HasKey O k') : k' = k := by
  obtain ⟨v, hv, hkey⟩ := hk
  unfold ItemType.getSingleArrayKey at h
  split at h
  · rename_i t ht
    obtain ⟨t', hmem, htv⟩ := hv
    obtain rfl : t' = t := by simpa [ht] using hmem
    unfold TAtomic.toArrayKey at h
    split at h
    · rename_i i
      obtain ⟨n, hn, rfl⟩ := Option.map_eq_some_iff.mp h
      cases v with
      | int m =>
        cases hkey
        cases i <;> simp_all [TInteger.getLiteralValue]
      | _ => cases htv
    · rename_i s
      obtain ⟨w, hw, rfl⟩ := Option.map_eq_some_iff.mp h
      cases v with
      | string w' =>
        cases hkey
        rw [htv.value w hw]
      | _ => cases htv
    · obtain ⟨w, hw, rfl⟩ := Option.map_eq_some_iff.mp h
      rw [NamedKind.eq_of_className hw htv] at hkey
      rw [ArrayKey.ofValue, NamedKind.fromString_of_className (O := O) hw] at hkey
      cases hkey
      rfl
    · cases h
  · cases h

namespace TArray

variable {t : TArray F K} {a : PhpArray F O}

/-- A type without entries has the empty array only. -/
theorem Has.entries_eq_nil (h : t.Has a) (hempty : t.isEmpty = true) : a.entries = [] := by
  simp only [isEmpty, Bool.and_eq_true, Bool.not_eq_true', hasKnownItems_eq_false] at hempty
  obtain ⟨⟨-, hsealed⟩, hknown⟩ := hempty
  rw [List.eq_nil_iff_forall_not_mem]
  rintro ⟨k, v⟩ hmem
  obtain ⟨hvalue, -⟩ := h.further hmem (by simp [hknown])
  cases t with
  | list l => exact TUnion.not_has_of_isNever hsealed hvalue
  | keyed keyedArray =>
    have hnone : keyedArray.parameters = none := Option.isNone_iff_eq_none.mp hsealed
    simp only [valueType, keyAndValueTypes, hnone] at hvalue
    exact TUnion.not_has_getNever hvalue

theorem Has.entries_ne_nil (h : t.Has a) (hrequired : t.hasRequiredKnownEntry = true) :
    a.entries ≠ [] := by
  obtain ⟨k, u, hmem⟩ := hasRequiredKnownEntry_iff.mp hrequired
  obtain ⟨v, hv⟩ := PhpArray.mem_keys.mp (h.required hmem)
  exact List.ne_nil_of_mem hv

/-- The required entries are different entries of the array. -/
theorem Has.countP_le (h : t.Has a) : t.knownEntries.countP (fun e => !e.2.1) ≤ a.len := by
  have hsub : (t.knownEntries.filter fun e => !e.2.1).map Prod.fst ⊆ a.keys := by
    intro k hk
    obtain ⟨⟨k', opt, u⟩, hmem, rfl⟩ := List.mem_map.mp hk
    obtain ⟨hmem, hopt⟩ := List.mem_filter.mp hmem
    cases opt with
    | true => cases hopt
    | false => exact h.required hmem
  have hnodup : ((t.knownEntries.filter fun e => !e.2.1).map Prod.fst).Nodup :=
    (nodup_knownEntries t).sublist (List.filter_sublist.map Prod.fst)
  have hle := (hnodup.subperm hsub).length_le
  rw [List.countP_eq_length_filter]
  simpa [PhpArray.keys, PhpArray.len] using hle

theorem Has.getMinimumSize_le (h : t.Has a) : t.getMinimumSize ≤ a.len := by
  have hnonEmpty : t.isNonEmpty = true → 1 ≤ a.len := fun hn =>
    List.length_pos_iff.mpr (h.nonEmpty hn)
  have hcount := h.countP_le
  cases t with
  | keyed keyedArray =>
    cases hknown : keyedArray.knownItems with
    | none =>
      simp only [getMinimumSize, hknown]
      split
      · exact hnonEmpty ‹_›
      · exact Nat.zero_le _
    | some items =>
      simpa [getMinimumSize, knownEntries, knownItemsView, hknown, KnownItems.iter] using hcount
  | list l =>
    cases hn : l.knownCount with
    | some n =>
      have := h.count n hn
      simp only [getMinimumSize, hn]
      omega
    | none =>
      cases hknown : l.knownElements with
      | none =>
        simp only [getMinimumSize, hn, hknown]
        split
        · exact hnonEmpty ‹_›
        · exact Nat.zero_le _
      | some elements =>
        simpa [getMinimumSize, knownEntries, knownItemsView, hn, hknown, KnownItems.iter,
          List.countP_map, Function.comp_def] using hcount

/-- A guaranteed key is in every array of the type. -/
theorem Has.mem_keys_of_keyIsGuaranteed (h : t.Has a) {k : ArrayKey}
    (hk : keyIsGuaranteed O t k = true) : k ∈ a.keys := by
  cases t with
  | list l =>
    cases k with
    | integer index =>
      have hlist := h.isList rfl
      simp only [keyIsGuaranteed, Bool.and_eq_true, decide_eq_true_eq, Bool.or_eq_true] at hk
      obtain ⟨hindex, hk⟩ := hk
      refine hlist.mem_keys.mpr ⟨hindex, ?_⟩
      obtain hk | hk := hk
      · exact hk.trans_le h.getMinimumSize_le
      · -- a required element behind the index
        obtain ⟨elements, hknown, hany⟩ := (Option.any_eq_true _ _).mp hk
        obtain ⟨⟨i, opt, u⟩, hmem, hi⟩ := List.any_eq_true.mp hany
        simp only [Bool.and_eq_true, decide_eq_true_eq, Bool.not_eq_true'] at hi
        obtain ⟨hle, rfl⟩ := hi
        have hentry : (indexKey i, false, u) ∈ (list l).knownEntries := by
          simp only [knownEntries, knownItemsView, hknown, Option.map_some, Option.elim_some,
            KnownItems.iter, List.mem_map]
          exact ⟨_, hmem, rfl⟩
        obtain ⟨hnonneg, hlt⟩ := hlist.mem_keys.mp (h.required hentry)
        rw [toNat_index hnonneg] at hlt
        omega
    | string s => cases hk
    | classLikeConstant c n => cases hk
  | keyed keyedArray =>
    simp only [keyIsGuaranteed, Bool.and_eq_true, Bool.not_eq_true',
      hasKnownItems_eq_false] at hk
    obtain ⟨⟨hnonEmpty, hknown⟩, hsingle⟩ := hk
    obtain ⟨u, hu, hsingle⟩ := (Option.any_eq_true _ _).mp hsingle
    obtain ⟨⟨k', v⟩, hmem⟩ := List.exists_mem_of_ne_nil _ (h.nonEmpty hnonEmpty)
    obtain ⟨-, hkeys⟩ := h.further hmem (by simp [hknown])
    have hkey : k' = k := ItemType.eq_of_getSingleArrayKey (beq_iff_eq.mp hsingle) (hkeys u hu)
    exact hkey ▸ PhpArray.mem_keys.mpr ⟨v, hmem⟩

end TArray

/-! ## Soundness -/

variable {unionIsContainedBy : ItemType F K → ItemType F K →
    (ignoreNull ignoreFalse insideAssertion : Bool) → Bool}
  {input container : TArray F K} {insideAssertion : Bool} {a : PhpArray F O}

/-- Containment of the key and value types of two array types is sound. -/
def UnionsSound (O : Type) [World O] [NamedKind K F O]
    (unionIsContainedBy : ItemType F K → ItemType F K →
      (ignoreNull ignoreFalse insideAssertion : Bool) → Bool)
    (input container : TArray F K) (insideAssertion : Bool) : Prop :=
  ∀ i ∈ input.itemTypes, ∀ c ∈ container.itemTypes, ∀ ignoreFalse,
    (ignoreFalse = true → i.ignoreFalsableIssues = true) →
    unionIsContainedBy i c false ignoreFalse insideAssertion = true →
    ∀ v : Value F O, i.Has v → c.Has v

theorem ItemType.HasKey.of_contained (hsound : UnionsSound O unionIsContainedBy input container
    insideAssertion) {i c : ItemType F K} {k : ArrayKey} {ignoreFalse : Bool}
    (hi : i ∈ input.itemTypes) (hc : c ∈ container.itemTypes)
    (hflag : ignoreFalse = true → i.ignoreFalsableIssues = true)
    (hcontained : unionIsContainedBy i c false ignoreFalse insideAssertion = true)
    (hk : i.HasKey O k) : c.HasKey O k := by
  obtain ⟨v, hv, hkey⟩ := hk
  exact ⟨v, hsound i hi c hc ignoreFalse hflag hcontained v hv, hkey⟩

namespace Compared

variable (h : Compared O unionIsContainedBy input container insideAssertion) (ha : input.Has a)
include h ha

/-- An entry that the container requires is in the array. -/
theorem required {k : ArrayKey} {u : ItemType F K}
    (hmem : (k, false, u) ∈ container.knownEntries) : k ∈ a.keys := by
  have hmet := h.entries _ hmem
  cases hlookup : lookup input k with
  | some e =>
    obtain ⟨opt, item⟩ := e
    have hitem := lookup_eq_some_iff.mp hlookup
    have hcontained := h.items _ hitem
    simp only [itemIsContained, lookup_eq_some_iff.mpr hmem, Bool.and_eq_true,
      Bool.not_false, Bool.and_true, Bool.not_eq_true'] at hcontained
    obtain ⟨rfl, -⟩ := hcontained
    exact ha.required hitem
  | none =>
    have hguaranteed : keyIsGuaranteed O input k = true := by
      simp_all [entryIsMet]
    exact ha.mem_keys_of_keyIsGuaranteed hguaranteed

variable (hsound : UnionsSound O unionIsContainedBy input container insideAssertion)
include hsound

/-- A known entry of the container that the array has is of its type. -/
theorem known {k : ArrayKey} {opt : Bool} {u : ItemType F K} {v : Value F O}
    (hmem : (k, opt, u) ∈ container.knownEntries) (hv : (k, v) ∈ a.entries) : u.Has v := by
  have hmet := h.entries _ hmem
  cases hlookup : lookup input k with
  | some e =>
    have hitem := lookup_eq_some_iff.mp hlookup
    have hcontained := h.items _ hitem
    simp only [itemIsContained, lookup_eq_some_iff.mpr hmem, Bool.and_eq_true] at hcontained
    exact hsound _ (item_mem_itemTypes hitem) _ (item_mem_itemTypes hmem) false (by simp)
      hcontained.2 v (ha.known hitem hv)
  | none =>
    obtain ⟨hvalue, -⟩ := ha.further hv (lookup_eq_none_iff.mp hlookup)
    have hne : input.valueType.isNever = false :=
      Bool.eq_false_iff.mpr fun hnever => TUnion.not_has_of_isNever hnever hvalue
    have hcontained : unionIsContainedBy input.valueType u false false insideAssertion = true := by
      cases opt <;> simp_all [entryIsMet]
    exact hsound _ valueType_mem_itemTypes _ (item_mem_itemTypes hmem) false (by simp)
      hcontained v hvalue

/-- A further entry of the array is one for the container. -/
theorem further {k : ArrayKey} {v : Value F O} (hv : (k, v) ∈ a.entries)
    (hk : k ∉ container.knownEntries.map Prod.fst) :
    container.valueType.Has v ∧ ∀ u, container.keyType = some u → u.HasKey O k := by
  cases hlookup : lookup input k with
  | some e =>
    have hitem := lookup_eq_some_iff.mp hlookup
    have hcontained := h.items _ hitem
    simp only [itemIsContained, lookup_eq_none_iff.mpr hk] at hcontained
    cases hkeyType : container.keyType with
    | none => simp [hkeyType] at hcontained
    | some u =>
      simp only [hkeyType, Bool.and_eq_true] at hcontained
      obtain ⟨hkey, hvalue⟩ := hcontained
      refine ⟨hsound _ (item_mem_itemTypes hitem) _ valueType_mem_itemTypes false (by simp)
        hvalue v (ha.known hitem hv), ?_⟩
      intro u' hu'
      cases hu'
      exact .of_contained hsound (ofKey_mem_itemTypes hitem) (keyType_mem_itemTypes hkeyType)
        (by simp) hkey (ItemType.hasKey_ofKey (a.isKey _ hv))
  | none =>
    obtain ⟨hvalue, hkeys⟩ := ha.further hv (lookup_eq_none_iff.mp hlookup)
    have hne : input.valueType.isNever = false :=
      Bool.eq_false_iff.mpr fun hnever => TUnion.not_has_of_isNever hnever hvalue
    have hvalues := h.values
    simp only [valuesAreContained, hne, Bool.false_or] at hvalues
    refine ⟨hsound _ valueType_mem_itemTypes _ valueType_mem_itemTypes _ id hvalues v hvalue, ?_⟩
    intro u hu
    have hcontained := h.keys
    cases hkeyType : input.keyType with
    | none =>
      rw [valueType_of_keyType_eq_none hkeyType] at hvalue
      exact absurd hvalue TUnion.not_has_getNever
    | some i =>
      simp only [keysAreContained, hkeyType, hu] at hcontained
      exact .of_contained hsound (keyType_mem_itemTypes hkeyType) (keyType_mem_itemTypes hu) id
        hcontained (hkeys i hkeyType)

end Compared

/-- The order of the entries of a keyed array does not matter. -/
theorem TArray.Has.of_perm {keyedArray : TKeyedArray F K} {b : PhpArray F O}
    (h : (TArray.keyed keyedArray).Has a) (hperm : b.entries.Perm a.entries)
    (hnonList : keyedArray.knownNonList = false) : (TArray.keyed keyedArray).Has b where
  known hmem hv := h.known hmem (hperm.mem_iff.mp hv)
  required hmem := (hperm.map Prod.fst).mem_iff.mpr (h.required hmem)
  nonEmpty hn hb := h.nonEmpty hn (List.nil_perm.mp (hb ▸ hperm))
  further hv hk := h.further (hperm.mem_iff.mp hv) hk
  isList hlist := by cases hlist
  count n hn := by cases hn
  nonList hn := by simp [TArray.knownNonList, hnonList] at hn

/-- What the comparison does not look at: that the keys of a list are in order, the number of
entries, and being no list. -/
structure LeavesOpen (O : Type) [World O] [NamedKind K F O] (input container : TArray F K) :
    Prop where
  keys : container.isList = true → input.isList = true ∨
    ∀ a : PhpArray F O, input.Has a → ∀ k ∈ a.keys, k = .integer 0
  count : ∀ n, container.knownCount = some n → ∀ a : PhpArray F O, input.Has a → a.len = n
  nonList : container.knownNonList = true → ∀ a : PhpArray F O, input.Has a → ¬ a.IsList

theorem TArray.Has.of_accepted (hsound : UnionsSound O unionIsContainedBy input container
      insideAssertion)
    (h : isArrayContainedByArray O unionIsContainedBy input container insideAssertion = true)
    (hopen : LeavesOpen O input container) (ha : input.Has a) : container.Has a := by
  have hisList : container.isList = true → a.IsList := by
    intro hlist
    obtain hinput | hkeys := hopen.keys hlist
    · exact ha.isList hinput
    · exact PhpArray.isList_of_keys (hkeys a ha)
  have hcount : ∀ n, container.knownCount = some n → a.len = n := fun n hn =>
    hopen.count n hn a ha
  have hnonList : container.knownNonList = true → ¬ a.IsList := fun hn => hopen.nonList hn a ha
  obtain ⟨hempty, hnonEmpty, hrequired⟩ | hcompared := isArrayContainedByArray_cases h
  · have hentries := ha.entries_eq_nil hempty
    have hno : ∀ {k u}, (k, false, u) ∉ container.knownEntries := by
      intro k u hmem
      rw [hasRequiredKnownEntry_iff.mpr ⟨k, u, hmem⟩] at hrequired
      cases hrequired
    refine ⟨?_, fun hmem => absurd hmem hno, ?_, ?_, hisList, hcount, hnonList⟩
    · intro k opt u v hmem hv
      simp [hentries] at hv
    · intro hn
      rw [hnonEmpty] at hn
      cases hn
    · intro k v hv
      simp [hentries] at hv
  · refine ⟨fun hmem hv => hcompared.known ha hsound hmem hv,
      fun hmem => hcompared.required ha hmem, ?_,
      fun hv hk => hcompared.further ha hsound hv hk, hisList, hcount, hnonList⟩
    intro hn
    obtain hinput | hinput := hcompared.nonEmpty hn
    · exact ha.nonEmpty hinput
    · exact ha.entries_ne_nil hinput

theorem LeavesOpen.of_sound (h : ∀ a : PhpArray F O, input.Has a → container.Has a) :
    LeavesOpen O input container := by
  refine ⟨?_, fun n hn a ha => (h a ha).count n hn, fun hn a ha => (h a ha).nonList hn⟩
  intro hlist
  cases input with
  | list l => exact .inl rfl
  | keyed keyedArray =>
    refine .inr fun a ha k hk => ?_
    have hordered := (h a ha).isList hlist
    have hnonList : keyedArray.knownNonList = false :=
      Bool.eq_false_iff.mpr fun hn => ha.nonList hn hordered
    -- with the key first, the entries still are an array of the input
    obtain ⟨b, hperm, hhead⟩ := PhpArray.exists_perm_cons hk
    exact ((h b (ha.of_perm hperm hnonList)).isList hlist).head?_keys hhead

/-- An accepted comparison is sound iff it leaves nothing open. -/
theorem isArrayContainedByArray_sound_iff
    (hsound : UnionsSound O unionIsContainedBy input container insideAssertion)
    (h : isArrayContainedByArray O unionIsContainedBy input container insideAssertion = true) :
    (∀ a : PhpArray F O, input.Has a → container.Has a) ↔ LeavesOpen O input container :=
  ⟨.of_sound, fun hopen _ ha => .of_accepted hsound h hopen ha⟩

end Arrays

section Concrete

/-- A world without objects, where no string is callable. -/
instance : World Empty := ⟨Empty.elim, fun _ => false⟩

/-- A comparison that accepts equal unions only. -/
def equalUnions (i c : ItemType ℕ Empty) (_ _ _ : Bool) : Bool := decide (i = c)

theorem unionsSound_equalUnions (input container : TArray ℕ Empty) (insideAssertion : Bool) :
    UnionsSound Empty equalUnions input container insideAssertion := by
  intro i _ c _ _ _ heq v hv
  have heq : i = c := of_decide_eq_true heq
  rwa [← heq]

def intItem : ItemType ℕ Empty := .fromSingle (.scalar .int)

/-- `list\x7b0?: int, 1?: int\x7d` -/
def upToTwo : TArray ℕ Empty :=
  .list ⟨.getNever, some ⟨[(0, true, intItem), (1, true, intItem)], by decide⟩, none, false⟩

/-- An array type with one required entry. -/
def single (key : ℤ) : TArray ℕ Empty :=
  .keyed ⟨some ⟨[(.integer key, false, intItem)], List.nodup_singleton _⟩, none, true, false⟩

/-- The array with one integer under an integer key. -/
def PhpArray.single (key n : PhpInt) : PhpArray ℕ Empty where
  entries := [(.integer key, .int n)]
  nodup := List.nodup_singleton _
  isKey e he := ⟨.int key, by rw [List.mem_singleton.mp he]; rfl⟩

theorem has_single (key n : PhpInt) : (single key).Has (PhpArray.single key n) := by
  have hentries : (single key).knownEntries = [(.integer key, false, intItem)] := rfl
  constructor
  · intro k opt u v hmem hv
    rw [hentries, List.mem_singleton] at hmem
    cases hmem
    cases List.mem_singleton.mp hv
    exact ⟨_, List.mem_singleton_self _, trivial⟩
  · intro k u hmem
    rw [hentries, List.mem_singleton] at hmem
    cases hmem
    exact List.mem_singleton_self _
  · intro _
    exact List.cons_ne_nil _ _
  · intro k v hv hk
    cases List.mem_singleton.mp hv
    exact absurd (List.mem_singleton_self _) hk
  · intro h
    cases h
  · intro n hn
    cases hn
  · intro h
    cases h

theorem isArrayContainedByArray_sound_iff_first :
    (∀ a : PhpArray ℕ Empty, (single 0).Has a → upToTwo.Has a) ↔
      LeavesOpen Empty (single 0) upToTwo :=
  isArrayContainedByArray_sound_iff (unionsSound_equalUnions _ _ true) (by decide)

/-- The second entry alone is accepted where a list is required. -/
theorem accepted_without_first_entry :
    isArrayContainedByArray Empty equalUnions (single 1) upToTwo true = true ∧
      UnionsSound Empty equalUnions (single 1) upToTwo true ∧
      ∃ a : PhpArray ℕ Empty, (single 1).Has a ∧ ¬ upToTwo.Has a := by
  have hnot : ¬ upToTwo.Has (PhpArray.single ⟨1, by decide⟩ ⟨5, by decide⟩) := by
    intro h
    exact absurd (h.isList rfl) (by decide)
  exact ⟨by decide, unionsSound_equalUnions _ _ _, _,
    has_single ⟨1, by decide⟩ ⟨5, by decide⟩, hnot⟩

end Concrete

end Mago.Types
