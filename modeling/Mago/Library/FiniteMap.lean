import Mathlib

/-!
# Finite maps

Maps with finitely many keys, given by their lookups, so that two maps with the same lookups are
equal. Loops that touch every key once are defined key by key. A map of sets stands for a
relation; when it has no empty set the relation determines it.
-/
namespace Mago.Library

structure FiniteMap (κ ν : Type*) where
  get? : κ → Option ν
  keys : Finset κ
  mem_keys : ∀ k, k ∈ keys ↔ (get? k).isSome

namespace FiniteMap

variable {κ ν : Type*}

theorem ext_get? {m m' : FiniteMap κ ν} (h : ∀ k, m.get? k = m'.get? k) : m = m' := by
  obtain ⟨get, keys, hkeys⟩ := m
  obtain ⟨get', keys', hkeys'⟩ := m'
  have hget : get = get' := funext h
  subst hget
  have heq : keys = keys' := by
    ext k
    rw [hkeys, hkeys']
  subst heq
  rfl

def empty : FiniteMap κ ν := ⟨fun _ => none, ∅, by simp⟩

instance : Inhabited (FiniteMap κ ν) := ⟨empty⟩

@[simp] theorem get?_empty (k : κ) : (empty : FiniteMap κ ν).get? k = none := rfl

def isEmpty (m : FiniteMap κ ν) : Bool := decide (m.keys.card = 0)

theorem isEmpty_iff {m : FiniteMap κ ν} : m.isEmpty = true ↔ ∀ k, m.get? k = none := by
  rw [isEmpty, decide_eq_true_iff, Finset.card_eq_zero, Finset.eq_empty_iff_forall_notMem]
  simp only [m.mem_keys, Option.isSome_iff_ne_none, not_not]

/-- Every value replaced or dropped, key by key. -/
def filterMap (f : κ → ν → Option ν) (m : FiniteMap κ ν) : FiniteMap κ ν where
  get? k := (m.get? k).bind (f k)
  keys := m.keys.filter fun k => ((m.get? k).bind (f k)).isSome
  mem_keys k := by
    rw [Finset.mem_filter, m.mem_keys, and_iff_right_iff_imp]
    intro h
    obtain ⟨v, hv⟩ := Option.isSome_iff_exists.mp h
    obtain ⟨w, hw, -⟩ := Option.bind_eq_some_iff.mp hv
    exact Option.isSome_iff_exists.mpr ⟨w, hw⟩

@[simp] theorem get?_filterMap (f : κ → ν → Option ν) (m : FiniteMap κ ν) (k : κ) :
    (m.filterMap f).get? k = (m.get? k).bind (f k) := rfl

/-! ## Maps of sets -/

/-- The set at a key, empty without one. -/
def setAt (m : FiniteMap κ (Finset ν)) (k : κ) : Finset ν := (m.get? k).getD ∅

def NoEmptySet (m : FiniteMap κ (Finset ν)) : Prop := ∀ k, m.get? k ≠ some ∅

@[simp] theorem setAt_empty (k : κ) : (empty : FiniteMap κ (Finset ν)).setAt k = ∅ := rfl

theorem noEmptySet_empty : (empty : FiniteMap κ (Finset ν)).NoEmptySet := by
  intro k h
  simp at h

section Retain

variable [DecidableEq ν]

theorem get?_eq_of_noEmptySet {m : FiniteMap κ (Finset ν)} (h : m.NoEmptySet) (k : κ) :
    m.get? k = if m.setAt k = ∅ then none else some (m.setAt k) := by
  unfold setAt
  cases hk : m.get? k with
  | none => simp
  | some set =>
    have hset : set ≠ ∅ := fun hset => h k (hset ▸ hk)
    simp [hset]

theorem ext_setAt {m m' : FiniteMap κ (Finset ν)} (h : m.NoEmptySet) (h' : m'.NoEmptySet)
    (hset : ∀ k, m.setAt k = m'.setAt k) : m = m' := by
  apply ext_get?
  intro k
  rw [get?_eq_of_noEmptySet h, get?_eq_of_noEmptySet h', hset]

/-- Members that fail a test removed, and with the last one their key. -/
def retain (p : κ → ν → Bool) (m : FiniteMap κ (Finset ν)) : FiniteMap κ (Finset ν) :=
  m.filterMap fun k set =>
    let kept := set.filter fun v => p k v = true
    if kept = ∅ then none else some kept

theorem mem_setAt_retain {p : κ → ν → Bool} {m : FiniteMap κ (Finset ν)} {k : κ} {v : ν} :
    v ∈ (m.retain p).setAt k ↔ v ∈ m.setAt k ∧ p k v = true := by
  unfold setAt retain
  rw [get?_filterMap]
  cases m.get? k with
  | none => simp
  | some set =>
    have hfilter : v ∈ set.filter (fun v => p k v = true) ↔ v ∈ set ∧ p k v = true :=
      Finset.mem_filter
    rw [Option.bind_some, Option.getD_some, ← hfilter]
    by_cases hkept : set.filter (fun v => p k v = true) = ∅
    · rw [if_pos hkept, hkept]
      rfl
    · rw [if_neg hkept]
      rfl

theorem noEmptySet_retain (p : κ → ν → Bool) (m : FiniteMap κ (Finset ν)) :
    (m.retain p).NoEmptySet := by
  intro k hk
  rw [retain, get?_filterMap] at hk
  obtain ⟨set, -, hset⟩ := Option.bind_eq_some_iff.mp hk
  by_cases hkept : set.filter (fun v => p k v = true) = ∅
  · rw [if_pos hkept] at hset
    exact (Option.some_ne_none _ hset.symm).elim
  · rw [if_neg hkept] at hset
    exact hkept (Option.some.inj hset)

end Retain

/-! ## Changes at one key -/

variable [DecidableEq κ]

/-- The value at one key replaced, set or removed. -/
def alter (m : FiniteMap κ ν) (k : κ) (f : Option ν → Option ν) : FiniteMap κ ν where
  get? k' := if k' = k then f (m.get? k) else m.get? k'
  keys := if (f (m.get? k)).isSome then insert k m.keys else m.keys.erase k
  mem_keys k' := by
    by_cases hk : k' = k
    · subst hk
      cases hf : f (m.get? k') with
      | none => simp
      | some v => simp
    · rw [if_neg hk, ← m.mem_keys]
      split_ifs <;> simp [hk]

theorem get?_alter (m : FiniteMap κ ν) (k k' : κ) (f : Option ν → Option ν) :
    (m.alter k f).get? k' = if k' = k then f (m.get? k) else m.get? k' := rfl

/-- Every key of the second map handled in the first one. -/
def mergeWith {μ : Type*} (f : κ → Option ν → μ → Option ν) (m : FiniteMap κ ν)
    (source : FiniteMap κ μ) : FiniteMap κ ν :=
  let get? (k : κ) := match source.get? k with
    | none => m.get? k
    | some v => f k (m.get? k) v
  { get? := get?
    keys := (m.keys ∪ source.keys).filter fun k => (get? k).isSome
    mem_keys := by
      intro k
      rw [Finset.mem_filter, Finset.mem_union, m.mem_keys, source.mem_keys,
        and_iff_right_iff_imp]
      intro h
      cases hs : source.get? k with
      | none =>
        simp only [get?, hs] at h
        exact .inl h
      | some v => exact .inr rfl }

theorem get?_mergeWith {μ : Type*} (f : κ → Option ν → μ → Option ν) (m : FiniteMap κ ν)
    (source : FiniteMap κ μ) (k : κ) : (m.mergeWith f source).get? k =
      match source.get? k with
      | none => m.get? k
      | some v => f k (m.get? k) v := rfl

variable [DecidableEq ν]

/-- A new member of the set at a key. -/
def insertAt (m : FiniteMap κ (Finset ν)) (k : κ) (v : ν) : FiniteMap κ (Finset ν) :=
  m.alter k fun set => some (insert v (set.getD ∅))

theorem setAt_insertAt (m : FiniteMap κ (Finset ν)) (k k' : κ) (v : ν) :
    (m.insertAt k v).setAt k' = if k' = k then insert v (m.setAt k) else m.setAt k' := by
  unfold setAt insertAt
  rw [get?_alter]
  split_ifs <;> rfl

theorem NoEmptySet.insertAt {m : FiniteMap κ (Finset ν)} (h : m.NoEmptySet) (k : κ) (v : ν) :
    (m.insertAt k v).NoEmptySet := by
  intro k' hk'
  rw [FiniteMap.insertAt, get?_alter] at hk'
  split_ifs at hk' with hk
  · exact absurd (Option.some.inj hk') (Finset.insert_ne_empty _ _)
  · exact h k' hk'

/-- Pairs inserted one after another. -/
def insertAll (m : FiniteMap κ (Finset ν)) (pairs : List (κ × ν)) : FiniteMap κ (Finset ν) :=
  pairs.foldl (fun m pair => m.insertAt pair.1 pair.2) m

theorem mem_setAt_insertAll {m : FiniteMap κ (Finset ν)} {pairs : List (κ × ν)} {k : κ} {v : ν} :
    v ∈ (m.insertAll pairs).setAt k ↔ v ∈ m.setAt k ∨ (k, v) ∈ pairs := by
  induction pairs generalizing m with
  | nil => simp [insertAll]
  | cons pair pairs ih =>
    have hcons : m.insertAll (pair :: pairs) = (m.insertAt pair.1 pair.2).insertAll pairs := rfl
    rw [hcons, ih, setAt_insertAt, List.mem_cons]
    obtain ⟨k', v'⟩ := pair
    by_cases hk : k = k'
    · subst hk
      simp only [if_true, Finset.mem_insert, Prod.mk.injEq, true_and]
      tauto
    · simp [hk]

theorem NoEmptySet.insertAll {m : FiniteMap κ (Finset ν)} (h : m.NoEmptySet)
    (pairs : List (κ × ν)) : (m.insertAll pairs).NoEmptySet := by
  induction pairs generalizing m with
  | nil => exact h
  | cons pair pairs ih => exact ih (h.insertAt pair.1 pair.2)

end FiniteMap

end Mago.Library
