import Mathlib

/-!
# Sorted maps

A map as the list of its entries with strictly increasing keys, so that maps with the same
values at every key are equal.
-/
namespace Mago.Library

structure SortedMap (κ ν : Type*) [LinearOrder κ] where
  entries : List (κ × ν)
  sorted : entries.Pairwise fun a b => a.1 < b.1
  deriving DecidableEq

namespace SortedMap

variable {κ ν : Type*} [LinearOrder κ]

def empty : SortedMap κ ν := ⟨[], List.Pairwise.nil⟩

def hasKey (k : κ) (e : κ × ν) : Bool := decide (e.1 = k)

theorem hasKey_iff {k : κ} {e : κ × ν} : hasKey k e = true ↔ e.1 = k := decide_eq_true_iff

def get? (m : SortedMap κ ν) (k : κ) : Option ν := (m.entries.find? (hasKey k)).map Prod.snd

theorem get?_eq_some_iff {m : SortedMap κ ν} {k : κ} {v : ν} :
    m.get? k = some v ↔ (k, v) ∈ m.entries := by
  obtain ⟨es, hes⟩ := m
  simp only [get?]
  induction es with
  | nil => simp
  | cons x xs ih =>
    obtain ⟨hx, hxs⟩ := List.pairwise_cons.mp hes
    by_cases hk : x.1 = k
    · subst hk
      have hno : (x.1, v) ∉ xs := fun h => absurd (hx _ h) (lt_irrefl _)
      rw [List.find?_cons_of_pos (hasKey_iff.mpr rfl)]
      simp [hno, Prod.ext_iff, eq_comm]
    · have hne : (k, v) ≠ x := fun h => hk (by rw [← h])
      rw [List.find?_cons_of_neg (mt hasKey_iff.mp hk), ih hxs, List.mem_cons]
      simp [hne]

/-- Maps with the same values are equal. -/
theorem ext_get? {m m' : SortedMap κ ν} (h : ∀ k, m.get? k = m'.get? k) : m = m' := by
  have : Std.Irrefl fun a b : κ × ν => a.1 < b.1 := ⟨fun a => lt_irrefl a.1⟩
  have : Std.Antisymm fun a b : κ × ν => a.1 < b.1 :=
    ⟨fun a b hab hba => absurd hab hba.asymm⟩
  have hentries : m.entries = m'.entries := by
    refine m.sorted.eq_of_mem_iff m'.sorted fun e => ?_
    rw [← Prod.mk.eta (p := e), ← get?_eq_some_iff, ← get?_eq_some_iff, h]
  cases m
  cases m'
  simpa using hentries

def alterEntry (k : κ) (f : Option ν → ν) : List (κ × ν) → List (κ × ν)
  | [] => [(k, f none)]
  | e :: es =>
    if k < e.1 then (k, f none) :: e :: es
    else if k = e.1 then (k, f (some e.2)) :: es
    else e :: alterEntry k f es

theorem mem_keys_alterEntry {k : κ} {f : Option ν → ν} {es : List (κ × ν)} {e : κ × ν}
    (h : e ∈ alterEntry k f es) : e.1 = k ∨ e ∈ es := by
  induction es with
  | nil => simp_all [alterEntry]
  | cons x xs ih =>
    unfold alterEntry at h
    split_ifs at h with hlt heq
    · rcases List.mem_cons.mp h with rfl | h
      · exact .inl rfl
      · exact .inr h
    · rcases List.mem_cons.mp h with rfl | h
      · exact .inl rfl
      · exact .inr (List.mem_cons_of_mem _ h)
    · rcases List.mem_cons.mp h with rfl | h
      · exact .inr List.mem_cons_self
      · exact (ih h).imp_right (List.mem_cons_of_mem _)

theorem sorted_alterEntry {k : κ} {f : Option ν → ν} {es : List (κ × ν)}
    (hes : es.Pairwise fun a b => a.1 < b.1) :
    (alterEntry k f es).Pairwise fun a b => a.1 < b.1 := by
  induction es with
  | nil => simp [alterEntry]
  | cons x xs ih =>
    obtain ⟨hx, hxs⟩ := List.pairwise_cons.mp hes
    unfold alterEntry
    split_ifs with hlt heq
    · refine List.pairwise_cons.mpr ⟨fun e he => ?_, hes⟩
      rcases List.mem_cons.mp he with rfl | he
      · exact hlt
      · exact hlt.trans (hx e he)
    · subst heq
      exact List.pairwise_cons.mpr ⟨hx, hxs⟩
    · refine List.pairwise_cons.mpr ⟨fun e he => ?_, ih hxs⟩
      rcases mem_keys_alterEntry he with hek | he
      · rw [hek]
        exact lt_of_le_of_ne (not_lt.mp hlt) (Ne.symm heq)
      · exact hx e he

/-- The entry at `k` becomes `f` of the value before, `none` when there was none. -/
def alter (m : SortedMap κ ν) (k : κ) (f : Option ν → ν) : SortedMap κ ν :=
  ⟨alterEntry k f m.entries, sorted_alterEntry m.sorted⟩

theorem get?_alter_self (m : SortedMap κ ν) (k : κ) (f : Option ν → ν) :
    (m.alter k f).get? k = some (f (m.get? k)) := by
  obtain ⟨es, hes⟩ := m
  simp only [get?, alter]
  induction es with
  | nil => simp [alterEntry, hasKey]
  | cons x xs ih =>
    obtain ⟨hx, hxs⟩ := List.pairwise_cons.mp hes
    unfold alterEntry
    split_ifs with hlt heq
    · have hnone : (x :: xs).find? (hasKey k) = none := by
        simp only [List.find?_eq_none, List.mem_cons, forall_eq_or_imp, hasKey_iff]
        exact ⟨hlt.ne', fun e he => (hlt.trans (hx e he)).ne'⟩
      simp [hnone, hasKey]
    · subst heq
      simp [hasKey]
    · have hne : ¬ hasKey k x = true := mt hasKey_iff.mp (Ne.symm heq)
      rw [List.find?_cons_of_neg hne, List.find?_cons_of_neg hne, ih hxs]

theorem get?_alter_of_ne (m : SortedMap κ ν) {k k' : κ} (h : k' ≠ k) (f : Option ν → ν) :
    (m.alter k f).get? k' = m.get? k' := by
  obtain ⟨es, hes⟩ := m
  simp only [get?, alter]
  have hne : ∀ v : ν, ¬ hasKey k' (k, v) = true := fun v => mt hasKey_iff.mp (Ne.symm h)
  induction es with
  | nil => rw [alterEntry, List.find?_cons_of_neg (hne _)]
  | cons x xs ih =>
    unfold alterEntry
    split_ifs with hlt heq
    · rw [List.find?_cons_of_neg (hne _)]
    · subst heq
      rw [List.find?_cons_of_neg (hne _), List.find?_cons_of_neg (hne x.2)]
    · rw [List.find?_cons, List.find?_cons]
      cases hasKey k' x
      · exact ih (List.pairwise_cons.mp hes).2
      · rfl

/-- The values change, the keys stay. -/
def mapValues (f : ν → ν) (m : SortedMap κ ν) : SortedMap κ ν :=
  ⟨m.entries.map fun e => (e.1, f e.2), List.pairwise_map.mpr m.sorted⟩

theorem get?_mapValues (f : ν → ν) (m : SortedMap κ ν) (k : κ) :
    (m.mapValues f).get? k = (m.get? k).map f := by
  simp only [get?, mapValues, List.find?_map, Option.map_map]
  rfl

/-- The values change or go with their keys. -/
def filterMapValues (f : κ → ν → Option ν) (m : SortedMap κ ν) : SortedMap κ ν :=
  ⟨m.entries.filterMap fun e => (f e.1 e.2).map fun v => (e.1, v), by
    refine List.pairwise_filterMap.mpr (m.sorted.imp fun {a a'} hlt b hb b' hb' => ?_)
    obtain ⟨v, -, rfl⟩ := Option.map_eq_some_iff.mp hb
    obtain ⟨v', -, rfl⟩ := Option.map_eq_some_iff.mp hb'
    exact hlt⟩

theorem mem_filterMapValues {f : κ → ν → Option ν} {m : SortedMap κ ν} {e : κ × ν} :
    e ∈ (m.filterMapValues f).entries ↔ ∃ v, (e.1, v) ∈ m.entries ∧ f e.1 v = some e.2 := by
  obtain ⟨k, w⟩ := e
  simp only [filterMapValues, List.mem_filterMap, Option.map_eq_some_iff, Prod.mk.injEq]
  constructor
  · intro h
    obtain ⟨⟨k', v⟩, hmem, w', hw, rfl, rfl⟩ := h
    exact ⟨v, hmem, hw⟩
  · intro h
    obtain ⟨v, hmem, hw⟩ := h
    exact ⟨(k, v), hmem, w, hw, rfl, rfl⟩

theorem get?_filterMapValues (f : κ → ν → Option ν) (m : SortedMap κ ν) (k : κ) :
    (m.filterMapValues f).get? k = (m.get? k).bind (f k) := by
  ext v
  simp only [get?_eq_some_iff, mem_filterMapValues, Option.bind_eq_some_iff]

@[simp] theorem get?_empty (k : κ) : (empty : SortedMap κ ν).get? k = none := rfl

end SortedMap

end Mago.Library
