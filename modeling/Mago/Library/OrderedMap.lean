import Mathlib

/-!
# Ordered maps

A map as the list of its entries in insertion order, with distinct keys. Inserting at a
key that is present overwrites its value in place, any other key is appended.
-/
namespace Mago.Library

structure OrderedMap (κ ν : Type*) where
  entries : List (κ × ν)
  nodup : (entries.map Prod.fst).Nodup
  deriving DecidableEq

namespace OrderedMap

variable {κ ν : Type*}

def empty : OrderedMap κ ν := ⟨[], List.nodup_nil⟩

instance : Inhabited (OrderedMap κ ν) := ⟨empty⟩

def keys (m : OrderedMap κ ν) : List κ := m.entries.map Prod.fst

def values (m : OrderedMap κ ν) : List ν := m.entries.map Prod.snd

def len (m : OrderedMap κ ν) : ℕ := m.entries.length

def isEmpty (m : OrderedMap κ ν) : Bool := m.entries.isEmpty

def first (m : OrderedMap κ ν) : Option (κ × ν) := m.entries.head?

def getIndex (m : OrderedMap κ ν) (i : ℕ) : Option (κ × ν) := m.entries[i]?

def filter (p : κ × ν → Bool) (m : OrderedMap κ ν) : OrderedMap κ ν :=
  ⟨m.entries.filter p, m.nodup.sublist (List.filter_sublist.map _)⟩

@[simp] theorem entries_empty : (empty : OrderedMap κ ν).entries = [] := rfl

@[simp] theorem mem_filter {p : κ × ν → Bool} {m : OrderedMap κ ν} {e : κ × ν} :
    e ∈ (m.filter p).entries ↔ e ∈ m.entries ∧ p e = true := List.mem_filter

theorem mem_keys_of_mem {m : OrderedMap κ ν} {e : κ × ν} (h : e ∈ m.entries) : e.1 ∈ m.keys :=
  List.mem_map_of_mem h

theorem mem_values_of_mem {m : OrderedMap κ ν} {e : κ × ν} (h : e ∈ m.entries) :
    e.2 ∈ m.values := List.mem_map_of_mem h

theorem mem_values {m : OrderedMap κ ν} {v : ν} : v ∈ m.values ↔ ∃ k, (k, v) ∈ m.entries := by
  simp [values]

theorem mem_keys {m : OrderedMap κ ν} {k : κ} : k ∈ m.keys ↔ ∃ v, (k, v) ∈ m.entries := by
  simp [keys]

theorem isEmpty_iff {m : OrderedMap κ ν} : m.isEmpty = true ↔ m.entries = [] :=
  List.isEmpty_iff

theorem eq_of_mem {m : OrderedMap κ ν} {k : κ} {v w : ν} (hv : (k, v) ∈ m.entries)
    (hw : (k, w) ∈ m.entries) : v = w := by
  have h := List.inj_on_of_nodup_map m.nodup hv hw rfl
  exact (Prod.mk.inj h).2

theorem entries_of_len_eq_one {m : OrderedMap κ ν} (h : m.len = 1) {e : κ × ν}
    (he : e ∈ m.entries) : m.entries = [e] := by
  obtain ⟨x, hx⟩ := List.length_eq_one_iff.mp h
  rw [hx] at he ⊢
  rw [List.mem_singleton.mp he]

variable [DecidableEq κ]

def get? (m : OrderedMap κ ν) (k : κ) : Option ν := m.entries.lookup k

def erase (m : OrderedMap κ ν) (k : κ) : OrderedMap κ ν := m.filter fun e => decide (e.1 ≠ k)

def containsKey (m : OrderedMap κ ν) (k : κ) : Bool := (m.get? k).isSome

/-- The value at `k`, looked for at position `i` first. -/
def getIndexOr (m : OrderedMap κ ν) (i : ℕ) (k : κ) : Option ν :=
  match (m.getIndex i).filter fun e => e.1 = k with
  | some e => some e.2
  | none => m.get? k

def insertEntry (k : κ) (v : ν) : List (κ × ν) → List (κ × ν)
  | [] => [(k, v)]
  | e :: es => if e.1 = k then (k, v) :: es else e :: insertEntry k v es

theorem mem_insertEntry {k : κ} {v : ν} {es : List (κ × ν)} (hes : (es.map Prod.fst).Nodup)
    {e : κ × ν} : e ∈ insertEntry k v es ↔ e = (k, v) ∨ e ∈ es ∧ e.1 ≠ k := by
  induction es with
  | nil => simp [insertEntry]
  | cons x xs ih =>
    obtain ⟨hx, hxs⟩ := List.nodup_cons.mp hes
    unfold insertEntry
    split_ifs with hk
    · subst hk
      have hne : ∀ e ∈ xs, e.1 ≠ x.1 := fun e he heq => hx (heq ▸ List.mem_map_of_mem he)
      simp only [List.mem_cons]
      constructor
      · rintro (h | h)
        · exact .inl h
        · exact .inr ⟨.inr h, hne e h⟩
      · rintro (h | ⟨rfl | h, hk⟩)
        · exact .inl h
        · exact absurd rfl hk
        · exact .inr h
    · rw [List.mem_cons, ih hxs, List.mem_cons]
      constructor
      · rintro (rfl | h | ⟨h, hek⟩)
        · exact .inr ⟨.inl rfl, hk⟩
        · exact .inl h
        · exact .inr ⟨.inr h, hek⟩
      · rintro (h | ⟨rfl | h, hek⟩)
        · exact .inr (.inl h)
        · exact .inl rfl
        · exact .inr (.inr ⟨h, hek⟩)

theorem nodup_insertEntry {k : κ} {v : ν} {es : List (κ × ν)} (hes : (es.map Prod.fst).Nodup) :
    ((insertEntry k v es).map Prod.fst).Nodup := by
  induction es with
  | nil => simp [insertEntry]
  | cons x xs ih =>
    obtain ⟨hx, hxs⟩ := List.nodup_cons.mp hes
    unfold insertEntry
    split_ifs with hk
    · subst hk
      exact List.nodup_cons.mpr ⟨hx, hxs⟩
    · refine List.nodup_cons.mpr ⟨fun hmem => ?_, ih hxs⟩
      obtain ⟨e, he, heq⟩ := List.mem_map.mp hmem
      rcases (mem_insertEntry hxs).mp he with rfl | ⟨he, -⟩
      · exact hk heq.symm
      · exact hx (heq ▸ List.mem_map_of_mem he)

def insert (m : OrderedMap κ ν) (k : κ) (v : ν) : OrderedMap κ ν :=
  ⟨insertEntry k v m.entries, nodup_insertEntry m.nodup⟩

def extend (m : OrderedMap κ ν) (es : List (κ × ν)) : OrderedMap κ ν :=
  es.foldl (fun m e => m.insert e.1 e.2) m

def ofList (es : List (κ × ν)) : OrderedMap κ ν := empty.extend es

theorem mem_insert {m : OrderedMap κ ν} {k : κ} {v : ν} {e : κ × ν} :
    e ∈ (m.insert k v).entries ↔ e = (k, v) ∨ e ∈ m.entries ∧ e.1 ≠ k :=
  mem_insertEntry m.nodup

theorem mem_keys_insert {m : OrderedMap κ ν} {k k' : κ} {v : ν} :
    k' ∈ (m.insert k v).keys ↔ k' = k ∨ k' ∈ m.keys := by
  simp only [mem_keys, mem_insert]
  constructor
  · rintro ⟨w, h | ⟨h, -⟩⟩
    · exact .inl (Prod.mk.inj h).1
    · exact .inr ⟨w, h⟩
  · rintro (rfl | ⟨w, h⟩)
    · exact ⟨v, .inl rfl⟩
    · by_cases hk : k' = k
      · exact ⟨v, .inl (by rw [hk])⟩
      · exact ⟨w, .inr ⟨h, hk⟩⟩

@[simp] theorem entries_insert_empty (k : κ) (v : ν) :
    ((empty : OrderedMap κ ν).insert k v).entries = [(k, v)] := rfl

@[simp] theorem entries_ofList_singleton (e : κ × ν) : (ofList [e]).entries = [e] := rfl

theorem get?_eq_some_iff {m : OrderedMap κ ν} {k : κ} {v : ν} :
    m.get? k = some v ↔ (k, v) ∈ m.entries := by
  obtain ⟨es, hes⟩ := m
  simp only [get?]
  induction es with
  | nil => simp
  | cons x xs ih =>
    obtain ⟨k', v'⟩ := x
    obtain ⟨hx, hxs⟩ := List.nodup_cons.mp hes
    by_cases hk : k = k'
    · subst hk
      have hno : (k, v) ∉ xs := fun h => hx (List.mem_map.mpr ⟨_, h, rfl⟩)
      simp [hno, eq_comm]
    · have hk' : (k == k') = false := by simpa using hk
      simp [List.lookup_cons, hk, hk', ih hxs]

theorem get?_insert (m : OrderedMap κ ν) (k k' : κ) (v : ν) :
    (m.insert k v).get? k' = if k' = k then some v else m.get? k' := by
  ext w
  rw [get?_eq_some_iff, mem_insert]
  split_ifs with hk
  · simp [hk, eq_comm]
  · simp [hk, get?_eq_some_iff]

theorem get?_erase (m : OrderedMap κ ν) (k k' : κ) :
    (m.erase k).get? k' = if k' = k then none else m.get? k' := by
  ext w
  rw [get?_eq_some_iff, erase, mem_filter, decide_eq_true_eq]
  split_ifs with hk
  · simp [hk]
  · simp [hk, get?_eq_some_iff]

/-- Every value replaced in its place. -/
def mapValues (f : κ → ν → ν) (m : OrderedMap κ ν) : OrderedMap κ ν :=
  ⟨m.entries.map fun e => (e.1, f e.1 e.2), by simpa [Function.comp_def] using m.nodup⟩

theorem get?_mapValues (f : κ → ν → ν) (m : OrderedMap κ ν) (k : κ) :
    (m.mapValues f).get? k = (m.get? k).map (f k) := by
  ext w
  rw [get?_eq_some_iff, Option.map_eq_some_iff, mapValues]
  simp only [List.mem_map, Prod.mk.injEq, get?_eq_some_iff]
  constructor
  · intro h
    obtain ⟨e, he, rfl, rfl⟩ := h
    exact ⟨e.2, he, rfl⟩
  · intro h
    obtain ⟨v, hv, rfl⟩ := h
    exact ⟨(k, v), hv, rfl, rfl⟩

theorem get?_eq_none_iff {m : OrderedMap κ ν} {k : κ} : m.get? k = none ↔ k ∉ m.keys := by
  rw [Option.eq_none_iff_forall_not_mem, mem_keys]
  simp only [Option.mem_def, get?_eq_some_iff, not_exists]

theorem containsKey_iff {m : OrderedMap κ ν} {k : κ} : m.containsKey k = true ↔ k ∈ m.keys := by
  rw [containsKey, Option.isSome_iff_exists, mem_keys]
  simp only [get?_eq_some_iff]

theorem getIndexOr_eq (m : OrderedMap κ ν) (i : ℕ) (k : κ) : m.getIndexOr i k = m.get? k := by
  unfold getIndexOr
  cases h : (m.getIndex i).filter fun e => e.1 = k with
  | none => rfl
  | some e =>
    obtain ⟨he, hk⟩ := Option.filter_eq_some_iff.mp h
    simp only [decide_eq_true_eq] at hk
    have hmem : (k, e.2) ∈ m.entries := by
      rw [← hk]
      exact List.mem_of_getElem? he
    exact (get?_eq_some_iff.mpr hmem).symm

theorem mem_of_mem_extend {m : OrderedMap κ ν} {es : List (κ × ν)} {e : κ × ν}
    (h : e ∈ (m.extend es).entries) : e ∈ m.entries ∨ e ∈ es := by
  induction es generalizing m with
  | nil => exact .inl h
  | cons x xs ih =>
    rcases ih h with h | h
    · rcases mem_insert.mp h with rfl | ⟨h, -⟩
      · exact .inr List.mem_cons_self
      · exact .inl h
    · exact .inr (List.mem_cons_of_mem _ h)

/-- Extension displaces the values under the new keys. -/
theorem mem_extend {m : OrderedMap κ ν} {es : List (κ × ν)} (hes : (es.map Prod.fst).Nodup)
    {e : κ × ν} : e ∈ (m.extend es).entries ↔
      e ∈ es ∨ e ∈ m.entries ∧ e.1 ∉ es.map Prod.fst := by
  induction es generalizing m with
  | nil => simp [extend]
  | cons x xs ih =>
    obtain ⟨hx, hxs⟩ := List.nodup_cons.mp hes
    have hstep := ih hxs (m := m.insert x.1 x.2)
    simp only [extend, List.foldl_cons] at hstep ⊢
    rw [hstep, mem_insert, List.map_cons, List.mem_cons, List.mem_cons]
    constructor
    · rintro (h | ⟨rfl | ⟨h, hne⟩, hnot⟩)
      · exact .inl (.inr h)
      · exact .inl (.inl rfl)
      · exact .inr ⟨h, fun hc => hc.elim hne hnot⟩
    · rintro ((rfl | h) | ⟨h, hnot⟩)
      · exact .inr ⟨.inl rfl, hx⟩
      · exact .inl h
      · exact .inr ⟨.inr ⟨h, fun hc => hnot (.inl hc)⟩, fun hc => hnot (.inr hc)⟩

theorem mem_keys_extend {m : OrderedMap κ ν} {es : List (κ × ν)} {k : κ} :
    k ∈ (m.extend es).keys ↔ k ∈ m.keys ∨ k ∈ es.map Prod.fst := by
  induction es generalizing m with
  | nil => simp [extend]
  | cons x xs ih =>
    have := ih (m := m.insert x.1 x.2)
    simp only [extend, List.foldl_cons] at this ⊢
    rw [this, mem_keys_insert, List.map_cons, List.mem_cons]
    tauto

/-- A list with distinct keys is kept. -/
theorem get?_ofList {es : List (κ × ν)} (h : (es.map Prod.fst).Nodup) {k : κ} {v : ν} :
    (ofList es).get? k = some v ↔ (k, v) ∈ es := by
  have hmem : ∀ {e}, e ∈ (ofList es).entries → e ∈ es := fun he =>
    (mem_of_mem_extend he).resolve_left (by simp)
  rw [get?_eq_some_iff]
  constructor
  · exact hmem
  · intro hv
    have hk : k ∈ (ofList es).keys := mem_keys_extend.mpr (.inr (List.mem_map_of_mem hv))
    obtain ⟨w, hw⟩ := mem_keys.mp hk
    obtain rfl : w = v := (Prod.mk.inj (List.inj_on_of_nodup_map h (hmem hw) hv rfl)).2
    exact hw

/-- The positions of a list by a key of its elements. -/
theorem get?_ofList_zipIdx {α : Type*} {f : α → Option κ} {xs : List α}
    (h : (xs.filterMap f).Nodup) {k : κ} {i : ℕ} :
    (ofList (xs.zipIdx.filterMap fun e => (f e.1).map fun k => (k, e.2))).get? k = some i ↔
      ∃ x, xs[i]? = some x ∧ f x = some k := by
  have hkeys : (xs.zipIdx.filterMap fun e => (f e.1).map fun k => (k, e.2)).map Prod.fst =
      xs.filterMap f := by
    conv_rhs => rw [← List.zipIdx_map_fst 0 xs, List.filterMap_map]
    rw [List.map_filterMap]
    simp [Function.comp_def]
  rw [get?_ofList (hkeys ▸ h), List.mem_filterMap]
  simp only [Option.map_eq_some_iff, Prod.mk.injEq, Prod.exists, List.mem_zipIdx_iff_getElem?]
  constructor
  · intro h
    obtain ⟨x, j, hx, k', hk', rfl, rfl⟩ := h
    exact ⟨x, hx, hk'⟩
  · intro h
    obtain ⟨x, hx, hk⟩ := h
    exact ⟨x, i, hx, k, hk, rfl, rfl⟩

end OrderedMap

/-- The order in which the entries of a hash map or hash set are visited. -/
structure VisitOrder where
  visit : {α : Type} → List α → List α
  perm : ∀ {α : Type} (entries : List α), (visit entries).Perm entries

end Mago.Library
