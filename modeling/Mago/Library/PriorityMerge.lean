import Mathlib
import Mago.Library.OrderedMap

/-!
# Merging maps by priority

Maps are merged one after the other; where a key is present already, one value is kept and takes
in what the other one allows. What is kept at a key is the value of the best rank, and what it
allows is what any of the values allows, so the order of the maps does not matter.
-/
namespace Mago.Library

namespace OrderedMap

variable {κ ν : Type*} [DecidableEq κ] (merge : ν → ν → ν)

/-- The entry at a vacant key is inserted, at an occupied one it is merged. -/
def upsert (m : OrderedMap κ ν) (e : κ × ν) : OrderedMap κ ν :=
  match m.get? e.1 with
  | some existing => m.insert e.1 (merge existing e.2)
  | none => m.insert e.1 e.2

def upsertAll (m other : OrderedMap κ ν) : OrderedMap κ ν :=
  other.entries.foldl (upsert merge) m

end OrderedMap

/-- What a key holds after one more value. -/
def mergeOption {ν : Type*} (merge : ν → ν → ν) : Option ν → Option ν → Option ν
  | none, new => new
  | some existing, none => some existing
  | some existing, some new => some (merge existing new)

namespace OrderedMap

variable {κ ν : Type*} [DecidableEq κ] {merge : ν → ν → ν}

theorem get?_upsert (m : OrderedMap κ ν) (e : κ × ν) (k : κ) :
    (m.upsert merge e).get? k =
      if k = e.1 then mergeOption merge (m.get? k) (some e.2) else m.get? k := by
  unfold upsert
  split
  case h_1 existing hget =>
    rw [get?_insert]
    split_ifs with hk
    · rw [hk, hget]
      rfl
    · rfl
  case h_2 hget =>
    rw [get?_insert]
    split_ifs with hk
    · rw [hk, hget]
      rfl
    · rfl

theorem get?_foldl_upsert (es : List (κ × ν)) (hes : (es.map Prod.fst).Nodup)
    (m : OrderedMap κ ν) (k : κ) :
    (es.foldl (upsert merge) m).get? k = mergeOption merge (m.get? k) (es.lookup k) := by
  induction es generalizing m with
  | nil =>
    show m.get? k = mergeOption merge (m.get? k) none
    cases m.get? k <;> rfl
  | cons e es ih =>
    obtain ⟨hnotMem, hnodup⟩ := List.nodup_cons.mp hes
    rw [List.foldl_cons, ih hnodup, get?_upsert]
    by_cases hk : k = e.1
    · have hnone : es.lookup k = none := by
        rw [List.lookup_eq_none_iff]
        intro p hp
        have hne : k ≠ p.1 := fun heq => hnotMem (hk ▸ heq ▸ List.mem_map_of_mem hp)
        simpa using hne
      rw [if_pos hk, hnone, List.lookup_cons, show (k == e.1) = true by simpa using hk]
      cases m.get? k <;> rfl
    · rw [if_neg hk, List.lookup_cons, show (k == e.1) = false by simpa using hk]

theorem get?_upsertAll (m other : OrderedMap κ ν) (k : κ) :
    (m.upsertAll merge other).get? k = mergeOption merge (m.get? k) (other.get? k) :=
  get?_foldl_upsert other.entries other.nodup m k

/-- The value at a key after a fold of maps is a fold of the values at the key. -/
theorem get?_foldl_upsertAll (others : List (OrderedMap κ ν)) (m : OrderedMap κ ν) (k : κ) :
    (others.foldl (upsertAll merge) m).get? k =
      (others.map fun other => other.get? k).foldl (mergeOption merge) (m.get? k) := by
  induction others generalizing m with
  | nil => rfl
  | cons other others ih => rw [List.foldl_cons, ih, get?_upsertAll, List.map_cons, List.foldl_cons]

end OrderedMap

/-- How values of a key are merged: the one of the smaller rank is kept, the first one of two
equal ranks, and it takes in what the other one allows. -/
structure PriorityMerge (ν γ ρ β : Type*) [LinearOrder ρ] where
  core : ν → γ
  rank : γ → ρ
  allows : ν → Set β
  absorb : ν → ν → ν
  core_absorb : ∀ kept dropped, core (absorb kept dropped) = core kept
  allows_absorb : ∀ kept dropped, allows (absorb kept dropped) = allows kept ∪ allows dropped

namespace PriorityMerge

variable {ν γ ρ β : Type*} [LinearOrder ρ] (M : PriorityMerge ν γ ρ β)

def Beats (new existing : ν) : Prop := M.rank (M.core new) < M.rank (M.core existing)

instance (new existing : ν) : Decidable (M.Beats new existing) :=
  inferInstanceAs (Decidable (_ < _))

def merge (existing new : ν) : ν :=
  if M.Beats new existing then M.absorb new existing else M.absorb existing new

/-- The value wins over the value that is there and over the values that come. -/
def Wins (base : Option ν) (values : List ν) (winner : ν) : Prop :=
  (base = some winner ∨ winner ∈ values ∧ ∀ b, base = some b → M.Beats winner b) ∧
    ∀ v ∈ values, ¬ M.Beats v winner

/-- What any of the values allows. -/
def Allowed (base : Option ν) (values : List ν) : Set β :=
  {x | (∃ b, base = some b ∧ x ∈ M.allows b) ∨ ∃ v ∈ values, x ∈ M.allows v}

variable {M}

theorem allows_merge (existing new : ν) :
    M.allows (M.merge existing new) = M.allows existing ∪ M.allows new := by
  unfold merge
  split_ifs
  · rw [M.allows_absorb, Set.union_comm]
  · exact M.allows_absorb _ _

theorem core_merge (existing new : ν) :
    M.core (M.merge existing new) = if M.Beats new existing then M.core new else M.core existing := by
  unfold merge
  split_ifs <;> exact M.core_absorb _ _

/-- A merge is won by what wins over the merged values. -/
theorem wins_of_merge {b x : ν} {values : List ν} {winner : ν}
    (h : M.Wins (some (M.merge b x)) values winner) :
    ∃ d, M.Wins (some b) (x :: values) d ∧ M.core winner = M.core d := by
  obtain ⟨hwinner, hbest⟩ := h
  have hcore := M.core_merge b x
  by_cases hbeats : M.Beats x b
  · rw [if_pos hbeats] at hcore
    rcases hwinner with hbase | ⟨hmem, hover⟩
    · obtain rfl : M.merge b x = winner := Option.some.inj hbase
      refine ⟨x, ⟨.inr ⟨List.mem_cons_self, ?_⟩, ?_⟩, hcore⟩
      · rintro _ ⟨rfl⟩
        exact hbeats
      · intro v hv
        rcases List.mem_cons.mp hv with rfl | hv
        · exact lt_irrefl _
        · have := hbest v hv
          rwa [Beats, hcore] at this
    · have hx : M.Beats winner x := by
        have := hover _ rfl
        rwa [Beats, hcore] at this
      refine ⟨winner, ⟨.inr ⟨List.mem_cons_of_mem _ hmem, ?_⟩, ?_⟩, rfl⟩
      · rintro _ ⟨rfl⟩
        exact lt_trans hx hbeats
      · intro v hv
        rcases List.mem_cons.mp hv with rfl | hv
        · exact lt_asymm hx
        · exact hbest v hv
  · rw [if_neg hbeats] at hcore
    rcases hwinner with hbase | ⟨hmem, hover⟩
    · obtain rfl : M.merge b x = winner := Option.some.inj hbase
      refine ⟨b, ⟨.inl rfl, ?_⟩, hcore⟩
      intro v hv
      rcases List.mem_cons.mp hv with rfl | hv
      · exact hbeats
      · have := hbest v hv
        rwa [Beats, hcore] at this
    · have hb : M.Beats winner b := by
        have := hover _ rfl
        rwa [Beats, hcore] at this
      refine ⟨winner, ⟨.inr ⟨List.mem_cons_of_mem _ hmem, ?_⟩, ?_⟩, rfl⟩
      · rintro _ ⟨rfl⟩
        exact hb
      · intro v hv
        rcases List.mem_cons.mp hv with rfl | hv
        · intro hv'
          exact hbeats (lt_trans hv' hb)
        · exact hbest v hv

/-- What a key holds after its values came. -/
theorem foldl_some (b : ν) (values : List ν) :
    ∃ r, (values.map some).foldl (mergeOption M.merge) (some b) = some r ∧
      (∃ d, M.Wins (some b) values d ∧ M.core r = M.core d) ∧
      M.allows r = M.Allowed (some b) values := by
  induction values generalizing b with
  | nil =>
    refine ⟨b, rfl, ⟨b, ⟨.inl rfl, by simp⟩, rfl⟩, ?_⟩
    ext x
    simp [Allowed]
  | cons v values ih =>
    obtain ⟨r, hr, ⟨d, hd, hcore⟩, hallows⟩ := ih (M.merge b v)
    obtain ⟨winner, hwins, hwinner⟩ := wins_of_merge hd
    refine ⟨r, hr, ⟨winner, hwins, hcore.trans hwinner⟩, ?_⟩
    rw [hallows]
    ext x
    simp [Allowed, allows_merge, or_assoc]

/-- The first value at a vacant key is there when the others come. -/
theorem wins_none_cons {v : ν} {values : List ν} {winner : ν}
    (h : M.Wins (some v) values winner) : M.Wins none (v :: values) winner := by
  obtain ⟨hwinner, hbest⟩ := h
  refine ⟨.inr ⟨?_, by simp⟩, ?_⟩
  · rcases hwinner with hbase | ⟨hmem, -⟩
    · obtain rfl : v = winner := Option.some.inj hbase
      exact List.mem_cons_self
    · exact List.mem_cons_of_mem _ hmem
  · intro u hu
    rcases List.mem_cons.mp hu with rfl | hu
    · rcases hwinner with hbase | ⟨-, hover⟩
      · obtain rfl : u = winner := Option.some.inj hbase
        exact lt_irrefl _
      · exact lt_asymm (hover u rfl)
    · exact hbest u hu

variable (M) in
/-- What a key holds: the winner, allowing what any of the values allows. -/
def Holds (base : Option ν) (values : List ν) : Option ν → Prop
  | none => base = none ∧ values = []
  | some held =>
    (∃ winner, M.Wins base values winner ∧ M.core held = M.core winner) ∧
      M.allows held = M.Allowed base values

theorem holds_foldl (base : Option ν) (values : List ν) :
    M.Holds base values ((values.map some).foldl (mergeOption M.merge) base) := by
  cases base with
  | some b =>
    obtain ⟨r, hr, hwins, hallows⟩ := M.foldl_some b values
    rw [hr]
    exact ⟨hwins, hallows⟩
  | none =>
    cases values with
    | nil => exact ⟨rfl, rfl⟩
    | cons v values =>
      obtain ⟨r, hr, ⟨d, hd, hcore⟩, hallows⟩ := M.foldl_some v values
      rw [List.map_cons, List.foldl_cons, mergeOption, hr]
      refine ⟨⟨d, wins_none_cons hd, hcore⟩, hallows.trans ?_⟩
      ext x
      simp [Allowed]

theorem foldl_mergeOption_filterMap (merge : ν → ν → ν) (os : List (Option ν)) (b : Option ν) :
    os.foldl (mergeOption merge) b =
      ((os.filterMap id).map some).foldl (mergeOption merge) b := by
  induction os generalizing b with
  | nil => rfl
  | cons o os ih =>
    cases o with
    | none =>
      rw [List.foldl_cons, ih]
      cases b <;> rfl
    | some v => exact ih _

/-- What a key holds after maps were merged. -/
theorem holds_get? {κ : Type*} [DecidableEq κ] (m : OrderedMap κ ν)
    (others : List (OrderedMap κ ν)) (k : κ) :
    M.Holds (m.get? k) (others.filterMap fun other => other.get? k)
      ((others.foldl (OrderedMap.upsertAll M.merge) m).get? k) := by
  rw [OrderedMap.get?_foldl_upsertAll, foldl_mergeOption_filterMap, List.filterMap_map]
  exact M.holds_foldl _ _

theorem Holds.perm {base : Option ν} {values values' : List ν} {held : Option ν}
    (h : M.Holds base values held) (hperm : values.Perm values') : M.Holds base values' held := by
  cases held with
  | none => exact ⟨h.1, (h.2 ▸ hperm).symm.eq_nil⟩
  | some held =>
    obtain ⟨⟨d, hd, hcore⟩, hallows⟩ := h
    refine ⟨⟨d, ?_, hcore⟩, ?_⟩
    · simpa only [Wins, hperm.mem_iff] using hd
    · simpa only [Allowed, hperm.mem_iff] using hallows

variable (M) in
/-- No two values rank the same. -/
def Ranked (values : List ν) : Prop :=
  values.Pairwise fun v w => M.rank (M.core v) ≠ M.rank (M.core w)

theorem Wins.unique {base : Option ν} {values : List ν} (hranked : M.Ranked values) {d e : ν}
    (hd : M.Wins base values d) (he : M.Wins base values e) : d = e := by
  obtain ⟨hd, hdbest⟩ := hd
  obtain ⟨he, hebest⟩ := he
  rcases hd with hd | ⟨hd, hdover⟩
  · rcases he with he | ⟨he, heover⟩
    · exact Option.some.inj (hd.symm.trans he)
    · exact absurd (heover d hd) (hdbest e he)
  · rcases he with he | ⟨he, heover⟩
    · exact absurd (hdover e he) (hebest d hd)
    · by_contra hne
      have : Std.Symm fun v w => M.rank (M.core v) ≠ M.rank (M.core w) := ⟨fun _ _ h => h.symm⟩
      have hrank := List.Pairwise.forall hranked hd he hne
      rcases lt_or_gt_of_ne hrank with hlt | hlt
      · exact hebest d hd hlt
      · exact hdbest e he hlt

theorem Holds.unique {base : Option ν} {values : List ν} (hranked : M.Ranked values)
    {x y : Option ν} (hx : M.Holds base values x) (hy : M.Holds base values y) :
    Option.Rel (fun v w => M.core v = M.core w ∧ M.allows v = M.allows w) x y := by
  cases x with
  | none =>
    cases y with
    | none => exact .none
    | some y =>
      obtain ⟨rfl, rfl⟩ := hx
      obtain ⟨⟨d, hd, -⟩, -⟩ := hy
      simp [Wins] at hd
  | some x =>
    cases y with
    | none =>
      obtain ⟨rfl, rfl⟩ := hy
      obtain ⟨⟨d, hd, -⟩, -⟩ := hx
      simp [Wins] at hd
    | some y =>
      obtain ⟨⟨d, hd, hdx⟩, hallowsx⟩ := hx
      obtain ⟨⟨e, he, hey⟩, hallowsy⟩ := hy
      obtain rfl := hd.unique hranked he
      exact .some ⟨hdx.trans hey.symm, hallowsx.trans hallowsy.symm⟩

end PriorityMerge

end Mago.Library
