import Mago.Library.FiniteMap

/-!
# Body and signature edges

Maps of sets to which edges are added one by one or map by map. In a pair of such maps a
signature edge drives out the body edge between the same ends, whichever comes first. What a
pair holds is decided by the edges that were added: every signature edge, and the body edges
that are no signature edges.
-/
namespace Mago.Incremental
open Mago.Library

variable {κ ν : Type*} [DecidableEq κ] [DecidableEq ν]

abbrev EdgeMap (κ ν : Type*) := FiniteMap κ (Finset ν)

def insertReference (references : EdgeMap κ ν) (origin : κ) (target : ν) : EdgeMap κ ν :=
  references.insertAt origin target

/-- Two shortcuts for empty maps, then key by key. -/
def extendReferenceMap (target source : EdgeMap κ ν) : EdgeMap κ ν :=
  if source.isEmpty then target
  else if target.isEmpty then source
  else target.mergeWith (fun _ existing references =>
    match existing with
    | some existing => some (existing ∪ references)
    | none => some references) source

structure Dependencies (κ ν : Type*) where
  body : EdgeMap κ ν
  signature : EdgeMap κ ν

/-- A set without some of its members, no set when it gets empty. -/
def withoutTargets (existing : Option (Finset ν)) (targets : Finset ν) : Option (Finset ν) :=
  match existing with
  | none => none
  | some existing => if existing \ targets = ∅ then none else some (existing \ targets)

def insertDependency (maps : Dependencies κ ν) (origin : κ) (target : ν) (inSignature : Bool) :
    Dependencies κ ν :=
  if inSignature then
    { signature := insertReference maps.signature origin target
      body := maps.body.alter origin fun targets => withoutTargets targets {target} }
  else if (maps.signature.get? origin).all fun targets => decide (target ∉ targets) then
    { maps with body := insertReference maps.body origin target }
  else maps

def extendDependencies (maps incoming : Dependencies κ ν) : Dependencies κ ν :=
  let body := maps.body.mergeWith (fun _ existing targets => withoutTargets existing targets)
    incoming.signature
  let signature := extendReferenceMap maps.signature incoming.signature
  let incomingBody := incoming.body.filterMap fun origin targets =>
    match signature.get? origin with
    | some dominating => withoutTargets (some targets) dominating
    | none => if targets = ∅ then none else some targets
  { body := extendReferenceMap body incomingBody
    signature := signature }

/-! ## What the maps hold -/

/-- A map without empty sets that holds a set of edges. -/
structure Holds (references : EdgeMap κ ν) (edges : Set (κ × ν)) : Prop where
  noEmptySet : references.NoEmptySet
  mem_setAt : ∀ k v, v ∈ references.setAt k ↔ (k, v) ∈ edges

omit [DecidableEq κ] [DecidableEq ν] in
theorem holds_empty : Holds (FiniteMap.empty : EdgeMap κ ν) ∅ :=
  ⟨FiniteMap.noEmptySet_empty, by simp⟩

omit [DecidableEq κ] in
/-- The edges determine the map. -/
theorem Holds.unique {references references' : EdgeMap κ ν} {edges : Set (κ × ν)}
    (h : Holds references edges) (h' : Holds references' edges) : references = references' := by
  apply FiniteMap.ext_setAt h.noEmptySet h'.noEmptySet
  intro k
  ext v
  rw [h.mem_setAt, h'.mem_setAt]

theorem Holds.insertReference {references : EdgeMap κ ν} {edges : Set (κ × ν)}
    (h : Holds references edges) (origin : κ) (target : ν) :
    Holds (insertReference references origin target) (insert (origin, target) edges) := by
  refine ⟨h.noEmptySet.insertAt origin target, fun k v => ?_⟩
  rw [Incremental.insertReference, FiniteMap.setAt_insertAt, Set.mem_insert_iff, ← h.mem_setAt,
    Prod.mk.injEq]
  by_cases hk : k = origin
  · subst hk
    simp
  · simp [hk]

omit [DecidableEq κ] [DecidableEq ν] in
theorem setAt_of_isEmpty {references : EdgeMap κ ν} (h : references.isEmpty = true) (k : κ) :
    references.setAt k = ∅ := by
  rw [FiniteMap.setAt, FiniteMap.isEmpty_iff.mp h k]
  rfl

theorem setAt_extendReferenceMap (target source : EdgeMap κ ν) (k : κ) :
    (extendReferenceMap target source).setAt k = target.setAt k ∪ source.setAt k := by
  unfold extendReferenceMap
  by_cases hsource : source.isEmpty = true
  · rw [if_pos hsource, setAt_of_isEmpty hsource, Finset.union_empty]
  · rw [if_neg hsource]
    by_cases htarget : target.isEmpty = true
    · rw [if_pos htarget, setAt_of_isEmpty htarget, Finset.empty_union]
    · rw [if_neg htarget]
      unfold FiniteMap.setAt
      rw [FiniteMap.get?_mergeWith]
      cases source.get? k <;> cases target.get? k <;> simp

theorem noEmptySet_extendReferenceMap {target source : EdgeMap κ ν} (h : target.NoEmptySet)
    (h' : source.NoEmptySet) : (extendReferenceMap target source).NoEmptySet := by
  unfold extendReferenceMap
  by_cases hsource : source.isEmpty = true
  · rwa [if_pos hsource]
  · rw [if_neg hsource]
    by_cases htarget : target.isEmpty = true
    · rwa [if_pos htarget]
    · rw [if_neg htarget]
      intro k hk
      rw [FiniteMap.get?_mergeWith] at hk
      cases hs : source.get? k with
      | none =>
        rw [hs] at hk
        exact h k hk
      | some references =>
        have hne : references ≠ ∅ := fun hempty => h' k (hempty ▸ hs)
        rw [hs] at hk
        cases ht : target.get? k with
        | none =>
          rw [ht] at hk
          exact hne (Option.some.inj hk)
        | some existing =>
          rw [ht] at hk
          exact hne (Finset.union_eq_empty.mp (Option.some.inj hk)).2

theorem Holds.extendReferenceMap {target source : EdgeMap κ ν} {edges edges' : Set (κ × ν)}
    (h : Holds target edges) (h' : Holds source edges') :
    Holds (extendReferenceMap target source) (edges ∪ edges') := by
  refine ⟨noEmptySet_extendReferenceMap h.noEmptySet h'.noEmptySet, fun k v => ?_⟩
  rw [setAt_extendReferenceMap, Finset.mem_union, h.mem_setAt, h'.mem_setAt]
  rfl

/-! ## Signatures dominate bodies -/

/-- A pair holds the signature edges and the body edges that are no signature edges. -/
structure Dependencies.HoldsBoth (maps : Dependencies κ ν) (body signature : Set (κ × ν)) :
    Prop where
  body : Holds maps.body (body \ signature)
  signature : Holds maps.signature signature

omit [DecidableEq κ] in
theorem getD_withoutTargets (existing : Option (Finset ν)) (targets : Finset ν) :
    (withoutTargets existing targets).getD ∅ = existing.getD ∅ \ targets := by
  cases existing with
  | none => simp [withoutTargets]
  | some existing =>
    by_cases hempty : existing \ targets = ∅
    · simp [withoutTargets, hempty]
    · simp [withoutTargets, hempty]

omit [DecidableEq κ] in
theorem withoutTargets_ne (existing : Option (Finset ν)) (targets : Finset ν) :
    withoutTargets existing targets ≠ some ∅ := by
  cases existing with
  | none => simp [withoutTargets]
  | some existing =>
    by_cases hempty : existing \ targets = ∅
    · simp [withoutTargets, hempty]
    · simp [withoutTargets, hempty]

theorem Dependencies.HoldsBoth.insertSignature {maps : Dependencies κ ν}
    {body signature : Set (κ × ν)} (h : maps.HoldsBoth body signature) (origin : κ) (target : ν) :
    (insertDependency maps origin target true).HoldsBoth body
      (insert (origin, target) signature) := by
  have hget (k : κ) : (insertDependency maps origin target true).body.get? k =
      if k = origin then withoutTargets (maps.body.get? origin) {target}
      else maps.body.get? k := rfl
  refine ⟨⟨?_, ?_⟩, h.signature.insertReference origin target⟩
  · intro k hk
    rw [hget] at hk
    by_cases hkey : k = origin
    · rw [if_pos hkey] at hk
      exact withoutTargets_ne _ _ hk
    · rw [if_neg hkey] at hk
      exact h.body.noEmptySet k hk
  · intro k v
    have hbody : v ∈ maps.body.setAt k ↔ (k, v) ∈ body \ signature := h.body.mem_setAt k v
    rw [FiniteMap.setAt, hget, Set.mem_sdiff, Set.mem_insert_iff, Prod.mk.injEq]
    by_cases hkey : k = origin
    · subst hkey
      rw [if_pos rfl, getD_withoutTargets, Finset.mem_sdiff, Finset.mem_singleton,
        ← FiniteMap.setAt, hbody, Set.mem_sdiff]
      tauto
    · rw [if_neg hkey, ← FiniteMap.setAt, hbody, Set.mem_sdiff]
      tauto

theorem Dependencies.HoldsBoth.insertBody {maps : Dependencies κ ν}
    {body signature : Set (κ × ν)} (h : maps.HoldsBoth body signature) (origin : κ) (target : ν) :
    (insertDependency maps origin target false).HoldsBoth (insert (origin, target) body)
      signature := by
  have hdominated : ((maps.signature.get? origin).all fun targets => decide (target ∉ targets)) =
      true ↔ (origin, target) ∉ signature := by
    rw [← h.signature.mem_setAt, FiniteMap.setAt]
    cases maps.signature.get? origin with
    | none => simp
    | some targets => simp
  unfold insertDependency
  rw [if_neg Bool.false_ne_true]
  by_cases hnew : (origin, target) ∈ signature
  · rw [if_neg (mt hdominated.mp (not_not.mpr hnew))]
    have hsame : insert (origin, target) body \ signature = body \ signature :=
      Set.insert_sdiff_of_mem body hnew
    exact ⟨hsame ▸ h.body, h.signature⟩
  · rw [if_pos (hdominated.mpr hnew)]
    have hmore : insert (origin, target) body \ signature =
        insert (origin, target) (body \ signature) := Set.insert_sdiff_of_notMem body hnew
    exact ⟨hmore ▸ h.body.insertReference origin target, h.signature⟩

/-- The own body edges without those that the incoming signature edges drive out. -/
theorem Holds.withoutSignature {references incoming : EdgeMap κ ν}
    {body signature signature' : Set (κ × ν)} (h : Holds references (body \ signature))
    (h' : Holds incoming signature') :
    Holds (references.mergeWith (fun _ existing targets => withoutTargets existing targets)
      incoming) (body \ (signature ∪ signature')) := by
  constructor
  · intro k hk
    rw [FiniteMap.get?_mergeWith] at hk
    cases hs : incoming.get? k with
    | none =>
      rw [hs] at hk
      exact h.noEmptySet k hk
    | some targets =>
      rw [hs] at hk
      exact withoutTargets_ne _ _ hk
  · intro k v
    have hin := h'.mem_setAt k v
    have hbody := h.mem_setAt k v
    rw [Set.mem_sdiff] at hbody
    rw [FiniteMap.setAt] at hin ⊢
    rw [FiniteMap.get?_mergeWith, Set.mem_sdiff, Set.mem_union]
    cases hs : incoming.get? k with
    | none =>
      rw [hs] at hin
      have hnot : (k, v) ∉ signature' := fun hmem => Finset.notMem_empty v (hin.mpr hmem)
      rw [← FiniteMap.setAt, hbody]
      tauto
    | some targets =>
      rw [hs, Option.getD_some] at hin
      simp only []
      rw [getD_withoutTargets, Finset.mem_sdiff, ← FiniteMap.setAt, hbody, hin]
      tauto

omit [DecidableEq κ] in
/-- The incoming body edges that no signature edge drives out. -/
theorem Holds.undominated {references dominating : EdgeMap κ ν}
    {body signature signature' : Set (κ × ν)} (h : Holds references (body \ signature'))
    (h' : Holds dominating (signature ∪ signature')) :
    Holds (references.filterMap fun origin targets =>
      match dominating.get? origin with
      | some dominated => withoutTargets (some targets) dominated
      | none => if targets = ∅ then none else some targets)
      (body \ (signature ∪ signature')) := by
  constructor
  · intro k hk
    rw [FiniteMap.get?_filterMap] at hk
    obtain ⟨targets, -, htargets⟩ := Option.bind_eq_some_iff.mp hk
    cases hs : dominating.get? k with
    | none =>
      rw [hs] at htargets
      by_cases hempty : targets = ∅
      · simp [hempty] at htargets
      · simp [hempty] at htargets
    | some dominated =>
      rw [hs] at htargets
      exact withoutTargets_ne _ _ htargets
  · intro k v
    have hdominated := h'.mem_setAt k v
    have hbody := h.mem_setAt k v
    rw [Set.mem_sdiff] at hbody
    rw [FiniteMap.setAt] at hdominated hbody ⊢
    rw [FiniteMap.get?_filterMap, Set.mem_sdiff]
    rw [Set.mem_union] at hdominated ⊢
    cases hb : references.get? k with
    | none =>
      rw [hb] at hbody
      simp only [Option.bind_none, Option.getD_none, Finset.notMem_empty, false_iff] at hbody ⊢
      tauto
    | some targets =>
      rw [hb, Option.getD_some] at hbody
      rw [Option.bind_some]
      cases hs : dominating.get? k with
      | none =>
        have hgetD : (if targets = ∅ then none else some targets).getD ∅ = targets := by
          by_cases hempty : targets = ∅
          · simp [hempty]
          · simp [hempty]
        rw [hs] at hdominated
        simp only [Option.getD_none, Finset.notMem_empty, false_iff] at hdominated
        simp only []
        rw [hgetD, hbody]
        tauto
      | some dominated =>
        rw [hs, Option.getD_some] at hdominated
        simp only []
        rw [getD_withoutTargets, Option.getD_some, Finset.mem_sdiff, hbody, hdominated]
        tauto

theorem Dependencies.HoldsBoth.extend {maps incoming : Dependencies κ ν}
    {body signature body' signature' : Set (κ × ν)} (h : maps.HoldsBoth body signature)
    (h' : incoming.HoldsBoth body' signature') :
    (extendDependencies maps incoming).HoldsBoth (body ∪ body') (signature ∪ signature') := by
  have hsignature := h.signature.extendReferenceMap h'.signature
  have hboth := (h.body.withoutSignature h'.signature).extendReferenceMap
    (h'.body.undominated hsignature)
  rw [← Set.union_sdiff_distrib] at hboth
  exact ⟨hboth, hsignature⟩

end Mago.Incremental
