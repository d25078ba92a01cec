import Mago.Codebase.ClassLikes

/-!
# Descendants of class-likes

The maps from a class-like to those below it, computed from the whole table or brought up to
date after a change of the table. Both stand for the relation that the metadata of the child
states, and neither has an empty set, so they are equal.
-/
namespace Mago.Codebase.Populator
open Mago.Library Mago.Algebra

abbrev ClassLikes := OrderedMap Word ClassLikeMetadata

namespace ClassLikeMetadata

/-- The class-likes that have a class-like as a direct descendant. -/
def directParents (metadata : ClassLikeMetadata) : List Word :=
  metadata.directParentInterfaces ++ metadata.directParentClass.toList

/-- The class-likes that have a class-like among all their descendants. -/
def allParents (metadata : ClassLikeMetadata) : List Word :=
  metadata.allParentInterfaces ++ metadata.allParentClasses ++ metadata.usedTraits

/-- The same parents, interfaces, traits and ancestors. -/
structure SameParents (metadata metadata' : ClassLikeMetadata) : Prop where
  directParentClass : metadata.directParentClass = metadata'.directParentClass
  directParentInterfaces : ∀ p, p ∈ metadata.directParentInterfaces ↔
    p ∈ metadata'.directParentInterfaces
  allParentClasses : ∀ p, p ∈ metadata.allParentClasses ↔ p ∈ metadata'.allParentClasses
  allParentInterfaces : ∀ p, p ∈ metadata.allParentInterfaces ↔ p ∈ metadata'.allParentInterfaces
  usedTraits : ∀ p, p ∈ metadata.usedTraits ↔ p ∈ metadata'.usedTraits

theorem SameParents.mem_directParents {metadata metadata' : ClassLikeMetadata}
    (h : metadata.SameParents metadata') (p : Word) :
    p ∈ metadata.directParents ↔ p ∈ metadata'.directParents := by
  simp only [directParents, List.mem_append, h.directParentInterfaces, h.directParentClass]

theorem SameParents.mem_allParents {metadata metadata' : ClassLikeMetadata}
    (h : metadata.SameParents metadata') (p : Word) :
    p ∈ metadata.allParents ↔ p ∈ metadata'.allParents := by
  simp only [allParents, List.mem_append, h.allParentInterfaces, h.allParentClasses, h.usedTraits]

end ClassLikeMetadata

/-! ## The whole table -/

/-- The edges from parents to one child. -/
def edgesTo (child : Word) (parents : List Word) : List (Word × Word) :=
  parents.map fun parent => (parent, child)

theorem mem_edgesTo {child parent name : Word} {parents : List Word} :
    (parent, name) ∈ edgesTo child parents ↔ parent ∈ parents ∧ name = child := by
  simp only [edgesTo, List.mem_map, Prod.mk.injEq]
  constructor
  · intro h
    obtain ⟨p, hp, rfl, rfl⟩ := h
    exact ⟨hp, rfl⟩
  · intro h
    exact ⟨parent, h.1, rfl, h.2.symm⟩

structure Built where
  direct : Descendants
  all : Descendants

/-- The edges of one class-like. -/
def Built.add (built : Built) (entry : Word × ClassLikeMetadata) : Built :=
  let all := built.all.insertAll (edgesTo entry.1 entry.2.allParentInterfaces)
  let direct := built.direct.insertAll (edgesTo entry.1 entry.2.directParentInterfaces)
  let all := all.insertAll (edgesTo entry.1 entry.2.allParentClasses)
  let all := all.insertAll (edgesTo entry.1 entry.2.usedTraits)
  let direct := direct.insertAll (edgesTo entry.1 entry.2.directParentClass.toList)
  ⟨direct, all⟩

/-- The descendants of the whole table, and the table with the children that were found. -/
def buildDescendants (classLikes : ClassLikes) : Built × ClassLikes :=
  let built := classLikes.entries.foldl Built.add ⟨FiniteMap.empty, FiniteMap.empty⟩
  (built, classLikes.mapValues fun name metadata =>
    match built.direct.get? name with
    | some children => { metadata with childClassLikes := some children }
    | none => metadata)

/-- The table as it is before descendants are computed. -/
def fresh (classLikes : ClassLikes) : ClassLikes :=
  classLikes.mapValues fun _ metadata => { metadata with childClassLikes := none }

theorem mem_direct_add {built : Built} {entry : Word × ClassLikeMetadata} {parent name : Word} :
    name ∈ (built.add entry).direct.setAt parent ↔
      name ∈ built.direct.setAt parent ∨ name = entry.1 ∧ parent ∈ entry.2.directParents := by
  simp only [Built.add, FiniteMap.mem_setAt_insertAll, mem_edgesTo,
    ClassLikeMetadata.directParents, List.mem_append]
  tauto

theorem mem_all_add {built : Built} {entry : Word × ClassLikeMetadata} {parent name : Word} :
    name ∈ (built.add entry).all.setAt parent ↔
      name ∈ built.all.setAt parent ∨ name = entry.1 ∧ parent ∈ entry.2.allParents := by
  simp only [Built.add, FiniteMap.mem_setAt_insertAll, mem_edgesTo,
    ClassLikeMetadata.allParents, List.mem_append]
  tauto

theorem mem_foldl_add (field : Built → Descendants) {parents : ClassLikeMetadata → List Word}
    (hadd : ∀ built entry parent name, name ∈ (field (built.add entry)).setAt parent ↔
      name ∈ (field built).setAt parent ∨ name = entry.1 ∧ parent ∈ parents entry.2)
    {entries : List (Word × ClassLikeMetadata)} {built : Built} {parent name : Word} :
    name ∈ (field (entries.foldl Built.add built)).setAt parent ↔
      name ∈ (field built).setAt parent ∨
        ∃ metadata, (name, metadata) ∈ entries ∧ parent ∈ parents metadata := by
  induction entries generalizing built with
  | nil => simp
  | cons entry entries ih =>
    obtain ⟨name', metadata'⟩ := entry
    rw [List.foldl_cons, ih, hadd]
    simp only [List.mem_cons, Prod.mk.injEq, or_and_right, exists_or, or_assoc]
    have hfirst : (∃ metadata, (name = name' ∧ metadata = metadata') ∧ parent ∈ parents metadata) ↔
        name = name' ∧ parent ∈ parents metadata' := by
      constructor
      · intro h
        obtain ⟨metadata, ⟨hname, rfl⟩, hparent⟩ := h
        exact ⟨hname, hparent⟩
      · intro h
        exact ⟨metadata', ⟨h.1, rfl⟩, h.2⟩
    rw [hfirst]

theorem mem_buildDescendants (field : Built → Descendants)
    {parents : ClassLikeMetadata → List Word}
    (hempty : field ⟨FiniteMap.empty, FiniteMap.empty⟩ = FiniteMap.empty)
    (hadd : ∀ built entry parent name, name ∈ (field (built.add entry)).setAt parent ↔
      name ∈ (field built).setAt parent ∨ name = entry.1 ∧ parent ∈ parents entry.2)
    {classLikes : ClassLikes} {parent name : Word} :
    name ∈ (field (buildDescendants classLikes).1).setAt parent ↔
      ∃ metadata, classLikes.get? name = some metadata ∧ parent ∈ parents metadata := by
  rw [buildDescendants, mem_foldl_add field hadd, hempty]
  simp [OrderedMap.get?_eq_some_iff]

theorem mem_direct_buildDescendants {classLikes : ClassLikes} {parent name : Word} :
    name ∈ (buildDescendants classLikes).1.direct.setAt parent ↔
      ∃ metadata, classLikes.get? name = some metadata ∧ parent ∈ metadata.directParents :=
  mem_buildDescendants Built.direct rfl fun _ _ _ _ => mem_direct_add

theorem mem_all_buildDescendants {classLikes : ClassLikes} {parent name : Word} :
    name ∈ (buildDescendants classLikes).1.all.setAt parent ↔
      ∃ metadata, classLikes.get? name = some metadata ∧ parent ∈ metadata.allParents :=
  mem_buildDescendants Built.all rfl fun _ _ _ _ => mem_all_add

/-- Neither map has an empty set. -/
structure Built.NoEmptySets (built : Built) : Prop where
  direct : built.direct.NoEmptySet
  all : built.all.NoEmptySet

theorem Built.NoEmptySets.add {built : Built} (h : built.NoEmptySets)
    (entry : Word × ClassLikeMetadata) : (built.add entry).NoEmptySets :=
  ⟨(h.direct.insertAll _).insertAll _, ((h.all.insertAll _).insertAll _).insertAll _⟩

theorem noEmptySets_buildDescendants (classLikes : ClassLikes) :
    (buildDescendants classLikes).1.NoEmptySets := by
  have hfoldl : ∀ (entries : List (Word × ClassLikeMetadata)) (built : Built),
      built.NoEmptySets → (entries.foldl Built.add built).NoEmptySets := by
    intro entries
    induction entries with
    | nil => exact fun built h => h
    | cons entry entries ih => exact fun built h => ih _ (h.add entry)
  exact hfoldl _ _ ⟨FiniteMap.noEmptySet_empty, FiniteMap.noEmptySet_empty⟩

/-! ## The update -/

/-- The maps, and the parents whose children are looked up again. -/
structure Refresh where
  direct : Descendants
  all : Descendants
  parentsToRefresh : Finset Word

section Update

variable (codebase : CodebaseMetadata) (repopulated : List Word)

/-- Whether an edge to a child stays: the child exists, and when it is populated again it still
names the parent. -/
def keepsEdge (parents : ClassLikeMetadata → List Word) (parent child : Word) : Bool :=
  (codebase.classLikes.get? child).any fun metadata =>
    !repopulated.contains child || (parents metadata).contains parent

/-- The maps without the edges that are gone. -/
def retained : Refresh where
  direct := codebase.directClasslikeDescendants.retain
    (keepsEdge codebase repopulated ClassLikeMetadata.directParents)
  all := codebase.allClassLikeDescendants.retain
    (keepsEdge codebase repopulated ClassLikeMetadata.allParents)
  parentsToRefresh := repopulated.toFinset ∪
    codebase.directClasslikeDescendants.keys.filter fun parent =>
      ((codebase.directClasslikeDescendants.setAt parent).filter fun child =>
        keepsEdge codebase repopulated ClassLikeMetadata.directParents parent child = true).card ≠
      (codebase.directClasslikeDescendants.setAt parent).card

/-- The edges to a class-like that was populated again. -/
def Refresh.add (classLikes : ClassLikes) (state : Refresh) (name : Word) : Refresh :=
  match classLikes.get? name with
  | none => state
  | some metadata =>
    { direct := state.direct.insertAll (edgesTo name metadata.directParents)
      all := state.all.insertAll (edgesTo name metadata.allParents)
      parentsToRefresh := state.parentsToRefresh ∪ metadata.directParents.toFinset }

/-- The descendants brought up to date after some class-likes were populated again. -/
def update : CodebaseMetadata :=
  let state := repopulated.foldl (Refresh.add codebase.classLikes) (retained codebase repopulated)
  { codebase with
    directClasslikeDescendants := state.direct
    allClassLikeDescendants := state.all
    classLikes := codebase.classLikes.mapValues fun name metadata =>
      if name ∈ state.parentsToRefresh then
        { metadata with childClassLikes := state.direct.get? name }
      else metadata }

variable {codebase repopulated}

theorem mem_direct_refresh {classLikes : ClassLikes} {state : Refresh} {name parent child : Word} :
    child ∈ (state.add classLikes name).direct.setAt parent ↔
      child ∈ state.direct.setAt parent ∨ child = name ∧
        ∃ metadata, classLikes.get? child = some metadata ∧ parent ∈ metadata.directParents := by
  unfold Refresh.add
  cases hname : classLikes.get? name with
  | none =>
    have hno : ¬ (child = name ∧
        ∃ metadata, classLikes.get? child = some metadata ∧ parent ∈ metadata.directParents) := by
      rintro ⟨rfl, metadata, hmetadata, -⟩
      exact Option.some_ne_none metadata (hmetadata.symm.trans hname)
    simp only [hno, or_false]
  | some metadata =>
    rw [FiniteMap.mem_setAt_insertAll, mem_edgesTo, and_comm]
    refine or_congr_right (and_congr_right fun hchild => ?_)
    rw [hchild, hname]
    simp

theorem mem_all_refresh {classLikes : ClassLikes} {state : Refresh} {name parent child : Word} :
    child ∈ (state.add classLikes name).all.setAt parent ↔
      child ∈ state.all.setAt parent ∨ child = name ∧
        ∃ metadata, classLikes.get? child = some metadata ∧ parent ∈ metadata.allParents := by
  unfold Refresh.add
  cases hname : classLikes.get? name with
  | none =>
    have hno : ¬ (child = name ∧
        ∃ metadata, classLikes.get? child = some metadata ∧ parent ∈ metadata.allParents) := by
      rintro ⟨rfl, metadata, hmetadata, -⟩
      exact Option.some_ne_none metadata (hmetadata.symm.trans hname)
    simp only [hno, or_false]
  | some metadata =>
    rw [FiniteMap.mem_setAt_insertAll, mem_edgesTo, and_comm]
    refine or_congr_right (and_congr_right fun hchild => ?_)
    rw [hchild, hname]
    simp

theorem mem_foldl_refresh (field : Refresh → Descendants)
    {parents : ClassLikeMetadata → List Word} {classLikes : ClassLikes}
    (hadd : ∀ (state : Refresh) (name parent child : Word),
      child ∈ (field (state.add classLikes name)).setAt parent ↔
        child ∈ (field state).setAt parent ∨ child = name ∧
          ∃ metadata, classLikes.get? child = some metadata ∧ parent ∈ parents metadata)
    {names : List Word} {state : Refresh} {parent child : Word} :
    child ∈ (field (names.foldl (Refresh.add classLikes) state)).setAt parent ↔
      child ∈ (field state).setAt parent ∨ child ∈ names ∧
        ∃ metadata, classLikes.get? child = some metadata ∧ parent ∈ parents metadata := by
  induction names generalizing state with
  | nil => simp
  | cons name names ih =>
    rw [List.foldl_cons, ih, hadd, List.mem_cons, or_assoc, or_and_right]

theorem NoEmptySet.direct_refresh {classLikes : ClassLikes} {state : Refresh} {name : Word}
    (h : state.direct.NoEmptySet) : (state.add classLikes name).direct.NoEmptySet := by
  unfold Refresh.add
  cases classLikes.get? name with
  | none => exact h
  | some metadata => exact h.insertAll _

theorem NoEmptySet.all_refresh {classLikes : ClassLikes} {state : Refresh} {name : Word}
    (h : state.all.NoEmptySet) : (state.add classLikes name).all.NoEmptySet := by
  unfold Refresh.add
  cases classLikes.get? name with
  | none => exact h
  | some metadata => exact h.insertAll _

theorem noEmptySet_foldl_refresh (field : Refresh → Descendants) {classLikes : ClassLikes}
    (hadd : ∀ (state : Refresh) (name : Word), (field state).NoEmptySet →
      (field (state.add classLikes name)).NoEmptySet)
    (names : List Word) {state : Refresh} (h : (field state).NoEmptySet) :
    (field (names.foldl (Refresh.add classLikes) state)).NoEmptySet := by
  induction names generalizing state with
  | nil => exact h
  | cons name names ih => exact ih (hadd state name h)

theorem mem_parentsToRefresh_foldl {classLikes : ClassLikes} {names : List Word}
    {state : Refresh} {parent : Word} :
    parent ∈ (names.foldl (Refresh.add classLikes) state).parentsToRefresh ↔
      parent ∈ state.parentsToRefresh ∨ ∃ name ∈ names,
        ∃ metadata, classLikes.get? name = some metadata ∧ parent ∈ metadata.directParents := by
  induction names generalizing state with
  | nil => simp
  | cons name names ih =>
    have hadd : parent ∈ (state.add classLikes name).parentsToRefresh ↔
        parent ∈ state.parentsToRefresh ∨
          ∃ metadata, classLikes.get? name = some metadata ∧ parent ∈ metadata.directParents := by
      unfold Refresh.add
      cases classLikes.get? name with
      | none => simp
      | some metadata => simp
    rw [List.foldl_cons, ih, hadd, List.exists_mem_cons_iff, or_assoc]

end Update

/-! ## The update after a change of the table -/

/-- A class-like that is not populated again is an old one with the same parents and children. -/
structure Repopulates (old new : ClassLikes) (repopulated : List Word) : Prop where
  unchanged : ∀ name metadata, new.get? name = some metadata → name ∉ repopulated →
    ∃ metadata', old.get? name = some metadata' ∧ metadata.SameParents metadata' ∧
      metadata.childClassLikes = metadata'.childClassLikes

theorem get?_fresh (classLikes : ClassLikes) (name : Word) : (fresh classLikes).get? name =
    (classLikes.get? name).map fun metadata => { metadata with childClassLikes := none } :=
  OrderedMap.get?_mapValues ..

/-- In a table that was fresh the children are what the map of direct descendants holds. -/
theorem get?_buildDescendants_fresh (classLikes : ClassLikes) (name : Word) :
    (buildDescendants (fresh classLikes)).2.get? name =
      (classLikes.get? name).map fun metadata => { metadata with
        childClassLikes := (buildDescendants (fresh classLikes)).1.direct.get? name } := by
  have hmap : (buildDescendants (fresh classLikes)).2.get? name =
      ((fresh classLikes).get? name).map fun metadata =>
        match (buildDescendants (fresh classLikes)).1.direct.get? name with
        | some children => { metadata with childClassLikes := some children }
        | none => metadata := OrderedMap.get?_mapValues ..
  rw [hmap, get?_fresh]
  cases classLikes.get? name with
  | none => rfl
  | some metadata =>
    cases (buildDescendants (fresh classLikes)).1.direct.get? name with
    | none => rfl
    | some children => rfl

/-- The relation a table states is that of the fresh table. -/
theorem exists_get?_fresh {classLikes : ClassLikes} {parents : ClassLikeMetadata → List Word}
    (hparents : ∀ metadata children,
      parents { metadata with childClassLikes := children } = parents metadata)
    {name parent : Word} :
    (∃ metadata, (fresh classLikes).get? name = some metadata ∧ parent ∈ parents metadata) ↔
      ∃ metadata, classLikes.get? name = some metadata ∧ parent ∈ parents metadata := by
  rw [get?_fresh]
  cases classLikes.get? name with
  | none => simp
  | some metadata => simp [hparents]

section Change

variable {old new : ClassLikes} {repopulated : List Word} {parents : ClassLikeMetadata → List Word}

/-- The edges that stay and the edges to what was populated again are those of the new table. -/
theorem mem_retain_or_iff (h : Repopulates (buildDescendants (fresh old)).2 new repopulated)
    (hparents : ∀ metadata children,
      parents { metadata with childClassLikes := children } = parents metadata)
    (hsame : ∀ {metadata metadata' : ClassLikeMetadata}, metadata.SameParents metadata' →
      ∀ p, p ∈ parents metadata ↔ p ∈ parents metadata')
    {descendants : Descendants} (hold : ∀ parent child, child ∈ descendants.setAt parent ↔
      ∃ metadata, (fresh old).get? child = some metadata ∧ parent ∈ parents metadata)
    {codebase : CodebaseMetadata} (hnew : codebase.classLikes = new) {parent child : Word} :
    child ∈ (descendants.retain (keepsEdge codebase repopulated parents)).setAt parent ∨
        child ∈ repopulated ∧
          (∃ metadata, new.get? child = some metadata ∧ parent ∈ parents metadata) ↔
      ∃ metadata, new.get? child = some metadata ∧ parent ∈ parents metadata := by
  rw [FiniteMap.mem_setAt_retain, hold, exists_get?_fresh hparents, keepsEdge, hnew]
  cases hchild : new.get? child with
  | none => simp
  | some metadata =>
    by_cases hrepopulated : child ∈ repopulated
    · simp [hrepopulated]
    · obtain ⟨metadata', hget, hsameParents, -⟩ := h.unchanged child metadata hchild hrepopulated
      rw [get?_buildDescendants_fresh] at hget
      obtain ⟨metadata'', hget'', heq⟩ := Option.map_eq_some_iff.mp hget
      have hparents'' : parent ∈ parents metadata ↔ parent ∈ parents metadata'' := by
        rw [hsame hsameParents, ← heq, hparents]
      simp [hrepopulated, hget'', hparents'']

/-- A parent that is not looked up again keeps all its children. -/
theorem keepsEdge_of_not_refreshed {codebase : CodebaseMetadata} {parent child : Word}
    (hparent : parent ∉ (retained codebase repopulated).parentsToRefresh)
    (hchild : child ∈ codebase.directClasslikeDescendants.setAt parent) :
    keepsEdge codebase repopulated ClassLikeMetadata.directParents parent child = true := by
  have hkey : parent ∈ codebase.directClasslikeDescendants.keys := by
    rw [FiniteMap.mem_keys]
    by_contra hnone
    rw [Option.not_isSome_iff_eq_none] at hnone
    rw [FiniteMap.setAt, hnone] at hchild
    exact Finset.notMem_empty child hchild
  have hcard : ((codebase.directClasslikeDescendants.setAt parent).filter fun child =>
      keepsEdge codebase repopulated ClassLikeMetadata.directParents parent child = true).card =
        (codebase.directClasslikeDescendants.setAt parent).card := by
    by_contra hne
    exact hparent (Finset.mem_union_right _ (Finset.mem_filter.mpr ⟨hkey, hne⟩))
  exact Finset.card_filter_eq_iff.mp hcard child hchild

end Change

/-- After a change of the table the update gives the maps and the children that the new table
gives when it is fresh. -/
theorem update_eq_rebuild (old new : ClassLikes) (aliases : FiniteMap Word Word)
    (repopulated : List Word)
    (h : Repopulates (buildDescendants (fresh old)).2 new repopulated) :
    let built := (buildDescendants (fresh old)).1
    let updated := update ⟨new, aliases, built.direct, built.all⟩ repopulated
    let rebuilt := buildDescendants (fresh new)
    updated.directClasslikeDescendants = rebuilt.1.direct ∧
      updated.allClassLikeDescendants = rebuilt.1.all ∧
      ∀ name, (updated.classLikes.get? name).map ClassLikeMetadata.childClassLikes =
        (rebuilt.2.get? name).map ClassLikeMetadata.childClassLikes := by
  intro built updated rebuilt
  let codebase : CodebaseMetadata := ⟨new, aliases, built.direct, built.all⟩
  let state := repopulated.foldl (Refresh.add new) (retained codebase repopulated)
  have hdirect (parent child : Word) : child ∈ state.direct.setAt parent ↔
      child ∈ (retained codebase repopulated).direct.setAt parent ∨ child ∈ repopulated ∧
        ∃ metadata, new.get? child = some metadata ∧ parent ∈ metadata.directParents :=
    mem_foldl_refresh Refresh.direct fun _ _ _ _ => mem_direct_refresh
  have hall (parent child : Word) : child ∈ state.all.setAt parent ↔
      child ∈ (retained codebase repopulated).all.setAt parent ∨ child ∈ repopulated ∧
        ∃ metadata, new.get? child = some metadata ∧ parent ∈ metadata.allParents :=
    mem_foldl_refresh Refresh.all fun _ _ _ _ => mem_all_refresh
  have hnodirect : state.direct.NoEmptySet :=
    noEmptySet_foldl_refresh Refresh.direct (fun _ _ => NoEmptySet.direct_refresh) repopulated
      (FiniteMap.noEmptySet_retain _ _)
  have hnoall : state.all.NoEmptySet :=
    noEmptySet_foldl_refresh Refresh.all (fun _ _ => NoEmptySet.all_refresh) repopulated
      (FiniteMap.noEmptySet_retain _ _)
  have hdirecteq : state.direct = rebuilt.1.direct := by
    apply FiniteMap.ext_setAt hnodirect (noEmptySets_buildDescendants _).direct
    intro parent
    ext child
    rw [hdirect, mem_direct_buildDescendants, exists_get?_fresh fun _ _ => rfl]
    exact mem_retain_or_iff h (fun _ _ => rfl)
      (fun hsame => hsame.mem_directParents) (fun _ _ => mem_direct_buildDescendants) rfl
  have halleq : state.all = rebuilt.1.all := by
    apply FiniteMap.ext_setAt hnoall (noEmptySets_buildDescendants _).all
    intro parent
    ext child
    rw [hall, mem_all_buildDescendants, exists_get?_fresh fun _ _ => rfl]
    exact mem_retain_or_iff h (fun _ _ => rfl)
      (fun hsame => hsame.mem_allParents) (fun _ _ => mem_all_buildDescendants) rfl
  refine ⟨hdirecteq, halleq, fun name => ?_⟩
  have hupdated : updated.classLikes.get? name = (new.get? name).map fun metadata =>
      if name ∈ state.parentsToRefresh then
        { metadata with childClassLikes := state.direct.get? name }
      else metadata := OrderedMap.get?_mapValues ..
  rw [hupdated, get?_buildDescendants_fresh]
  cases hname : new.get? name with
  | none => rfl
  | some metadata =>
    simp only [Option.map_some, Option.some.injEq]
    by_cases hrefresh : name ∈ state.parentsToRefresh
    · rw [if_pos hrefresh, hdirecteq]
    · rw [if_neg hrefresh, ← hdirecteq]
      have hnot := mt mem_parentsToRefresh_foldl.mpr hrefresh
      rw [not_or] at hnot
      have hrepopulated : name ∉ repopulated := fun hmem =>
        hnot.1 (Finset.mem_union_left _ (List.mem_toFinset.mpr hmem))
      obtain ⟨metadata', hget, -, hchildren⟩ := h.unchanged name metadata hname hrepopulated
      rw [get?_buildDescendants_fresh] at hget
      obtain ⟨metadata'', -, rfl⟩ := Option.map_eq_some_iff.mp hget
      have hset : built.direct.setAt name = state.direct.setAt name := by
        ext child
        rw [hdirect]
        constructor
        · intro hchild
          exact .inl (FiniteMap.mem_setAt_retain.mpr
            ⟨hchild, keepsEdge_of_not_refreshed hnot.1 hchild⟩)
        · rintro (hchild | ⟨hchild, hparent⟩)
          · exact (FiniteMap.mem_setAt_retain.mp hchild).1
          · exact absurd ⟨child, hchild, hparent⟩ hnot.2
      rw [hchildren]
      change built.direct.get? name = state.direct.get? name
      rw [FiniteMap.get?_eq_of_noEmptySet (noEmptySets_buildDescendants _).direct,
        FiniteMap.get?_eq_of_noEmptySet hnodirect, hset]

/-- A class with at most a parent. -/
def classWithParent (parent : Option Word) (children : Option (Finset Word)) : ClassLikeMetadata where
  directParentClass := parent
  directParentInterfaces := []
  allParentClasses := parent.toList
  allParentInterfaces := []
  usedTraits := []
  requireExtends := []
  requireImplements := []
  importedTypeAliases := []
  childClassLikes := children

/-- The second class is below the first one. -/
def secondBelowFirst : ClassLikes :=
  .ofList [([1], classWithParent none none), ([2], classWithParent (some [1]) none)]

/-- The second class is below a third one, that is new. -/
def secondBelowThird : ClassLikes :=
  .ofList [([1], classWithParent none (some {[2]})), ([2], classWithParent (some [3]) none),
    ([3], classWithParent none none)]

theorem update_eq_rebuild_moved :
    let built := (buildDescendants (fresh secondBelowFirst)).1
    (update ⟨secondBelowThird, .empty, built.direct, built.all⟩
        [[2], [3]]).directClasslikeDescendants =
      (buildDescendants (fresh secondBelowThird)).1.direct := by
  have h : Repopulates (buildDescendants (fresh secondBelowFirst)).2 secondBelowThird
      [[2], [3]] := by
    constructor
    intro name metadata hget hname
    have hentry : (name, metadata) ∈ [(([1] : Word), classWithParent none (some {[2]})),
        ([2], classWithParent (some [3]) none), ([3], classWithParent none none)] :=
      OrderedMap.get?_eq_some_iff.mp hget
    simp only [List.mem_cons, Prod.mk.injEq, List.not_mem_nil, or_false] at hentry hname
    rcases hentry with ⟨rfl, rfl⟩ | ⟨rfl, -⟩ | ⟨rfl, -⟩
    · exact ⟨classWithParent none (some {[2]}), by decide, ⟨rfl, by simp, by simp, by simp, by simp⟩,
        rfl⟩
    · exact absurd (.inl rfl) hname
    · exact absurd (.inr rfl) hname
  exact (update_eq_rebuild secondBelowFirst secondBelowThird .empty [[2], [3]] h).1

end Mago.Codebase.Populator
