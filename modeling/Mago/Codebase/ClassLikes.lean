import Mago.Algebra.Assertion
import Mago.Library.DepthFirst
import Mago.Library.FiniteMap
import Mago.Library.OrderedMap

/-!
# Sorting class-likes

The table of class-likes as the populator reads it, and the order in which it visits the
class-likes it has to populate again: each one after those it depends on. A set that is visited
is the list of its members in the order of the visit.
-/
namespace Mago.Codebase.Populator
open Mago.Library Mago.Algebra

structure ClassLikeMetadata where
  directParentClass : Option Word
  directParentInterfaces : List Word
  allParentClasses : List Word
  allParentInterfaces : List Word
  usedTraits : List Word
  requireExtends : List Word
  requireImplements : List Word
  /-- The name of an alias with the class-like it is imported from and its name there. -/
  importedTypeAliases : List (Word × Word × Word)
  childClassLikes : Option (Finset Word)
  deriving DecidableEq

abbrev Descendants := FiniteMap Word (Finset Word)

structure CodebaseMetadata where
  classLikes : OrderedMap Word ClassLikeMetadata
  classLikeAliases : FiniteMap Word Word
  directClasslikeDescendants : Descendants
  allClassLikeDescendants : Descendants

namespace ClassLikeMetadata

/-- The class-likes a class-like names, in the order they are visited. -/
def dependencies (metadata : ClassLikeMetadata) : List Word :=
  metadata.directParentClass.toList ++ metadata.usedTraits ++ metadata.directParentInterfaces ++
    metadata.requireExtends ++ metadata.requireImplements ++
    metadata.importedTypeAliases.map fun entry => entry.2.1

/-- A class-like names another one, in one of six ways. -/
inductive Names (metadata : ClassLikeMetadata) : Word → Prop
  | parent {name} : metadata.directParentClass = some name → metadata.Names name
  | usedTrait {name} : name ∈ metadata.usedTraits → metadata.Names name
  | interface {name} : name ∈ metadata.directParentInterfaces → metadata.Names name
  | requiredParent {name} : name ∈ metadata.requireExtends → metadata.Names name
  | requiredInterface {name} : name ∈ metadata.requireImplements → metadata.Names name
  | importedType {key name original} :
    (key, name, original) ∈ metadata.importedTypeAliases → metadata.Names name

end ClassLikeMetadata

namespace CodebaseMetadata

variable (codebase : CodebaseMetadata) (classLikesToRepopulate : List Word)

local instance lawfulBEqWord : LawfulBEq Word := inferInstance

/-- A dependency that is populated again, itself or the class-like it is an alias of. -/
def dependencyToRepopulate (dependency : Word) : Option Word :=
  if dependency ∈ classLikesToRepopulate then some dependency
  else if codebase.classLikeAliases.isEmpty || codebase.classLikes.containsKey dependency then none
  else (codebase.classLikeAliases.get? dependency).filter fun actual =>
    decide (actual ∈ classLikesToRepopulate)

/-- The class-likes that are visited before a class-like. -/
def dependenciesToRepopulate (classLike : Word) : List Word :=
  match codebase.classLikes.get? classLike with
  | none => []
  | some metadata =>
    metadata.dependencies.filterMap (codebase.dependencyToRepopulate classLikesToRepopulate)

/-- `none` when the fuel runs out. -/
def sortClassLikes (fuel : ℕ) : Option (List Word) :=
  (DepthFirst.visitAll (codebase.dependenciesToRepopulate classLikesToRepopulate) fuel
    classLikesToRepopulate ⟨∅, []⟩).map DepthFirst.State.sorted

/-- The class-like that a name stands for. An alias is followed where no class-like has its name. -/
inductive StandsFor : Word → Word → Prop
  | itself {name} : name ∈ classLikesToRepopulate → StandsFor name name
  | aliased {name actual} : name ∉ classLikesToRepopulate → codebase.classLikes.get? name = none →
    codebase.classLikeAliases.get? name = some actual → StandsFor name actual

/-- A class-like that is populated again depends on another one that is. -/
def DependsOn (classLike dependency : Word) : Prop :=
  classLike ∈ classLikesToRepopulate ∧ dependency ∈ classLikesToRepopulate ∧
    ∃ metadata name, codebase.classLikes.get? classLike = some metadata ∧ metadata.Names name ∧
      codebase.StandsFor classLikesToRepopulate name dependency

variable {codebase classLikesToRepopulate}

theorem mem_dependencies_iff {metadata : ClassLikeMetadata} {name : Word} :
    name ∈ metadata.dependencies ↔ metadata.Names name := by
  simp only [ClassLikeMetadata.dependencies, List.mem_append, Option.mem_toList, List.mem_map,
    Prod.exists]
  constructor
  · intro h
    rcases h with ((((h | h) | h) | h) | h) | h
    · exact .parent h
    · exact .usedTrait h
    · exact .interface h
    · exact .requiredParent h
    · exact .requiredInterface h
    · obtain ⟨key, source, original, hmem, rfl⟩ := h
      exact .importedType hmem
  · intro h
    cases h with
    | parent h => simp [h]
    | usedTrait h => simp [h]
    | interface h => simp [h]
    | requiredParent h => simp [h]
    | requiredInterface h => simp [h]
    | importedType h => exact .inr ⟨_, _, _, h, rfl⟩

theorem dependencyToRepopulate_eq_some_iff {dependency actual : Word} :
    codebase.dependencyToRepopulate classLikesToRepopulate dependency = some actual ↔
      actual ∈ classLikesToRepopulate ∧
        codebase.StandsFor classLikesToRepopulate dependency actual := by
  rw [dependencyToRepopulate]
  by_cases hmem : dependency ∈ classLikesToRepopulate
  · rw [if_pos hmem, Option.some.injEq]
    constructor
    · intro h
      subst h
      exact ⟨hmem, .itself hmem⟩
    · intro h
      cases h.2 with
      | itself _ => rfl
      | aliased hnot => exact absurd hmem hnot
  · rw [if_neg hmem]
    constructor
    · intro h
      split_ifs at h with hskip
      rw [Bool.not_eq_true, Bool.or_eq_false_iff, OrderedMap.containsKey,
        Option.isSome_eq_false_iff, Option.isNone_iff_eq_none] at hskip
      obtain ⟨halias, hactual⟩ := Option.filter_eq_some_iff.mp h
      exact ⟨of_decide_eq_true hactual, .aliased hmem hskip.2 halias⟩
    · intro h
      obtain ⟨hactual, hstands⟩ := h
      cases hstands with
      | itself hmem' => exact absurd hmem' hmem
      | aliased _ hnone halias =>
        have hskip : (codebase.classLikeAliases.isEmpty ||
            codebase.classLikes.containsKey dependency) = false := by
          rw [Bool.or_eq_false_iff, OrderedMap.containsKey, hnone, ← Bool.not_eq_true,
            FiniteMap.isEmpty_iff]
          refine ⟨fun hempty => ?_, rfl⟩
          rw [hempty dependency] at halias
          cases halias
        rw [hskip, if_neg Bool.false_ne_true, halias]
        simp [hactual]

/-- The sort follows the dependencies. -/
theorem mem_dependenciesToRepopulate_iff {classLike dependency : Word}
    (hclassLike : classLike ∈ classLikesToRepopulate) :
    dependency ∈ codebase.dependenciesToRepopulate classLikesToRepopulate classLike ↔
      codebase.DependsOn classLikesToRepopulate classLike dependency := by
  rw [dependenciesToRepopulate, DependsOn]
  cases codebase.classLikes.get? classLike with
  | none => simp
  | some metadata =>
    simp only [List.mem_filterMap, mem_dependencies_iff, dependencyToRepopulate_eq_some_iff,
      Option.some.injEq, exists_and_left, exists_eq_left', hclassLike, true_and]
    constructor
    · intro h
      obtain ⟨name, hname, hmem, hstands⟩ := h
      exact ⟨hmem, name, hname, hstands⟩
    · intro h
      obtain ⟨hmem, name, hname, hstands⟩ := h
      exact ⟨name, hname, hmem, hstands⟩

theorem mem_of_mem_dependenciesToRepopulate {classLike dependency : Word}
    (h : dependency ∈ codebase.dependenciesToRepopulate classLikesToRepopulate classLike) :
    dependency ∈ classLikesToRepopulate := by
  rw [dependenciesToRepopulate] at h
  cases hmetadata : codebase.classLikes.get? classLike with
  | none =>
    rw [hmetadata] at h
    cases h
  | some metadata =>
    rw [hmetadata] at h
    obtain ⟨name, -, hname⟩ := List.mem_filterMap.mp h
    exact (dependencyToRepopulate_eq_some_iff.mp hname).1

/-- Sorting ends, whatever the dependencies are, and returns each class-like once; when the
dependencies have no cycle each class-like comes after those it depends on. -/
theorem sortClassLikes_topological (codebase : CodebaseMetadata)
    (classLikesToRepopulate : List Word) :
    ∃ sorted, (∀ fuel, classLikesToRepopulate.toFinset.card < fuel →
        codebase.sortClassLikes classLikesToRepopulate fuel = some sorted) ∧
      sorted.Nodup ∧ (∀ name, name ∈ sorted ↔ name ∈ classLikesToRepopulate) ∧
      ((∀ name, ¬ Relation.TransGen (codebase.DependsOn classLikesToRepopulate) name name) →
        ∀ before name after, sorted = before ++ name :: after →
          ∀ dependency, codebase.DependsOn classLikesToRepopulate name dependency →
            dependency ∈ before) := by
  obtain ⟨s, hends, hnodup, hmem, hclosed⟩ := DepthFirst.visitAll_sorts
    classLikesToRepopulate
    (fun _ _ _ h => List.mem_toFinset.mpr (mem_of_mem_dependenciesToRepopulate h))
  refine ⟨s.sorted, fun fuel hfuel => ?_, hnodup, hmem, ?_⟩
  · rw [sortClassLikes, hends fuel hfuel]
    rfl
  · intro hacyclic before name after hsorted dependency hdependency
    have hedge : DepthFirst.Edge (codebase.dependenciesToRepopulate classLikesToRepopulate)
        classLikesToRepopulate.toFinset = codebase.DependsOn classLikesToRepopulate := by
      funext name dependency
      rw [DepthFirst.Edge, List.mem_toFinset, eq_iff_iff]
      constructor
      · intro h
        exact (mem_dependenciesToRepopulate_iff h.1).mp h.2
      · intro h
        exact ⟨h.1, (mem_dependenciesToRepopulate_iff h.1).mpr h⟩
    have hacyclic' : DepthFirst.Acyclic
        (codebase.dependenciesToRepopulate classLikesToRepopulate)
        classLikesToRepopulate.toFinset := by
      unfold DepthFirst.Acyclic
      rw [hedge]
      exact hacyclic
    exact hclosed hacyclic' before name after hsorted dependency
      ((mem_dependenciesToRepopulate_iff hdependency.1).mpr hdependency)

end CodebaseMetadata

end Mago.Codebase.Populator
