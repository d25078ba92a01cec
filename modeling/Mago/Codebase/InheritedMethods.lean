import Mago.Algebra.Assertion
import Mago.Library.Ascii
import Mago.Library.MemoSearch
import Mago.Library.OrderedMap

/-!
# Sources of inherited methods

The method that a patched method overrides is searched for depth first among the traits, the parent
class and the interfaces of its class, with one cache for all the methods that are patched. The
methods come in the order of the depth of their classes. The search with the cache finds what the
search without one finds, unless it takes from the cache the source of a method that was searched
by way of the very method it is for, which needs a cycle.
-/
namespace Mago.Codebase.Inherited
open Mago.Library Mago.Library.MemoSearch Mago.Algebra

structure MethodIdentifier where
  className : Word
  methodName : Word
  deriving DecidableEq

inductive DeclaredAncestor
  | parentClass (name : Word)
  | parentInterface (name : Word)
  | trait (name : Word)
  | requiredClass (name : Word)
  | requiredInterface (name : Word)

structure TraitMethodAdaptations where
  aliasSources : OrderedMap Word Word
  excludedMethods : List MethodIdentifier

/-- Sets are lists of their members in any order. -/
structure ClassLikeMetadata where
  isTrait : Bool
  usedTraits : List Word
  declaredAncestry : Option (List DeclaredAncestor)
  directParentClass : Option Word
  directParentInterfaces : List Word
  traitAliasMap : OrderedMap Word Word
  traitMethodAdaptations : Option TraitMethodAdaptations

structure FunctionLikeMetadata where
  /-- Whether it is abstract, of a method only. -/
  isAbstract : Option Bool
  isMagicMethod : Bool

structure CodebaseMetadata where
  classLikes : OrderedMap Word ClassLikeMetadata
  functionLikes : OrderedMap (Word × Word) FunctionLikeMetadata
  classLikeAliases : OrderedMap Word Word

structure InheritedPatchMethod where
  target : MethodIdentifier
  source : Option MethodIdentifier
  deriving DecidableEq

/-! ## Direct ancestors -/

namespace CodebaseMetadata

variable (codebase : CodebaseMetadata)

def resolveClassLikeWord (name : Word) : Option Word :=
  if codebase.classLikes.containsKey name then some name
  else if codebase.classLikeAliases.isEmpty then none
  else codebase.classLikeAliases.get? name

def getMethodByWords (className methodName : Word) : Option FunctionLikeMetadata :=
  match codebase.functionLikes.get? (className, methodName) with
  | some metadata => some metadata
  | none =>
    if codebase.classLikeAliases.isEmpty then none
    else
      (codebase.classLikeAliases.get? className).bind fun actual =>
        codebase.functionLikes.get? (actual, methodName)

def getMethodById (method : MethodIdentifier) : Option FunctionLikeMetadata :=
  codebase.getMethodByWords (Ascii.lower method.className) (Ascii.lower method.methodName)

/-- An abstract method gives way, and a magic one of a trait to one of no trait. -/
def canReplaceInheritedMethod (current : MethodIdentifier) (parent : Word) : Bool :=
  match codebase.getMethodById current with
  | none => false
  | some method =>
    method.isAbstract.getD false ||
      (method.isMagicMethod &&
        (codebase.classLikes.get? current.className).any (·.isTrait) &&
        (codebase.classLikes.get? parent).any fun metadata => !metadata.isTrait)

end CodebaseMetadata

namespace ClassLikeMetadata

variable (metadata : ClassLikeMetadata) (codebase : CodebaseMetadata)

def directTraitNames : List Word :=
  match metadata.declaredAncestry with
  | some ancestry => ancestry.filterMap fun ancestor =>
    match ancestor with
    | .trait name => some name
    | _ => none
  | none => metadata.usedTraits

def excludesTraitMethod (source method : Word) : Bool :=
  metadata.traitMethodAdaptations.any fun adaptations =>
    adaptations.excludedMethods.any fun excluded =>
      decide (excluded.methodName = method ∧
        codebase.resolveClassLikeWord excluded.className = some source)

def traitAliasApplies (source method aliasName : Word) : Bool :=
  match metadata.traitMethodAdaptations.bind fun adaptations =>
    adaptations.aliasSources.get? aliasName with
  | none => !metadata.excludesTraitMethod codebase source method
  | some qualified => decide (codebase.resolveClassLikeWord qualified = some source)

/-- The class-likes it names as traits, parent class and interfaces. -/
def directAncestors : List Word :=
  metadata.directTraitNames ++ metadata.directParentClass.toList ++
    metadata.directParentInterfaces

/-- The methods that one of its methods may come from, in the order they are asked. -/
def methodSources (name : Word) : List MethodIdentifier :=
  let traitMethod := (metadata.traitAliasMap.get? name).getD name
  let traits := metadata.directTraitNames.insertionSort (· ≤ ·)
  let interfaces := metadata.directParentInterfaces.insertionSort (· ≤ ·)
  (traits.filter fun source =>
      metadata.traitAliasApplies codebase source traitMethod name).map
      (fun source => ⟨source, traitMethod⟩) ++
    metadata.directParentClass.toList.map (fun parent => ⟨parent, name⟩) ++
    interfaces.map fun parent => ⟨parent, name⟩

end ClassLikeMetadata

namespace CodebaseMetadata

variable (codebase : CodebaseMetadata)

def directMethodSources (method : MethodIdentifier) : List MethodIdentifier :=
  match codebase.classLikes.get? method.className with
  | none => []
  | some metadata => metadata.methodSources codebase method.methodName

/-- The search of a resolver with planned overrides. -/
def resolver (overrides : List MethodIdentifier) : Graph MethodIdentifier where
  sources := codebase.directMethodSources
  declared ancestor := decide (ancestor ∈ overrides) ||
    codebase.functionLikes.containsKey (ancestor.className, ancestor.methodName)
  replaces current ancestor := codebase.canReplaceInheritedMethod current ancestor.className

/-! ## The order -/

abbrev Depths := Word → Option ℕ

def inheritanceDepth : ℕ → Word → Depths → List Word → ℕ × Depths
  | 0, _, depths, _ => (0, depths)
  | fuel + 1, className, depths, path =>
    match depths className with
    | some depth => (depth, depths)
    | none =>
      if path.contains className then (0, depths)
      else
        match codebase.classLikes.get? className with
        | none => (0, depths)
        | some metadata =>
          let deepest := metadata.directAncestors.foldl
            (fun (deepest : ℕ × Depths) ancestor =>
              let below := inheritanceDepth fuel ancestor deepest.2 (className :: path)
              (max deepest.1 (below.1 + 1), below.2))
            (0, depths)
          (deepest.1, Function.update deepest.2 className (some deepest.1))

/-- The depths after the sort has asked for those of the classes in this order. -/
def depthsAfter (fuel : ℕ) (classNames : List Word) : Depths :=
  classNames.foldl (fun depths className => (codebase.inheritanceDepth fuel className depths []).2)
    fun _ => none

/-- By the depth of the class and then by the name. -/
def KeyLe (fuel : ℕ) (depths : Depths) (a b : MethodIdentifier) : Prop :=
  let depthA := (codebase.inheritanceDepth fuel a.className depths []).1
  let depthB := (codebase.inheritanceDepth fuel b.className depths []).1
  depthA < depthB ∨ depthA = depthB ∧
    (a.className < b.className ∨ a.className = b.className ∧ a.methodName ≤ b.methodName)

instance (fuel : ℕ) (depths : Depths) : DecidableRel (codebase.KeyLe fuel depths) :=
  fun _ _ => inferInstanceAs (Decidable (_ ∨ _))

/-- Sorted by the depths. The sort asks for those of `evaluations` first. -/
def sortByDepth (fuel : ℕ) (evaluations : List Word) (methods : List MethodIdentifier) :
    List MethodIdentifier :=
  let depths := codebase.depthsAfter fuel (evaluations ++ methods.map (·.className))
  methods.insertionSort (codebase.KeyLe fuel depths)

/-! ## Resolving -/

/-- One resolver for all targets, in their order. -/
def findSources (fuel : ℕ) (overrides targets : List MethodIdentifier) :
    List InheritedPatchMethod :=
  ((codebase.resolver overrides).findAll fuel (fun _ => none) targets).map fun found =>
    ⟨found.1, found.2⟩

def resolveInheritedPatchMethods (fuel : ℕ) (evaluations : List Word)
    (methods : List MethodIdentifier) : List InheritedPatchMethod :=
  codebase.findSources fuel methods (codebase.sortByDepth fuel evaluations methods)

/-- What the same search finds without a cache. -/
def plainSource (fuel : ℕ) (overrides : List MethodIdentifier) (method : MethodIdentifier) :
    Option MethodIdentifier :=
  ((codebase.resolver overrides).search fuel [] method).source

/-! ## Enough fuel -/

def classNames (targets : List MethodIdentifier) : List Word :=
  targets.map (·.className) ++ codebase.classLikes.keys ++
    codebase.classLikes.values.flatMap ClassLikeMetadata.directAncestors

def methodNames (targets : List MethodIdentifier) : List Word :=
  targets.map (·.methodName) ++
    codebase.classLikes.values.flatMap fun metadata => metadata.traitAliasMap.values

/-- The methods that a search can ask about. -/
def methodUniverse (targets : List MethodIdentifier) : List MethodIdentifier :=
  (codebase.classNames targets).flatMap fun className =>
    (codebase.methodNames targets).map (MethodIdentifier.mk className)

/-- More than there are methods to ask about and class-likes. -/
def searchFuel (targets : List MethodIdentifier) : ℕ :=
  (codebase.methodUniverse targets).length + codebase.classLikes.keys.length + 1

section Universe

variable {codebase} {targets : List MethodIdentifier}

theorem mem_methodUniverse {method : MethodIdentifier} :
    method ∈ codebase.methodUniverse targets ↔ method.className ∈ codebase.classNames targets ∧
      method.methodName ∈ codebase.methodNames targets := by
  rw [methodUniverse, List.mem_flatMap]
  constructor
  · rintro ⟨className, hclass, hmethod⟩
    obtain ⟨methodName, hname, rfl⟩ := List.mem_map.mp hmethod
    exact ⟨hclass, hname⟩
  · rintro ⟨hclass, hname⟩
    exact ⟨method.className, hclass, List.mem_map.mpr ⟨method.methodName, hname, rfl⟩⟩

theorem mem_universe_of_mem {method : MethodIdentifier} (h : method ∈ targets) :
    method ∈ codebase.methodUniverse targets := by
  refine mem_methodUniverse.mpr ⟨?_, ?_⟩
  · exact List.mem_append_left _ (List.mem_append_left _ (List.mem_map_of_mem h))
  · exact List.mem_append_left _ (List.mem_map_of_mem h)

/-- A source is a method of a direct ancestor, under the name of the method or of its alias. -/
theorem mem_methodSources {metadata : ClassLikeMetadata} {name : Word}
    {source : MethodIdentifier} (h : source ∈ metadata.methodSources codebase name) :
    source.className ∈ metadata.directAncestors ∧
      source.methodName ∈ name :: metadata.traitAliasMap.values := by
  unfold ClassLikeMetadata.methodSources at h
  unfold ClassLikeMetadata.directAncestors
  simp only [List.mem_append, List.mem_map, List.mem_filter, List.mem_insertionSort] at h ⊢
  rcases h with (⟨trait, ⟨htrait, -⟩, rfl⟩ | ⟨parent, hparent, rfl⟩) | ⟨parent, hparent, rfl⟩
  · refine ⟨Or.inl (Or.inl htrait), ?_⟩
    cases halias : metadata.traitAliasMap.get? name with
    | none => exact List.mem_cons_self
    | some traitMethod =>
      refine List.mem_cons_of_mem name (OrderedMap.mem_values.mpr ⟨name, ?_⟩)
      exact OrderedMap.get?_eq_some_iff.mp halias
  · exact ⟨Or.inl (Or.inr hparent), List.mem_cons_self⟩
  · exact ⟨Or.inr hparent, List.mem_cons_self⟩

theorem mem_directMethodSources {method source : MethodIdentifier}
    (h : source ∈ codebase.directMethodSources method) :
    ∃ metadata, codebase.classLikes.get? method.className = some metadata ∧
      source.className ∈ metadata.directAncestors ∧
      source.methodName ∈ method.methodName :: metadata.traitAliasMap.values := by
  unfold directMethodSources at h
  split at h
  · cases h
  · rename_i metadata hmetadata
    exact ⟨metadata, hmetadata, mem_methodSources h⟩

theorem resolver_closed (overrides targets : List MethodIdentifier) :
    (codebase.resolver overrides).Closed (codebase.methodUniverse targets).toFinset := by
  intro method hmethod source hsource
  rw [List.mem_toFinset, mem_methodUniverse] at hmethod ⊢
  obtain ⟨metadata, hmetadata, hclass, hname⟩ := mem_directMethodSources hsource
  have hvalue : metadata ∈ codebase.classLikes.values :=
    OrderedMap.mem_values.mpr ⟨method.className, OrderedMap.get?_eq_some_iff.mp hmetadata⟩
  refine ⟨List.mem_append_right _ (List.mem_flatMap.mpr ⟨metadata, hvalue, hclass⟩), ?_⟩
  rcases List.mem_cons.mp hname with heq | halias
  · rw [heq]
    exact hmethod.2
  · exact List.mem_append_right _ (List.mem_flatMap.mpr ⟨metadata, hvalue, halias⟩)

theorem card_universe_lt {fuel : ℕ} (h : codebase.searchFuel targets ≤ fuel) :
    (codebase.methodUniverse targets).toFinset.card < fuel := by
  have hle := (codebase.methodUniverse targets).toFinset_card_le
  unfold searchFuel at h
  omega

end Universe

/-! ## Class graphs without cycles -/

/-- One class-like names the other as a trait, its parent class or an interface. -/
def IsDirectAncestor (descendant ancestor : Word) : Prop :=
  ∃ metadata, codebase.classLikes.get? descendant = some metadata ∧
    ancestor ∈ metadata.directAncestors

abbrev Descends : Word → Word → Prop := Relation.TransGen codebase.IsDirectAncestor

def Acyclic : Prop := ∀ className, ¬codebase.Descends className className

variable {codebase}

theorem resolver_acyclic (hacyclic : codebase.Acyclic) (overrides : List MethodIdentifier)
    (method : MethodIdentifier) :
    ¬Relation.TransGen (fun x y => y ∈ (codebase.resolver overrides).sources x) method method := by
  intro hcycle
  refine hacyclic method.className (hcycle.lift MethodIdentifier.className fun x y hxy => ?_)
  obtain ⟨metadata, hmetadata, hclass, -⟩ := mem_directMethodSources hxy
  exact ⟨metadata, hmetadata, hclass⟩

/-- A class-like that has a depth has a larger one than its direct ancestors, where those that are
not in the codebase count as the lowest. -/
structure Layered (codebase : CodebaseMetadata) (depths : Depths) : Prop where
  known : ∀ a, depths a ≠ none → codebase.classLikes.get? a ≠ none
  below : ∀ a depth, depths a = some depth → ∀ b, codebase.IsDirectAncestor a b →
    codebase.classLikes.get? b = none ∧ 0 < depth ∨ ∃ lower, depths b = some lower ∧ lower < depth

/-- The depth of a class-like as the depths have it. -/
def HasDepth (codebase : CodebaseMetadata) (depths : Depths) (a : Word) (depth : ℕ) : Prop :=
  codebase.classLikes.get? a = none ∧ depth = 0 ∨ depths a = some depth

structure DepthGrows (path : List Word) (depths later : Depths) : Prop where
  kept : ∀ a depth, depths a = some depth → later a = some depth
  inactive : ∀ a ∈ path, depths a = none → later a = none

theorem DepthGrows.refl (path : List Word) (depths : Depths) : DepthGrows path depths depths where
  kept _ _ h := h
  inactive _ _ h := h

theorem DepthGrows.trans {path : List Word} {depths later last : Depths}
    (h : DepthGrows path depths later) (hlast : DepthGrows path later last) :
    DepthGrows path depths last where
  kept a depth ha := hlast.kept a depth (h.kept a depth ha)
  inactive a hpath ha := hlast.inactive a hpath (h.inactive a hpath ha)

theorem HasDepth.grows {path : List Word} {depths later : Depths} {a : Word} {depth : ℕ}
    (h : HasDepth codebase depths a depth) (hgrows : DepthGrows path depths later) :
    HasDepth codebase later a depth :=
  h.imp_right (hgrows.kept a depth)

/-- One ancestor after the other. -/
theorem foldl_depth {recurse : Word → Depths → ℕ × Depths} {path : List Word}
    (ancestors : List Word)
    (hrec : ∀ b ∈ ancestors, ∀ depths, Layered codebase depths →
      Layered codebase (recurse b depths).2 ∧ DepthGrows path depths (recurse b depths).2 ∧
        HasDepth codebase (recurse b depths).2 b (recurse b depths).1)
    (deepest : ℕ × Depths) (hlayered : Layered codebase deepest.2) :
    let last := ancestors.foldl
      (fun (deepest : ℕ × Depths) ancestor =>
        let below := recurse ancestor deepest.2
        (max deepest.1 (below.1 + 1), below.2))
      deepest
    Layered codebase last.2 ∧ DepthGrows path deepest.2 last.2 ∧ deepest.1 ≤ last.1 ∧
      ∀ b ∈ ancestors, ∃ lower, HasDepth codebase last.2 b lower ∧ lower < last.1 := by
  induction ancestors generalizing deepest with
  | nil => exact ⟨hlayered, DepthGrows.refl _ _, le_rfl, fun b hb => nomatch hb⟩
  | cons ancestor ancestors ih =>
    obtain ⟨hbelow, hgrows, hdepth⟩ := hrec ancestor List.mem_cons_self deepest.2 hlayered
    obtain ⟨hlast, hmore, hle, hall⟩ := ih (fun b hb => hrec b (List.mem_cons_of_mem _ hb))
      (max deepest.1 ((recurse ancestor deepest.2).1 + 1), (recurse ancestor deepest.2).2) hbelow
    refine ⟨hlast, hgrows.trans hmore, (le_max_left _ _).trans hle, fun b hb => ?_⟩
    rcases List.mem_cons.mp hb with rfl | hb
    · exact ⟨_, hdepth.grows hmore, Nat.lt_of_succ_le ((le_max_right _ _).trans hle)⟩
    · exact hall b hb

theorem Layered.update {depths : Depths} (h : Layered codebase depths) {className : Word}
    {metadata : ClassLikeMetadata}
    (hmetadata : codebase.classLikes.get? className = some metadata)
    (hnone : depths className = none) {depth : ℕ}
    (hall : ∀ b ∈ metadata.directAncestors, ∃ lower, HasDepth codebase depths b lower ∧
      lower < depth) : Layered codebase (Function.update depths className (some depth)) where
  known a ha := by
    by_cases heq : a = className
    · rw [heq, hmetadata]
      exact Option.some_ne_none metadata
    · rw [Function.update_of_ne heq] at ha
      exact h.known a ha
  below a depthA ha b hedge := by
    have hne : ∀ lower, depths b = some lower → b ≠ className := by
      rintro lower hlower rfl
      rw [hnone] at hlower
      cases hlower
    by_cases heq : a = className
    · rw [heq, Function.update_self] at ha
      injection ha with ha
      obtain ⟨found, hfound, hmem⟩ := hedge
      rw [heq, hmetadata] at hfound
      injection hfound with hfound
      rw [← hfound] at hmem
      obtain ⟨lower, hlower, hless⟩ := hall b hmem
      rcases hlower with ⟨hmissing, hzero⟩ | hlower
      · exact Or.inl ⟨hmissing, by omega⟩
      · rw [Function.update_of_ne (hne lower hlower)]
        exact Or.inr ⟨lower, hlower, by omega⟩
    · rw [Function.update_of_ne heq] at ha
      rcases h.below a depthA ha b hedge with hmissing | ⟨lower, hlower, hless⟩
      · exact Or.inl hmissing
      · rw [Function.update_of_ne (hne lower hlower)]
        exact Or.inr ⟨lower, hlower, hless⟩

theorem inheritanceDepth_spec (hacyclic : codebase.Acyclic) (fuel : ℕ) (className : Word)
    (depths : Depths) (path : List Word)
    (henough : Enough codebase.classLikes.keys.toFinset fuel path)
    (hpath : ∀ p ∈ path, codebase.Descends p className) (hlayered : Layered codebase depths) :
    let found := codebase.inheritanceDepth fuel className depths path
    Layered codebase found.2 ∧ DepthGrows path depths found.2 ∧
      HasDepth codebase found.2 className found.1 := by
  induction fuel generalizing className depths path with
  | zero => exact absurd henough (Nat.not_lt_zero _)
  | succ fuel ih =>
    have hnot : className ∉ path := fun hmem => hacyclic className (hpath className hmem)
    rw [inheritanceDepth]
    cases hdepth : depths className with
    | some depth => exact ⟨hlayered, DepthGrows.refl path depths, Or.inr hdepth⟩
    | none =>
      have hfalse : ¬path.contains className = true := by simpa using hnot
      simp only [if_neg hfalse]
      cases hmetadata : codebase.classLikes.get? className with
      | none => exact ⟨hlayered, DepthGrows.refl path depths, Or.inl ⟨hmetadata, rfl⟩⟩
      | some metadata =>
        have hkey : className ∈ codebase.classLikes.keys.toFinset := by
          rw [List.mem_toFinset, OrderedMap.mem_keys]
          exact ⟨metadata, OrderedMap.get?_eq_some_iff.mp hmetadata⟩
        have hrec : ∀ b ∈ metadata.directAncestors, ∀ depths, Layered codebase depths →
            let found := codebase.inheritanceDepth fuel b depths (className :: path)
            Layered codebase found.2 ∧ DepthGrows (className :: path) depths found.2 ∧
              HasDepth codebase found.2 b found.1 := by
          intro b hb depths hlayered
          have hedge : codebase.IsDirectAncestor className b := ⟨metadata, hmetadata, hb⟩
          refine ih b depths (className :: path) (henough.cons hkey hnot) (fun p hp => ?_) hlayered
          rcases List.mem_cons.mp hp with rfl | hp
          · exact .single hedge
          · exact (hpath p hp).tail hedge
        obtain ⟨hlast, hgrows, -, hall⟩ :=
          foldl_depth metadata.directAncestors hrec (0, depths) hlayered
        have hnone := hgrows.inactive className List.mem_cons_self hdepth
        refine ⟨hlast.update hmetadata hnone hall, ⟨fun a depth ha => ?_, ?_⟩,
          Or.inr (Function.update_self ..)⟩
        · have hne : a ≠ className := by
            rintro rfl
            rw [hdepth] at ha
            cases ha
          exact (Function.update_of_ne hne _ _).trans (hgrows.kept a depth ha)
        · intro a ha hunknown
          have hne : a ≠ className := by
            rintro rfl
            exact hnot ha
          exact (Function.update_of_ne hne _ _).trans
            (hgrows.inactive a (List.mem_cons_of_mem _ ha) hunknown)

theorem layered_empty : Layered codebase fun _ => none where
  known _ h := absurd rfl h
  below _ _ h := nomatch h

theorem Layered.descends {depths : Depths} (h : Layered codebase depths) {a b : Word}
    (hdescends : codebase.Descends a b) {depth : ℕ} (ha : depths a = some depth) :
    codebase.classLikes.get? b = none ∧ 0 < depth ∨
      ∃ lower, depths b = some lower ∧ lower < depth := by
  induction hdescends with
  | single hedge => exact h.below a depth ha _ hedge
  | tail _ hedge ih =>
    rcases ih with ⟨hmissing, -⟩ | ⟨lower, hlower, hless⟩
    · obtain ⟨metadata, hmetadata, -⟩ := hedge
      rw [hmissing] at hmetadata
      cases hmetadata
    · rcases h.below _ lower hlower _ hedge with ⟨hmissing, hpos⟩ | ⟨lowest, hlowest, hbelow⟩
      · exact Or.inl ⟨hmissing, by omega⟩
      · exact Or.inr ⟨lowest, hlowest, by omega⟩

theorem Descends.known {a b : Word} (h : codebase.Descends a b) :
    codebase.classLikes.get? a ≠ none := by
  have hedge : ∀ c, codebase.IsDirectAncestor a c → codebase.classLikes.get? a ≠ none := by
    rintro c ⟨metadata, hmetadata, -⟩
    rw [hmetadata]
    exact Option.some_ne_none metadata
  rcases Relation.TransGen.head'_iff.mp h with ⟨c, hac, -⟩
  exact hedge c hac

section Order

variable {fuel : ℕ}

theorem foldl_inheritanceDepth (hacyclic : codebase.Acyclic)
    (hfuel : codebase.classLikes.keys.length < fuel) (classNames : List Word) (depths : Depths)
    (hlayered : Layered codebase depths) :
    let last := classNames.foldl
      (fun depths className => (codebase.inheritanceDepth fuel className depths []).2) depths
    Layered codebase last ∧ DepthGrows [] depths last ∧
      ∀ a ∈ classNames, ∃ depth, HasDepth codebase last a depth := by
  have henough : Enough codebase.classLikes.keys.toFinset fuel [] :=
    enough_nil (lt_of_le_of_lt codebase.classLikes.keys.toFinset_card_le hfuel)
  induction classNames generalizing depths with
  | nil => exact ⟨hlayered, DepthGrows.refl _ _, fun a ha => nomatch ha⟩
  | cons className classNames ih =>
    obtain ⟨hnext, hgrows, hdepth⟩ := inheritanceDepth_spec hacyclic fuel className depths []
      henough (fun p hp => nomatch hp) hlayered
    obtain ⟨hlast, hmore, hall⟩ := ih _ hnext
    refine ⟨hlast, hgrows.trans hmore, fun a ha => ?_⟩
    rcases List.mem_cons.mp ha with rfl | ha
    · exact ⟨_, hdepth.grows hmore⟩
    · exact hall a ha

theorem depthsAfter_spec (hacyclic : codebase.Acyclic)
    (hfuel : codebase.classLikes.keys.length < fuel) (classNames : List Word) :
    Layered codebase (codebase.depthsAfter fuel classNames) ∧
      ∀ a ∈ classNames, ∃ depth,
        HasDepth codebase (codebase.depthsAfter fuel classNames) a depth := by
  obtain ⟨hlayered, -, hall⟩ :=
    foldl_inheritanceDepth hacyclic hfuel classNames _ layered_empty
  exact ⟨hlayered, hall⟩

/-- A depth that is known is what a further question gives. -/
theorem inheritanceDepth_of_hasDepth {depths : Depths} (hlayered : Layered codebase depths)
    {a : Word} {depth : ℕ} (h : HasDepth codebase depths a depth) (hfuel : 0 < fuel) :
    (codebase.inheritanceDepth fuel a depths []).1 = depth := by
  obtain ⟨fuel, rfl⟩ := Nat.exists_eq_add_of_le' hfuel
  rw [inheritanceDepth]
  rcases h with ⟨hmissing, rfl⟩ | hknown
  · cases hdepth : depths a with
    | none =>
      simp only [List.contains_nil, Bool.false_eq_true, if_false, hmissing]
    | some depth => exact absurd hmissing (hlayered.known a (by rw [hdepth]; exact nofun))
  · rw [hknown]

instance (depths : Depths) : Std.Total (codebase.KeyLe fuel depths) where
  total a b := by
    simp only [KeyLe]
    generalize (codebase.inheritanceDepth fuel a.className depths []).1 = depthA
    generalize (codebase.inheritanceDepth fuel b.className depths []).1 = depthB
    rcases Nat.lt_trichotomy depthA depthB with hless | heq | hless
    · exact Or.inl (Or.inl hless)
    · rcases Std.lt_trichotomy a.className b.className with hclass | hclass | hclass
      · exact Or.inl (Or.inr ⟨heq, Or.inl hclass⟩)
      · rcases Std.le_total (a := a.methodName) (b := b.methodName) with hname | hname
        · exact Or.inl (Or.inr ⟨heq, Or.inr ⟨hclass, hname⟩⟩)
        · exact Or.inr (Or.inr ⟨heq.symm, Or.inr ⟨hclass.symm, hname⟩⟩)
      · exact Or.inr (Or.inr ⟨heq.symm, Or.inl hclass⟩)
    · exact Or.inr (Or.inl hless)

instance (depths : Depths) : IsTrans MethodIdentifier (codebase.KeyLe fuel depths) where
  trans a b c := by
    simp only [KeyLe]
    generalize (codebase.inheritanceDepth fuel a.className depths []).1 = depthA
    generalize (codebase.inheritanceDepth fuel b.className depths []).1 = depthB
    generalize (codebase.inheritanceDepth fuel c.className depths []).1 = depthC
    rintro (hab | ⟨hab, hclass⟩) (hbc | ⟨hbc, hother⟩)
    · exact Or.inl (hab.trans hbc)
    · exact Or.inl (hbc ▸ hab)
    · exact Or.inl (hab ▸ hbc)
    · refine Or.inr ⟨hab.trans hbc, ?_⟩
      rcases hclass with hclass | ⟨hclass, hname⟩
      · rcases hother with hother | ⟨hother, -⟩
        · exact Or.inl (Std.lt_trans hclass hother)
        · exact Or.inl (hother ▸ hclass)
      · rcases hother with hother | ⟨hother, hnext⟩
        · exact Or.inl (hclass ▸ hother)
        · exact Or.inr ⟨hclass.trans hother, Std.le_trans hname hnext⟩

theorem sortByDepth_perm (codebase : CodebaseMetadata) (fuel : ℕ) (evaluations : List Word)
    (methods : List MethodIdentifier) :
    (codebase.sortByDepth fuel evaluations methods).Perm methods :=
  List.perm_insertionSort _ methods

theorem Layered.depth_lt {depths : Depths} (h : Layered codebase depths) {a b : Word}
    {depth lower : ℕ} (hdescends : codebase.Descends a b) (ha : HasDepth codebase depths a depth)
    (hb : HasDepth codebase depths b lower) : lower < depth := by
  have hsome : ∀ c depth, depths c = some depth → codebase.classLikes.get? c ≠ none := by
    intro c depth hc
    exact h.known c (by rw [hc]; exact Option.some_ne_none depth)
  rcases ha with ⟨hmissing, -⟩ | ha
  · exact absurd hmissing (Descends.known hdescends)
  · rcases h.descends hdescends ha with ⟨hmissing, hpos⟩ | ⟨found, hfound, hless⟩
    · rcases hb with ⟨-, hzero⟩ | hb
      · omega
      · exact absurd hmissing (hsome b lower hb)
    · rcases hb with ⟨hmissing, -⟩ | hb
      · exact absurd hmissing (hsome b found hfound)
      · rw [hfound] at hb
        injection hb with hb
        omega

/-- No method comes before one of an ancestor of its class. -/
theorem sortByDepth_pairwise (hacyclic : codebase.Acyclic)
    (hfuel : codebase.classLikes.keys.length < fuel) (evaluations : List Word)
    (methods : List MethodIdentifier) :
    (codebase.sortByDepth fuel evaluations methods).Pairwise fun earlier later =>
      ¬codebase.Descends earlier.className later.className := by
  obtain ⟨hlayered, hall⟩ :=
    depthsAfter_spec hacyclic hfuel (evaluations ++ methods.map (·.className))
  have hperm := codebase.sortByDepth_perm fuel evaluations methods
  unfold sortByDepth at hperm ⊢
  generalize codebase.depthsAfter fuel (evaluations ++ methods.map (·.className)) = depths at *
  have hsorted := List.pairwise_insertionSort (codebase.KeyLe fuel depths) methods
  have hknown : ∀ method ∈ methods.insertionSort (codebase.KeyLe fuel depths),
      ∃ depth, HasDepth codebase depths method.className depth := by
    intro method hmethod
    exact hall _ (List.mem_append_right _ (List.mem_map_of_mem (hperm.mem_iff.mp hmethod)))
  refine hsorted.imp_of_mem fun {earlier later} hearlier hlater hle hdescends => ?_
  obtain ⟨depth, hdepth⟩ := hknown earlier hearlier
  obtain ⟨lower, hlower⟩ := hknown later hlater
  have hless := hlayered.depth_lt hdescends hdepth hlower
  have hpos : 0 < fuel := by omega
  unfold KeyLe at hle
  rw [inheritanceDepth_of_hasDepth hlayered hdepth hpos,
    inheritanceDepth_of_hasDepth hlayered hlower hpos] at hle
  omega

end Order

/-! ## With and without a cache -/

/-- No target of the run takes from the cache the source of a method that it searches and that was
searched by way of the target. -/
def FreshRun (codebase : CodebaseMetadata) (fuel : ℕ)
    (overrides targets : List MethodIdentifier) : Prop :=
  (codebase.resolver overrides).FreshRun fuel (fun _ => none) targets

variable {fuel : ℕ}

theorem findSources_eq_plainSource (overrides targets : List MethodIdentifier)
    (hfuel : codebase.searchFuel targets ≤ fuel)
    (hfresh : codebase.FreshRun fuel overrides targets) :
    codebase.findSources fuel overrides targets =
      targets.map fun target => ⟨target, codebase.plainSource fuel overrides target⟩ := by
  have hfound := findAll_eq_map (resolver_closed overrides targets) (card_universe_lt hfuel)
    sound_empty targets (fun method h => List.mem_toFinset.mpr (mem_universe_of_mem h)) hfresh
  rw [findSources, hfound, List.map_map]
  rfl

/-- More fuel changes nothing. -/
theorem findSources_of_le (overrides targets : List MethodIdentifier)
    (hfuel : codebase.searchFuel targets ≤ fuel) :
    codebase.findSources fuel overrides targets =
      codebase.findSources (codebase.searchFuel targets) overrides targets := by
  have hfound := findAll_of_enough (resolver_closed overrides targets) (card_universe_lt le_rfl)
    hfuel (fun _ => none) targets fun method h => List.mem_toFinset.mpr (mem_universe_of_mem h)
  rw [findSources, hfound, findSources]

theorem map_target_findSources (overrides targets : List MethodIdentifier) :
    (codebase.findSources fuel overrides targets).map InheritedPatchMethod.target = targets := by
  rw [findSources, List.map_map]
  exact fst_findAll (fun _ => none) targets

theorem searchFuel_perm {targets others : List MethodIdentifier} (h : targets.Perm others) :
    codebase.searchFuel targets = codebase.searchFuel others := by
  have hlength := h.length_eq
  simp only [searchFuel, methodUniverse, methodNames, classNames, List.length_flatMap,
    List.length_map, List.length_append, List.map_const', List.sum_replicate, smul_eq_mul, hlength]

theorem freshRun_of_acyclic (hacyclic : codebase.Acyclic)
    (overrides targets : List MethodIdentifier) : codebase.FreshRun fuel overrides targets :=
  MemoSearch.freshRun_of_acyclic (resolver_acyclic hacyclic overrides) _ targets

/-- Without cycles the methods of ancestors come first. -/
theorem resolveInheritedPatchMethods_pairwise (hacyclic : codebase.Acyclic)
    (hfuel : codebase.classLikes.keys.length < fuel) (evaluations : List Word)
    (methods : List MethodIdentifier) :
    (codebase.resolveInheritedPatchMethods fuel evaluations methods).Pairwise
      fun earlier later =>
        ¬codebase.Descends earlier.target.className later.target.className := by
  have hsorted := sortByDepth_pairwise hacyclic hfuel evaluations methods
  have htargets : (codebase.resolveInheritedPatchMethods fuel evaluations methods).map
      InheritedPatchMethod.target = codebase.sortByDepth fuel evaluations methods :=
    map_target_findSources methods _
  rw [← htargets, List.pairwise_map] at hsorted
  exact hsorted

/-! ## A cycle -/

def method (className : String) : MethodIdentifier :=
  ⟨Ascii.ofString className, Ascii.ofString "f"⟩

def classLike (parent : Option String) (interfaces : List String) : ClassLikeMetadata where
  isTrait := false
  usedTraits := []
  declaredAncestry := none
  directParentClass := parent.map Ascii.ofString
  directParentInterfaces := interfaces.map Ascii.ofString
  traitAliasMap := .empty
  traitMethodAdaptations := none

/-- The class `q` extends `s`, which extends `q` and implements `i`. -/
def cyclicCodebase : CodebaseMetadata where
  classLikes := .ofList [(Ascii.ofString "a", classLike (some "q") []),
    (Ascii.ofString "q", classLike (some "s") []), (Ascii.ofString "s", classLike (some "q") ["i"]),
    (Ascii.ofString "i", classLike none [])]
  functionLikes := .ofList [((Ascii.ofString "i", Ascii.ofString "f"), ⟨some true, false⟩)]
  classLikeAliases := .empty

/-- The method of `s` gets itself as its source, by way of the source of the method of `q` that
the search for the one of `a` left. -/
theorem resolve_cyclicCodebase :
    cyclicCodebase.resolveInheritedPatchMethods (cyclicCodebase.searchFuel [method "a", method "s"])
        [Ascii.ofString "s", Ascii.ofString "a"] [method "a", method "s"] =
      [⟨method "a", some (method "s")⟩, ⟨method "s", some (method "s")⟩] ∧
    cyclicCodebase.plainSource (cyclicCodebase.searchFuel [method "a", method "s"])
        [method "a", method "s"] (method "s") = some (method "i") := by
  decide +kernel

theorem not_resolve_eq_plainSource : ¬∀ (codebase : CodebaseMetadata) (fuel : ℕ)
    (evaluations : List Word) (methods : List MethodIdentifier),
    codebase.searchFuel methods ≤ fuel →
    ∀ found ∈ codebase.resolveInheritedPatchMethods fuel evaluations methods,
      found.source = codebase.plainSource fuel methods found.target := by
  intro h
  obtain ⟨hfound, hplain⟩ := resolve_cyclicCodebase
  have hself := h cyclicCodebase _ [Ascii.ofString "s", Ascii.ofString "a"]
    [method "a", method "s"] le_rfl ⟨method "s", some (method "s")⟩
    (by rw [hfound]; exact List.mem_cons_of_mem _ List.mem_cons_self)
  have hne : method "s" ≠ method "i" := by decide
  exact hne (Option.some.inj (hself.trans hplain))

/-- The classes `q` and `r` extend `s`, which extends `t`. Only `t` declares the method. -/
def siblingsCodebase : CodebaseMetadata where
  classLikes := .ofList [(Ascii.ofString "q", classLike (some "s") []),
    (Ascii.ofString "r", classLike (some "s") []), (Ascii.ofString "s", classLike (some "t") []),
    (Ascii.ofString "t", classLike none [])]
  functionLikes := .ofList [((Ascii.ofString "t", Ascii.ofString "f"), ⟨some true, false⟩)]
  classLikeAliases := .empty

theorem isDirectAncestor_siblingsCodebase {x y : Word}
    (h : siblingsCodebase.IsDirectAncestor x y) :
    (x = Ascii.ofString "q" ∨ x = Ascii.ofString "r") ∧ y = Ascii.ofString "s" ∨
      x = Ascii.ofString "s" ∧ y = Ascii.ofString "t" := by
  obtain ⟨metadata, hmetadata, hy⟩ := h
  have hentry := OrderedMap.get?_eq_some_iff.mp hmetadata
  have hentries : siblingsCodebase.classLikes.entries =
      [(Ascii.ofString "q", classLike (some "s") []), (Ascii.ofString "r", classLike (some "s") []),
        (Ascii.ofString "s", classLike (some "t") []), (Ascii.ofString "t", classLike none [])] :=
    rfl
  rw [hentries] at hentry
  simp only [List.mem_cons, List.not_mem_nil, or_false, Prod.mk.injEq] at hentry
  obtain ⟨hx, hmeta⟩ | ⟨hx, hmeta⟩ | ⟨hx, hmeta⟩ | ⟨hx, hmeta⟩ := hentry <;> rw [hmeta] at hy
  · exact .inl ⟨.inl hx, List.mem_singleton.mp hy⟩
  · exact .inl ⟨.inr hx, List.mem_singleton.mp hy⟩
  · exact .inr ⟨hx, List.mem_singleton.mp hy⟩
  · cases hy

theorem siblingsCodebase_acyclic : siblingsCodebase.Acyclic := by
  have hends : ∀ x y, siblingsCodebase.Descends x y →
      (x = Ascii.ofString "q" ∨ x = Ascii.ofString "r" ∨ x = Ascii.ofString "s") ∧
        (y = Ascii.ofString "t" ∨ y = Ascii.ofString "s" ∧ x ≠ Ascii.ofString "s") := by
    intro x y h
    induction h with
    | single hxy =>
      obtain ⟨rfl | rfl, rfl⟩ | ⟨rfl, rfl⟩ := isDirectAncestor_siblingsCodebase hxy <;> decide
    | tail _ hyz ih =>
      obtain ⟨hy, -⟩ | ⟨-, rfl⟩ := isDirectAncestor_siblingsCodebase hyz
      · -- No chain ends in a class that extends `s`.
        have hne : ∀ y, y = Ascii.ofString "q" ∨ y = Ascii.ofString "r" →
            y ≠ Ascii.ofString "t" ∧ y ≠ Ascii.ofString "s" := by
          rintro y (rfl | rfl) <;> decide
        exact ih.2.elim (fun h => absurd h (hne _ hy).1) fun h => absurd h.1 (hne _ hy).2
      · exact ⟨ih.1, .inl rfl⟩
  intro x h
  obtain ⟨hx, h⟩ := hends x x h
  rcases hx with hx | hx | hx <;> rw [hx] at h <;> exact absurd h (by decide)

/-! ## Every run -/

/-- A run gives each method the source that a search without a cache finds, as long as no method
takes from the cache a source that was found by way of itself. Without cycles this is every run,
and methods of ancestors come first. -/
theorem resolveInheritedPatchMethods_spec (codebase : CodebaseMetadata) (fuel : ℕ) :
    (∀ overrides targets, codebase.searchFuel targets ≤ fuel →
      codebase.FreshRun fuel overrides targets →
      codebase.findSources fuel overrides targets =
        targets.map fun target => ⟨target, codebase.plainSource fuel overrides target⟩) ∧
    ∀ evaluations methods, codebase.searchFuel methods ≤ fuel →
      (codebase.sortByDepth fuel evaluations methods).Perm methods ∧
      (codebase.FreshRun fuel methods (codebase.sortByDepth fuel evaluations methods) →
        codebase.resolveInheritedPatchMethods fuel evaluations methods =
          (codebase.sortByDepth fuel evaluations methods).map fun method =>
            ⟨method, codebase.plainSource fuel methods method⟩) ∧
      (codebase.Acyclic →
        codebase.FreshRun fuel methods (codebase.sortByDepth fuel evaluations methods) ∧
        (codebase.resolveInheritedPatchMethods fuel evaluations methods).Pairwise
          fun earlier later =>
            ¬codebase.Descends earlier.target.className later.target.className) := by
  refine ⟨fun overrides targets => findSources_eq_plainSource overrides targets,
    fun evaluations methods hfuel => ?_⟩
  have hperm := codebase.sortByDepth_perm fuel evaluations methods
  refine ⟨hperm, fun hfresh => ?_, fun hacyclic => ⟨?_, ?_⟩⟩
  · refine findSources_eq_plainSource methods _ ?_ hfresh
    rw [searchFuel_perm hperm]
    exact hfuel
  · exact freshRun_of_acyclic hacyclic methods _
  · refine resolveInheritedPatchMethods_pairwise hacyclic ?_ evaluations methods
    unfold searchFuel at hfuel
    omega

/-- The search for the method of `r` reads the source of the one of `s` from the cache. -/
theorem resolveInheritedPatchMethods_spec_siblings :
    siblingsCodebase.resolveInheritedPatchMethods
        (siblingsCodebase.searchFuel [method "r", method "q", method "t"]) []
        [method "r", method "q", method "t"] =
      [⟨method "t", none⟩, ⟨method "q", some (method "t")⟩, ⟨method "r", some (method "t")⟩] :=
  (((resolveInheritedPatchMethods_spec siblingsCodebase _).2 []
      [method "r", method "q", method "t"] le_rfl).2.1
    (((resolveInheritedPatchMethods_spec siblingsCodebase _).2 []
      [method "r", method "q", method "t"] le_rfl).2.2 siblingsCodebase_acyclic).1).trans
    (by decide +kernel)

end CodebaseMetadata

end Mago.Codebase.Inherited
