import Mathlib
import Mago.Algebra.Assertion
import Mago.Library.PriorityMerge

/-!
# Codebase metadata

The declarations of a codebase and how the declarations of a file are merged into it. Two
declarations of one name compete by their flags and then by their spans, and the one that stays
is available in the versions of both; the table of symbols keeps the first kind it sees.
-/
namespace Mago.Codebase
open Mago.Library Mago.Algebra

abbrev PHPVersion := ℕ

structure PHPVersionRange where
  min : Option PHPVersion
  max : Option PHPVersion
  deriving DecidableEq, Repr

def PHPVersionRange.includes (range : PHPVersionRange) (version : PHPVersion) : Bool :=
  !(range.min.any fun min => decide (version < min)) &&
    !(range.max.any fun max => decide (max < version))

/-- The versions a symbol is available in; no range means every version. -/
structure VersionConstraint where
  ranges : List PHPVersionRange
  deriving DecidableEq, Repr

namespace VersionConstraint

def isUnconstrained (constraint : VersionConstraint) : Bool := constraint.ranges.isEmpty

def merge (constraint other : VersionConstraint) : VersionConstraint :=
  if constraint.isUnconstrained || other.isUnconstrained then ⟨[]⟩
  else ⟨constraint.ranges ++ other.ranges⟩

def allowsVersion (constraint : VersionConstraint) (version : PHPVersion) : Bool :=
  if constraint.ranges.isEmpty then true
  else constraint.ranges.any fun range => range.includes version

end VersionConstraint

/-- The bytes from `start` to `stop` of a file. -/
structure Span where
  fileId : ℕ
  start : ℕ
  stop : ℕ
  deriving DecidableEq, Repr

namespace Span

def key (span : Span) : ℕ ×ₗ ℕ ×ₗ ℕ := toLex (span.fileId, toLex (span.start, span.stop))

theorem key_injective : Function.Injective key := by
  intro a b h
  obtain ⟨fileId, start, stop⟩ := a
  obtain ⟨fileId', start', stop'⟩ := b
  simpa [key] using h

/-- By file, then by start, then by end. -/
instance : LinearOrder Span := LinearOrder.lift' key key_injective

end Span

/-- The flags that say where a declaration comes from. -/
structure MetadataFlags where
  isUserDefined : Bool
  isPatch : Bool
  isExternal : Bool
  isBuiltIn : Bool
  isPolyfill : Bool
  deriving DecidableEq, Repr

inductive SymbolKind where
  | Class
  | enum
  | trait
  | interface
  deriving DecidableEq, Repr

/-- A declaration; the details are what merging does not read. -/
structure Metadata (δ : Type) where
  flags : MetadataFlags
  span : Span
  versionConstraint : VersionConstraint
  details : δ
  deriving DecidableEq, Repr

structure ClassLikeDetails where
  name : Word
  kind : SymbolKind
  deriving DecidableEq, Repr

abbrev ClassLikeMetadata := Metadata ClassLikeDetails

/-- The details of a function are its name, a closure has none. -/
abbrev FunctionLikeMetadata := Metadata (Option Word)

abbrev ConstantMetadata := Metadata Word

def shouldReplaceMetadata (existingFlags : MetadataFlags) (existingSpan : Span)
    (newFlags : MetadataFlags) (newSpan : Span) : Bool :=
  if newFlags.isUserDefined ≠ existingFlags.isUserDefined then newFlags.isUserDefined
  else if newFlags.isPatch ≠ existingFlags.isPatch then newFlags.isPatch
  else if newFlags.isExternal ≠ existingFlags.isExternal then newFlags.isExternal
  else if newFlags.isBuiltIn ≠ existingFlags.isBuiltIn then newFlags.isBuiltIn
  else if newFlags.isPolyfill ≠ existingFlags.isPolyfill then !newFlags.isPolyfill
  else decide (newSpan < existingSpan)

section Entries

variable {δ : Type}

def Metadata.absorb (kept dropped : Metadata δ) : Metadata δ :=
  { kept with versionConstraint := kept.versionConstraint.merge dropped.versionConstraint }

/-- What an occupied entry holds after a declaration came. -/
def mergeMetadata (existing new : Metadata δ) : Metadata δ :=
  if shouldReplaceMetadata existing.flags existing.span new.flags new.span then
    new.absorb existing
  else existing.absorb new

end Entries

def mergeFunctionLikes (target incoming : OrderedMap (Word × Word) FunctionLikeMetadata) :
    OrderedMap (Word × Word) FunctionLikeMetadata :=
  target.upsertAll mergeMetadata incoming

/-- The kinds of the known class-likes and the namespaces they are in. -/
structure Symbols where
  all : OrderedMap Word SymbolKind
  namespaces : Finset Word

namespace Symbols

def empty : Symbols := ⟨OrderedMap.empty, ∅⟩

/-- The kind that is there stays. -/
def extend (symbols other : Symbols) : Symbols where
  all := symbols.all.upsertAll (fun kind _ => kind) other.all
  namespaces := symbols.namespaces ∪ other.namespaces

def extendRef (symbols other : Symbols) : Symbols where
  all := symbols.all.upsertAll (fun kind _ => kind) other.all
  namespaces := symbols.namespaces ∪ other.namespaces

end Symbols

structure CodebaseMetadata where
  classLikes : OrderedMap Word ClassLikeMetadata
  functionLikes : OrderedMap (Word × Word) FunctionLikeMetadata
  constants : OrderedMap Word ConstantMetadata
  symbols : Symbols

namespace CodebaseMetadata

def empty : CodebaseMetadata := ⟨OrderedMap.empty, OrderedMap.empty, OrderedMap.empty, Symbols.empty⟩

def extend (codebase other : CodebaseMetadata) : CodebaseMetadata where
  classLikes := codebase.classLikes.upsertAll mergeMetadata other.classLikes
  functionLikes := mergeFunctionLikes codebase.functionLikes other.functionLikes
  constants := codebase.constants.upsertAll mergeMetadata other.constants
  symbols := codebase.symbols.extend other.symbols

def extendRef (codebase other : CodebaseMetadata) : CodebaseMetadata where
  classLikes := codebase.classLikes.upsertAll mergeMetadata other.classLikes
  functionLikes := codebase.functionLikes.upsertAll mergeMetadata other.functionLikes
  constants := codebase.constants.upsertAll mergeMetadata other.constants
  symbols := codebase.symbols.extendRef other.symbols

/-- The functions and the symbols are taken out of the parts and merged on other threads. -/
def extendManyParallel (currentNumThreads : ℕ) (codebase : CodebaseMetadata)
    (others : List CodebaseMetadata) : CodebaseMetadata :=
  if others.length < 128 ∨ currentNumThreads = 1 then others.foldl extend codebase
  else
    let functions := others.map functionLikes
    let partialSymbols := others.map symbols
    let others := others.map fun other =>
      { other with functionLikes := OrderedMap.empty, symbols := Symbols.empty }
    let functionLikes := functions.foldl mergeFunctionLikes codebase.functionLikes
    let symbols := partialSymbols.foldl Symbols.extend codebase.symbols
    let codebase := others.foldl extend
      { codebase with functionLikes := OrderedMap.empty, symbols := Symbols.empty }
    { codebase with functionLikes, symbols }

end CodebaseMetadata

section Priority

variable {δ : Type}

/-- User-defined first, then patches, external and built-in declarations, no polyfill, and the
smaller span. -/
abbrev Rank := Bool ×ₗ Bool ×ₗ Bool ×ₗ Bool ×ₗ Bool ×ₗ Span

def rank (flags : MetadataFlags) (span : Span) : Rank :=
  toLex (!flags.isUserDefined, toLex (!flags.isPatch, toLex (!flags.isExternal,
    toLex (!flags.isBuiltIn, toLex (flags.isPolyfill, span)))))

theorem toLex_lt_iff {α : Type*} [LinearOrder α] (a b : Bool) (x y : α) :
    toLex (a, x) < toLex (b, y) ↔ if a ≠ b then a < b else x < y := by
  rw [Prod.Lex.toLex_lt_toLex]
  split_ifs with h
  · simp [h]
  · obtain rfl := not_not.mp h
    simp

theorem not_lt_not_iff {a b : Bool} (h : a ≠ b) : (!a) < (!b) ↔ a = true := by
  cases a <;> cases b <;> first | exact absurd rfl h | decide

theorem rank_lt_iff (existingFlags newFlags : MetadataFlags) (existingSpan newSpan : Span) :
    rank newFlags newSpan < rank existingFlags existingSpan ↔
      shouldReplaceMetadata existingFlags existingSpan newFlags newSpan = true := by
  unfold rank shouldReplaceMetadata
  simp only [toLex_lt_iff, ne_eq, Bool.not_inj_iff]
  split_ifs with huser hpatch hexternal hbuiltIn hpolyfill
  · exact decide_eq_true_iff.symm
  · rw [← not_lt_not_iff (fun h => hpolyfill (Bool.not_inj h)), Bool.not_not, Bool.not_not]
  · exact not_lt_not_iff hbuiltIn
  · exact not_lt_not_iff hexternal
  · exact not_lt_not_iff hpatch
  · exact not_lt_not_iff huser

theorem rank_injective_span {flags flags' : MetadataFlags} {span span' : Span}
    (h : rank flags span = rank flags' span') : span = span' := by
  simp only [rank, toLex_inj, Prod.mk.injEq] at h
  exact h.2.2.2.2.2

theorem allowsVersion_merge (constraint other : VersionConstraint) (version : PHPVersion) :
    (constraint.merge other).allowsVersion version =
      (constraint.allowsVersion version || other.allowsVersion version) := by
  obtain ⟨ranges⟩ := constraint
  obtain ⟨ranges'⟩ := other
  cases ranges with
  | nil => rfl
  | cons range ranges =>
    cases ranges' with
    | nil => exact (Bool.or_true _).symm
    | cons range' ranges' =>
      simp [VersionConstraint.merge, VersionConstraint.isUnconstrained,
        VersionConstraint.allowsVersion, List.any_append, Bool.or_assoc]

/-- How the declarations of a name are merged. -/
def priority (δ : Type) :
    PriorityMerge (Metadata δ) (MetadataFlags × Span × δ) Rank PHPVersion where
  core := fun metadata => (metadata.flags, metadata.span, metadata.details)
  rank := fun core => rank core.1 core.2.1
  allows := fun metadata => {version | metadata.versionConstraint.allowsVersion version = true}
  absorb := Metadata.absorb
  core_absorb := fun _ _ => rfl
  allows_absorb := by
    intro kept dropped
    ext version
    simp [Metadata.absorb, allowsVersion_merge]

theorem mergeMetadata_eq : mergeMetadata = (priority δ).merge := by
  funext existing new
  unfold mergeMetadata PriorityMerge.merge
  refine if_congr ?_ rfl rfl
  exact (rank_lt_iff existing.flags new.flags existing.span new.span).symm

end Priority

end Mago.Codebase
