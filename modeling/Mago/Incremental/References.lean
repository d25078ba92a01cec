import Mago.Algebra.Assertion
import Mago.Library.OrderedMap
import Mago.Library.Worklist

/-!
# References between symbols

The reference graph of a codebase and the propagation of a diff through it. A hash map or hash
set that is iterated is the list of its entries in the order they are visited, one that is only
built is a finite set.
-/
namespace Mago.Incremental
open Mago.Library Mago.Algebra

/-- A symbol and a member of it; the member is empty for the symbol itself. -/
abbrev SymbolIdentifier := Word × Word

def emptyWord : Word := []

abbrev ReferenceMap (κ : Type) := OrderedMap κ (List SymbolIdentifier)

structure SymbolReferences where
  symbolReferencesToSymbols : ReferenceMap SymbolIdentifier
  symbolReferencesToSymbolsInSignature : ReferenceMap SymbolIdentifier
  fileReferencesToSymbols : ReferenceMap Word
  fileReferencesToSymbolsInSignature : ReferenceMap Word

structure CodebaseDiff where
  changed : List SymbolIdentifier

def CodebaseDiff.containsChangedEntry (diff : CodebaseDiff) (entry : SymbolIdentifier) : Bool :=
  decide (entry ∈ diff.changed)

abbrev ReverseIndex := OrderedMap SymbolIdentifier (List SymbolIdentifier)

def ReverseIndex.referencingItems (index : ReverseIndex) (referenced : SymbolIdentifier) :
    List SymbolIdentifier :=
  (index.get? referenced).getD []

def ReverseIndex.push (index : ReverseIndex) (referenced referencingItem : SymbolIdentifier) :
    ReverseIndex :=
  index.insert referenced (ReverseIndex.referencingItems index referenced ++ [referencingItem])

/-- What the pass over the signature references collects. -/
structure Seeds where
  invalidSignatures : Finset SymbolIdentifier
  partiallyInvalidSymbols : Finset Word
  sigReverseIndex : ReverseIndex

def Seeds.visit (diff : CodebaseDiff) (seeds : Seeds)
    (entry : SymbolIdentifier × List SymbolIdentifier) : Seeds :=
  let containingSymbol := (entry.1.1, emptyWord)
  let owned := diff.containsChangedEntry containingSymbol
  { invalidSignatures :=
      if owned then insert entry.1 seeds.invalidSignatures else seeds.invalidSignatures
    partiallyInvalidSymbols :=
      if owned then insert entry.1.1 seeds.partiallyInvalidSymbols
      else seeds.partiallyInvalidSymbols
    sigReverseIndex :=
      entry.2.foldl (fun index referenced => ReverseIndex.push index referenced entry.1)
        seeds.sigReverseIndex }

def SymbolReferences.seeds (references : SymbolReferences) (diff : CodebaseDiff) : Seeds :=
  references.symbolReferencesToSymbolsInSignature.entries.foldl (Seeds.visit diff)
    ⟨∅, ∅, OrderedMap.empty⟩

/-- The state of the loop; the item that is popped next comes first. -/
structure Propagation where
  invalidSignatures : Finset SymbolIdentifier
  partiallyInvalidSymbols : Finset Word
  processedSymbols : List SymbolIdentifier
  symbolsToProcess : List SymbolIdentifier

namespace Propagation

def push (item : SymbolIdentifier) (state : Propagation) : Propagation :=
  if item ∈ state.processedSymbols then state
  else { state with symbolsToProcess := item :: state.symbolsToProcess }

def markProcessed (invalidatedItem : SymbolIdentifier) (state : Propagation) : Propagation :=
  { state with
    invalidSignatures := insert invalidatedItem state.invalidSignatures
    processedSymbols := invalidatedItem :: state.processedSymbols }

/-- A member marks its containing symbol for processing. -/
def promote (invalidatedItem : SymbolIdentifier) (state : Propagation) : Propagation :=
  if invalidatedItem.2 = emptyWord then state
  else
    push (invalidatedItem.1, emptyWord)
      { state with
        partiallyInvalidSymbols := insert invalidatedItem.1 state.partiallyInvalidSymbols }

def markReferencing (state : Propagation) (referencingItem : SymbolIdentifier) : Propagation :=
  let state := push referencingItem state
  { state with
    invalidSignatures := insert referencingItem state.invalidSignatures
    partiallyInvalidSymbols :=
      if referencingItem.2 = emptyWord then state.partiallyInvalidSymbols
      else insert referencingItem.1 state.partiallyInvalidSymbols }

def process (index : ReverseIndex) (invalidatedItem : SymbolIdentifier) (state : Propagation) :
    Propagation :=
  (ReverseIndex.referencingItems index invalidatedItem).foldl markReferencing
    (promote invalidatedItem (markProcessed invalidatedItem state))

/-- `none` when the expense limit is exceeded. -/
def run (index : ReverseIndex) : ℕ → Propagation → Option Propagation
  | expense, state =>
    match skipProcessed state.processedSymbols state.symbolsToProcess with
    | [] => some { state with symbolsToProcess := [] }
    | invalidatedItem :: rest =>
      match expense with
      | 0 => none
      | expense + 1 =>
        run index expense (process index invalidatedItem { state with symbolsToProcess := rest })

end Propagation

/-- What processing an item pushes, the top first. -/
def pushes (index : ReverseIndex) (processed : List SymbolIdentifier) (x : SymbolIdentifier) :
    List SymbolIdentifier :=
  ((ReverseIndex.referencingItems index x).filter fun y => decide (y ∉ processed)).reverse ++
    if x.2 ≠ emptyWord ∧ (x.1, emptyWord) ∉ processed then [(x.1, emptyWord)] else []

def expenseLimit : ℕ := 5000

def referencesAny (invalidSignatures : Finset SymbolIdentifier) (items : List SymbolIdentifier) :
    Bool :=
  items.any fun referenced => decide (referenced ∈ invalidSignatures)

def markOrigin {κ : Type} [DecidableEq κ] (invalidSignatures : Finset SymbolIdentifier)
    (origins : Finset κ) (entry : κ × List SymbolIdentifier) : Finset κ :=
  if referencesAny invalidSignatures entry.2 then insert entry.1 origins else origins

/-- The invalid bodies and the partially invalid symbols after one entry. -/
def visitBody (invalidSignatures : Finset SymbolIdentifier)
    (state : Finset SymbolIdentifier × Finset Word)
    (entry : SymbolIdentifier × List SymbolIdentifier) : Finset SymbolIdentifier × Finset Word :=
  (markOrigin invalidSignatures state.1 entry,
    if referencesAny invalidSignatures entry.2 ∧ entry.1.2 ≠ emptyWord then
      insert entry.1.1 state.2
    else state.2)

namespace SymbolReferences

/-- The state the loop starts from: the changed entries are to process. -/
def start (references : SymbolReferences) (diff : CodebaseDiff) : Propagation where
  invalidSignatures := (references.seeds diff).invalidSignatures
  partiallyInvalidSymbols := (references.seeds diff).partiallyInvalidSymbols
  processedSymbols := []
  symbolsToProcess := diff.changed.reverse

/-- The entries that are invalid, the symbols with an invalid member and the files whose
top-level code references an invalid signature. -/
def getInvalidSymbols (references : SymbolReferences) (diff : CodebaseDiff) :
    Option (Finset SymbolIdentifier × Finset Word × Finset Word) :=
  match Propagation.run (references.seeds diff).sigReverseIndex expenseLimit
    (references.start diff) with
  | none => none
  | some state =>
    let bodies :=
      references.symbolReferencesToSymbolsInSignature.entries.foldl
        (visitBody state.invalidSignatures)
        (references.symbolReferencesToSymbols.entries.foldl (visitBody state.invalidSignatures)
          (∅, state.partiallyInvalidSymbols))
    let invalidFiles :=
      (references.fileReferencesToSymbols.entries ++
        references.fileReferencesToSymbolsInSignature.entries).foldl
        (markOrigin state.invalidSignatures) ∅
    some (state.invalidSignatures ∪ bodies.1, bodies.2, invalidFiles)

/-- Some entry of the map has the origin and references the item. -/
def MapReferences {κ : Type} (map : ReferenceMap κ) (origin : κ) (item : SymbolIdentifier) :
    Prop :=
  ∃ items, (origin, items) ∈ map.entries ∧ item ∈ items

variable (references : SymbolReferences)

def ReferencesInSignature : SymbolIdentifier → SymbolIdentifier → Prop :=
  MapReferences references.symbolReferencesToSymbolsInSignature

/-- In the body or in the signature. -/
def References (origin item : SymbolIdentifier) : Prop :=
  MapReferences references.symbolReferencesToSymbols origin item ∨
    references.ReferencesInSignature origin item

def FileReferences (file : Word) (item : SymbolIdentifier) : Prop :=
  MapReferences references.fileReferencesToSymbols file item ∨
    MapReferences references.fileReferencesToSymbolsInSignature file item

end SymbolReferences

end Mago.Incremental
