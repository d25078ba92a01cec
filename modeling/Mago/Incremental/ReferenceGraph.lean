import Mago.Incremental.Dependencies

/-!
# The reference graph

The references of a codebase as they are recorded: every call stands for a few edges that depend
on its arguments alone, and merging two graphs puts their edges together. The edges determine
the graph, so the order of the calls and of the merges does not matter.
-/
namespace Mago.Incremental.ReferenceGraph
open Mago.Library

abbrev Word := List UInt8

def emptyWord : Word := []

/-- A symbol and a member of it; the member is empty for the symbol itself. -/
abbrev SymbolIdentifier := Word × Word

inductive FunctionLikeIdentifier
  | function (name : Word)
  | method (className name : Word)
  | closure (name : Word)
  deriving DecidableEq, Repr

inductive ReferenceOrigin
  | symbol (identifier : SymbolIdentifier)
  | file (name : Word)
  deriving DecidableEq, Repr

abbrev References (κ : Type) := EdgeMap κ SymbolIdentifier

structure SymbolReferences where
  symbolReferencesToSymbols : References SymbolIdentifier
  symbolReferencesToSymbolsInSignature : References SymbolIdentifier
  symbolReferencesToOverriddenMembers : References SymbolIdentifier
  functionlikeReferencesToFunctionlikeReturns :
    EdgeMap FunctionLikeIdentifier FunctionLikeIdentifier
  fileReferencesToSymbols : References Word
  fileReferencesToSymbolsInSignature : References Word
  propertyWriteReferences : References SymbolIdentifier
  propertyReadReferences : References SymbolIdentifier
  filePropertyWriteReferences : References Word
  filePropertyReadReferences : References Word

namespace SymbolReferences

def new : SymbolReferences where
  symbolReferencesToSymbols := .empty
  symbolReferencesToSymbolsInSignature := .empty
  symbolReferencesToOverriddenMembers := .empty
  functionlikeReferencesToFunctionlikeReturns := .empty
  fileReferencesToSymbols := .empty
  fileReferencesToSymbolsInSignature := .empty
  propertyWriteReferences := .empty
  propertyReadReferences := .empty
  filePropertyWriteReferences := .empty
  filePropertyReadReferences := .empty

variable (r : SymbolReferences)

def symbols : Dependencies SymbolIdentifier SymbolIdentifier :=
  ⟨r.symbolReferencesToSymbols, r.symbolReferencesToSymbolsInSignature⟩

def files : Dependencies Word SymbolIdentifier :=
  ⟨r.fileReferencesToSymbols, r.fileReferencesToSymbolsInSignature⟩

def withSymbols (maps : Dependencies SymbolIdentifier SymbolIdentifier) : SymbolReferences :=
  { r with
    symbolReferencesToSymbols := maps.body
    symbolReferencesToSymbolsInSignature := maps.signature }

def withFiles (maps : Dependencies Word SymbolIdentifier) : SymbolReferences :=
  { r with
    fileReferencesToSymbols := maps.body
    fileReferencesToSymbolsInSignature := maps.signature }

def addSymbolDependency (origin target : SymbolIdentifier) (inSignature : Bool) :
    SymbolReferences :=
  r.withSymbols (insertDependency r.symbols origin target inSignature)

def addFileDependency (file : Word) (target : SymbolIdentifier) (inSignature : Bool) :
    SymbolReferences :=
  r.withFiles (insertDependency r.files file target inSignature)

/-- A reference of a symbol to itself is left out. -/
def addSymbolReferenceToSymbol (referencingSymbol symbol : Word) (inSignature : Bool) :
    SymbolReferences :=
  if referencingSymbol = symbol then r
  else r.addSymbolDependency (referencingSymbol, emptyWord) (symbol, emptyWord) inSignature

/-- A reference to a member is one to its class as well, from a body. -/
def addSymbolReferenceToClassMember (referencingSymbol : Word) (classMember : SymbolIdentifier)
    (inSignature : Bool) : SymbolReferences :=
  (r.addSymbolReferenceToSymbol referencingSymbol classMember.1 false).addSymbolDependency
    (referencingSymbol, emptyWord) classMember inSignature

def addClassMemberReferenceToSymbol (referencingClassMember : SymbolIdentifier) (symbol : Word)
    (inSignature : Bool) : SymbolReferences :=
  if referencingClassMember.1 = symbol then r
  else
    (r.addSymbolReferenceToSymbol referencingClassMember.1 symbol false).addSymbolDependency
      referencingClassMember (symbol, emptyWord) inSignature

def addClassMemberReferenceToClassMember (referencingClassMember classMember : SymbolIdentifier)
    (inSignature : Bool) : SymbolReferences :=
  if referencingClassMember = classMember then r
  else
    ((r.addSymbolReferenceToSymbol referencingClassMember.1 classMember.1
      false).addClassMemberReferenceToSymbol referencingClassMember classMember.1
        false).addSymbolDependency referencingClassMember classMember inSignature

def addSymbolReference (referencing referenced : SymbolIdentifier) (inSignature : Bool) :
    SymbolReferences :=
  match referencing.2.isEmpty, referenced.2.isEmpty with
  | true, true => r.addSymbolReferenceToSymbol referencing.1 referenced.1 inSignature
  | true, false => r.addSymbolReferenceToClassMember referencing.1 referenced inSignature
  | false, true => r.addClassMemberReferenceToSymbol referencing referenced.1 inSignature
  | false, false => r.addClassMemberReferenceToClassMember referencing referenced inSignature

/-- The class of a member is referenced without a member, which ends the recursion. -/
def addFileReferenceToClassMember (fileName : Word) (classMember : SymbolIdentifier)
    (inSignature : Bool) : SymbolReferences :=
  let r := if classMember.2.isEmpty then r
    else r.addFileDependency fileName (classMember.1, emptyWord) false
  r.addFileDependency fileName classMember inSignature

def addReference (referencing : ReferenceOrigin) (referenced : SymbolIdentifier)
    (inSignature : Bool) : SymbolReferences :=
  match referencing with
  | .symbol referencing => r.addSymbolReference referencing referenced inSignature
  | .file file => r.addFileReferenceToClassMember file referenced inSignature

def addPropertyReadReference (referencing : ReferenceOrigin) (property : SymbolIdentifier) :
    SymbolReferences :=
  let r := r.addReference referencing property false
  match referencing with
  | .symbol symbol =>
    { r with propertyReadReferences := insertReference r.propertyReadReferences symbol property }
  | .file file =>
    { r with
      filePropertyReadReferences := insertReference r.filePropertyReadReferences file property }

def addPropertyWriteReference (referencing : ReferenceOrigin) (property : SymbolIdentifier) :
    SymbolReferences :=
  let r := r.addReference referencing property false
  match referencing with
  | .symbol symbol =>
    { r with propertyWriteReferences := insertReference r.propertyWriteReferences symbol property }
  | .file file =>
    { r with
      filePropertyWriteReferences := insertReference r.filePropertyWriteReferences file property }

def addOverriddenMemberReference (referencing overridden : SymbolIdentifier) : SymbolReferences :=
  { r with
    symbolReferencesToOverriddenMembers :=
      insertReference r.symbolReferencesToOverriddenMembers referencing overridden }

def addReferenceToFunctionlikeReturn (referencing referenced : FunctionLikeIdentifier) :
    SymbolReferences :=
  if referencing = referenced then r
  else { r with
    functionlikeReferencesToFunctionlikeReturns :=
      insertReference r.functionlikeReferencesToFunctionlikeReturns referencing referenced }

/-- A symbol without a member is a function, one with a member a method. -/
def functionLike (identifier : SymbolIdentifier) : FunctionLikeIdentifier :=
  if identifier.2.isEmpty then .function identifier.1 else .method identifier.1 identifier.2

def addFunctionlikeReturnReference (referencing referenced : SymbolIdentifier) :
    SymbolReferences :=
  r.addReferenceToFunctionlikeReturn (functionLike referencing) (functionLike referenced)

def extend (other : SymbolReferences) : SymbolReferences :=
  let symbols := extendDependencies r.symbols other.symbols
  let files := extendDependencies r.files other.files
  { symbolReferencesToSymbols := symbols.body
    symbolReferencesToSymbolsInSignature := symbols.signature
    symbolReferencesToOverriddenMembers := extendReferenceMap
      r.symbolReferencesToOverriddenMembers other.symbolReferencesToOverriddenMembers
    functionlikeReferencesToFunctionlikeReturns := extendReferenceMap
      r.functionlikeReferencesToFunctionlikeReturns
      other.functionlikeReferencesToFunctionlikeReturns
    fileReferencesToSymbols := files.body
    fileReferencesToSymbolsInSignature := files.signature
    propertyWriteReferences :=
      extendReferenceMap r.propertyWriteReferences other.propertyWriteReferences
    propertyReadReferences :=
      extendReferenceMap r.propertyReadReferences other.propertyReadReferences
    filePropertyWriteReferences :=
      extendReferenceMap r.filePropertyWriteReferences other.filePropertyWriteReferences
    filePropertyReadReferences :=
      extendReferenceMap r.filePropertyReadReferences other.filePropertyReadReferences }

end SymbolReferences

/-! ## Edges -/

/-- What one insertion into one of the maps records. -/
inductive Edge
  | symbol (inSignature : Bool) (origin target : SymbolIdentifier)
  | file (inSignature : Bool) (file : Word) (target : SymbolIdentifier)
  | overridden (origin target : SymbolIdentifier)
  | functionReturn (origin target : FunctionLikeIdentifier)
  | write (origin property : SymbolIdentifier)
  | read (origin property : SymbolIdentifier)
  | fileWrite (file : Word) (property : SymbolIdentifier)
  | fileRead (file : Word) (property : SymbolIdentifier)

/-- The edges of one kind, as pairs. -/
def edgesOf {κ ν : Type} (kind : κ → ν → Edge) (edges : Set Edge) : Set (κ × ν) :=
  {p | kind p.1 p.2 ∈ edges}

namespace SymbolReferences

/-- The graph that a set of edges determines. -/
structure Represents (r : SymbolReferences) (edges : Set Edge) : Prop where
  symbols : r.symbols.HoldsBoth (edgesOf (Edge.symbol false) edges)
    (edgesOf (Edge.symbol true) edges)
  files : r.files.HoldsBoth (edgesOf (Edge.file false) edges) (edgesOf (Edge.file true) edges)
  overridden : Holds r.symbolReferencesToOverriddenMembers (edgesOf Edge.overridden edges)
  functionReturn : Holds r.functionlikeReferencesToFunctionlikeReturns
    (edgesOf Edge.functionReturn edges)
  write : Holds r.propertyWriteReferences (edgesOf Edge.write edges)
  read : Holds r.propertyReadReferences (edgesOf Edge.read edges)
  fileWrite : Holds r.filePropertyWriteReferences (edgesOf Edge.fileWrite edges)
  fileRead : Holds r.filePropertyReadReferences (edgesOf Edge.fileRead edges)

/-- The insertion of one edge. -/
def record (r : SymbolReferences) : Edge → SymbolReferences
  | .symbol inSignature origin target => r.addSymbolDependency origin target inSignature
  | .file inSignature file target => r.addFileDependency file target inSignature
  | .overridden origin target => r.addOverriddenMemberReference origin target
  | .functionReturn origin target => { r with
      functionlikeReferencesToFunctionlikeReturns :=
        insertReference r.functionlikeReferencesToFunctionlikeReturns origin target }
  | .write origin property => { r with
      propertyWriteReferences := insertReference r.propertyWriteReferences origin property }
  | .read origin property => { r with
      propertyReadReferences := insertReference r.propertyReadReferences origin property }
  | .fileWrite file property => { r with
      filePropertyWriteReferences :=
        insertReference r.filePropertyWriteReferences file property }
  | .fileRead file property => { r with
      filePropertyReadReferences := insertReference r.filePropertyReadReferences file property }

end SymbolReferences

@[simp] theorem edgesOf_empty {κ ν : Type} (kind : κ → ν → Edge) : edgesOf kind ∅ = ∅ := rfl

/-- An edge of the kind joins the pairs. -/
theorem edgesOf_insert_self {κ ν : Type} {kind : κ → ν → Edge} {edges : Set Edge} {k : κ} {v : ν}
    (hinj : ∀ k' v', kind k' v' = kind k v → k' = k ∧ v' = v) :
    edgesOf kind (insert (kind k v) edges) = insert (k, v) (edgesOf kind edges) := by
  ext ⟨k', v'⟩
  simp only [edgesOf, Set.mem_ofPred_eq, Set.mem_insert_iff, Prod.mk.injEq]
  constructor
  · rintro (h | h)
    · exact Or.inl (hinj k' v' h)
    · exact Or.inr h
  · rintro (⟨rfl, rfl⟩ | h)
    · exact Or.inl rfl
    · exact Or.inr h

/-- An edge of another kind does not. -/
theorem edgesOf_insert_of_ne {κ ν : Type} {kind : κ → ν → Edge} {edges : Set Edge} {e : Edge}
    (hne : ∀ k v, kind k v ≠ e) : edgesOf kind (insert e edges) = edgesOf kind edges := by
  ext ⟨k, v⟩
  simp only [edgesOf, Set.mem_ofPred_eq, Set.mem_insert_iff]
  constructor
  · intro h
    exact h.resolve_left (hne k v)
  · exact Or.inr

namespace SymbolReferences

theorem represents_new : new.Represents ∅ where
  symbols := ⟨by rw [edgesOf_empty, Set.empty_sdiff]; exact holds_empty, holds_empty⟩
  files := ⟨by rw [edgesOf_empty, Set.empty_sdiff]; exact holds_empty, holds_empty⟩
  overridden := holds_empty
  functionReturn := holds_empty
  write := holds_empty
  read := holds_empty
  fileWrite := holds_empty
  fileRead := holds_empty

/-- One map gets the edge, the others see no edge of theirs. -/
theorem Represents.record {r : SymbolReferences} {edges : Set Edge} (h : r.Represents edges)
    (e : Edge) : (r.record e).Represents (insert e edges) := by
  obtain ⟨hsymbols, hfiles, hoverridden, hreturn, hwrite, hread, hfileWrite, hfileRead⟩ := h
  cases e with
  | symbol inSignature origin target =>
    constructor
    case symbols =>
      cases inSignature with
      | false =>
        rw [edgesOf_insert_self (by simp), edgesOf_insert_of_ne (by simp)]
        exact hsymbols.insertBody origin target
      | true =>
        rw [edgesOf_insert_self (by simp), edgesOf_insert_of_ne (by simp)]
        exact hsymbols.insertSignature origin target
    all_goals simp only [ne_eq, reduceCtorEq, not_false_eq_true, implies_true,
      edgesOf_insert_of_ne]; assumption
  | file inSignature file target =>
    constructor
    case files =>
      cases inSignature with
      | false =>
        rw [edgesOf_insert_self (by simp), edgesOf_insert_of_ne (by simp)]
        exact hfiles.insertBody file target
      | true =>
        rw [edgesOf_insert_self (by simp), edgesOf_insert_of_ne (by simp)]
        exact hfiles.insertSignature file target
    all_goals simp only [ne_eq, reduceCtorEq, not_false_eq_true, implies_true,
      edgesOf_insert_of_ne]; assumption
  | overridden origin target =>
    constructor
    case overridden =>
      rw [edgesOf_insert_self (by simp)]
      exact hoverridden.insertReference origin target
    all_goals simp only [ne_eq, reduceCtorEq, not_false_eq_true, implies_true,
      edgesOf_insert_of_ne]; assumption
  | functionReturn origin target =>
    constructor
    case functionReturn =>
      rw [edgesOf_insert_self (by simp)]
      exact hreturn.insertReference origin target
    all_goals simp only [ne_eq, reduceCtorEq, not_false_eq_true, implies_true,
      edgesOf_insert_of_ne]; assumption
  | write origin property =>
    constructor
    case write =>
      rw [edgesOf_insert_self (by simp)]
      exact hwrite.insertReference origin property
    all_goals simp only [ne_eq, reduceCtorEq, not_false_eq_true, implies_true,
      edgesOf_insert_of_ne]; assumption
  | read origin property =>
    constructor
    case read =>
      rw [edgesOf_insert_self (by simp)]
      exact hread.insertReference origin property
    all_goals simp only [ne_eq, reduceCtorEq, not_false_eq_true, implies_true,
      edgesOf_insert_of_ne]; assumption
  | fileWrite file property =>
    constructor
    case fileWrite =>
      rw [edgesOf_insert_self (by simp)]
      exact hfileWrite.insertReference file property
    all_goals simp only [ne_eq, reduceCtorEq, not_false_eq_true, implies_true,
      edgesOf_insert_of_ne]; assumption
  | fileRead file property =>
    constructor
    case fileRead =>
      rw [edgesOf_insert_self (by simp)]
      exact hfileRead.insertReference file property
    all_goals simp only [ne_eq, reduceCtorEq, not_false_eq_true, implies_true,
      edgesOf_insert_of_ne]; assumption

/-- Many insertions, by induction on the edges. -/
theorem Represents.foldl_record {r : SymbolReferences} {edges : Set Edge}
    (h : r.Represents edges) (added : List Edge) :
    (added.foldl SymbolReferences.record r).Represents (edges ∪ {e | e ∈ added}) := by
  induction added generalizing r edges with
  | nil => simpa using h
  | cons e added ih =>
    have hrest := ih (h.record e)
    have hset : insert e edges ∪ {e' | e' ∈ added} = edges ∪ {e' | e' ∈ e :: added} := by
      ext e'
      simp only [Set.mem_union, Set.mem_insert_iff, Set.mem_ofPred_eq, List.mem_cons]
      tauto
    rwa [hset] at hrest

theorem Represents.extend {r other : SymbolReferences} {edges edges' : Set Edge}
    (h : r.Represents edges) (h' : other.Represents edges') :
    (r.extend other).Represents (edges ∪ edges') where
  symbols := h.symbols.extend h'.symbols
  files := h.files.extend h'.files
  overridden := h.overridden.extendReferenceMap h'.overridden
  functionReturn := h.functionReturn.extendReferenceMap h'.functionReturn
  write := h.write.extendReferenceMap h'.write
  read := h.read.extendReferenceMap h'.read
  fileWrite := h.fileWrite.extendReferenceMap h'.fileWrite
  fileRead := h.fileRead.extendReferenceMap h'.fileRead

/-- The edges determine the graph. -/
theorem Represents.unique {r r' : SymbolReferences} {edges : Set Edge} (h : r.Represents edges)
    (h' : r'.Represents edges) : r = r' := by
  have hbody := h.symbols.body.unique h'.symbols.body
  have hsignature := h.symbols.signature.unique h'.symbols.signature
  have hfileBody := h.files.body.unique h'.files.body
  have hfileSignature := h.files.signature.unique h'.files.signature
  have hoverridden := h.overridden.unique h'.overridden
  have hreturn := h.functionReturn.unique h'.functionReturn
  have hwrite := h.write.unique h'.write
  have hread := h.read.unique h'.read
  have hfileWrite := h.fileWrite.unique h'.fileWrite
  have hfileRead := h.fileRead.unique h'.fileRead
  cases r
  cases r'
  rw [mk.injEq]
  exact ⟨hbody, hsignature, hoverridden, hreturn, hfileBody, hfileSignature, hwrite, hread,
    hfileWrite, hfileRead⟩

end SymbolReferences

/-! ## Calls -/

/-- The recording functions with their arguments. -/
inductive Call
  | symbolToSymbol (referencing symbol : Word) (inSignature : Bool)
  | symbolToMember (referencing : Word) (classMember : SymbolIdentifier) (inSignature : Bool)
  | memberToSymbol (referencing : SymbolIdentifier) (symbol : Word) (inSignature : Bool)
  | memberToMember (referencing classMember : SymbolIdentifier) (inSignature : Bool)
  | symbolReference (referencing referenced : SymbolIdentifier) (inSignature : Bool)
  | fileToMember (fileName : Word) (classMember : SymbolIdentifier) (inSignature : Bool)
  | reference (referencing : ReferenceOrigin) (referenced : SymbolIdentifier)
    (inSignature : Bool)
  | propertyRead (referencing : ReferenceOrigin) (property : SymbolIdentifier)
  | propertyWrite (referencing : ReferenceOrigin) (property : SymbolIdentifier)
  | overriddenMember (referencing overridden : SymbolIdentifier)
  | functionlikeReturn (referencing referenced : FunctionLikeIdentifier)
  | returnReference (referencing referenced : SymbolIdentifier)

namespace SymbolReferences

def perform (r : SymbolReferences) : Call → SymbolReferences
  | .symbolToSymbol referencing symbol inSignature =>
    r.addSymbolReferenceToSymbol referencing symbol inSignature
  | .symbolToMember referencing classMember inSignature =>
    r.addSymbolReferenceToClassMember referencing classMember inSignature
  | .memberToSymbol referencing symbol inSignature =>
    r.addClassMemberReferenceToSymbol referencing symbol inSignature
  | .memberToMember referencing classMember inSignature =>
    r.addClassMemberReferenceToClassMember referencing classMember inSignature
  | .symbolReference referencing referenced inSignature =>
    r.addSymbolReference referencing referenced inSignature
  | .fileToMember fileName classMember inSignature =>
    r.addFileReferenceToClassMember fileName classMember inSignature
  | .reference referencing referenced inSignature =>
    r.addReference referencing referenced inSignature
  | .propertyRead referencing property => r.addPropertyReadReference referencing property
  | .propertyWrite referencing property => r.addPropertyWriteReference referencing property
  | .overriddenMember referencing overridden =>
    r.addOverriddenMemberReference referencing overridden
  | .functionlikeReturn referencing referenced =>
    r.addReferenceToFunctionlikeReturn referencing referenced
  | .returnReference referencing referenced =>
    r.addFunctionlikeReturnReference referencing referenced

end SymbolReferences

/-! What a call records is read off its arguments. -/

def symbolEdges (referencing symbol : Word) (inSignature : Bool) : List Edge :=
  if referencing = symbol then []
  else [.symbol inSignature (referencing, emptyWord) (symbol, emptyWord)]

def symbolMemberEdges (referencing : Word) (classMember : SymbolIdentifier)
    (inSignature : Bool) : List Edge :=
  symbolEdges referencing classMember.1 false ++
    [.symbol inSignature (referencing, emptyWord) classMember]

def memberSymbolEdges (referencing : SymbolIdentifier) (symbol : Word) (inSignature : Bool) :
    List Edge :=
  if referencing.1 = symbol then []
  else symbolEdges referencing.1 symbol false ++
    [.symbol inSignature referencing (symbol, emptyWord)]

def memberEdges (referencing classMember : SymbolIdentifier) (inSignature : Bool) : List Edge :=
  if referencing = classMember then []
  else symbolEdges referencing.1 classMember.1 false ++
    memberSymbolEdges referencing classMember.1 false ++
    [.symbol inSignature referencing classMember]

def identifierEdges (referencing referenced : SymbolIdentifier) (inSignature : Bool) :
    List Edge :=
  match referencing.2.isEmpty, referenced.2.isEmpty with
  | true, true => symbolEdges referencing.1 referenced.1 inSignature
  | true, false => symbolMemberEdges referencing.1 referenced inSignature
  | false, true => memberSymbolEdges referencing referenced.1 inSignature
  | false, false => memberEdges referencing referenced inSignature

def fileEdges (fileName : Word) (classMember : SymbolIdentifier) (inSignature : Bool) :
    List Edge :=
  (if classMember.2.isEmpty then [] else [.file false fileName (classMember.1, emptyWord)]) ++
    [.file inSignature fileName classMember]

def originEdges (referencing : ReferenceOrigin) (referenced : SymbolIdentifier)
    (inSignature : Bool) : List Edge :=
  match referencing with
  | .symbol referencing => identifierEdges referencing referenced inSignature
  | .file file => fileEdges file referenced inSignature

def readEdges (referencing : ReferenceOrigin) (property : SymbolIdentifier) : List Edge :=
  originEdges referencing property false ++
    match referencing with
    | .symbol symbol => [.read symbol property]
    | .file file => [.fileRead file property]

def writeEdges (referencing : ReferenceOrigin) (property : SymbolIdentifier) : List Edge :=
  originEdges referencing property false ++
    match referencing with
    | .symbol symbol => [.write symbol property]
    | .file file => [.fileWrite file property]

def returnEdges (referencing referenced : FunctionLikeIdentifier) : List Edge :=
  if referencing = referenced then [] else [.functionReturn referencing referenced]

def Call.edges : Call → List Edge
  | .symbolToSymbol referencing symbol inSignature => symbolEdges referencing symbol inSignature
  | .symbolToMember referencing classMember inSignature =>
    symbolMemberEdges referencing classMember inSignature
  | .memberToSymbol referencing symbol inSignature =>
    memberSymbolEdges referencing symbol inSignature
  | .memberToMember referencing classMember inSignature =>
    memberEdges referencing classMember inSignature
  | .symbolReference referencing referenced inSignature =>
    identifierEdges referencing referenced inSignature
  | .fileToMember fileName classMember inSignature => fileEdges fileName classMember inSignature
  | .reference referencing referenced inSignature =>
    originEdges referencing referenced inSignature
  | .propertyRead referencing property => readEdges referencing property
  | .propertyWrite referencing property => writeEdges referencing property
  | .overriddenMember referencing overridden => [.overridden referencing overridden]
  | .functionlikeReturn referencing referenced => returnEdges referencing referenced
  | .returnReference referencing referenced =>
    returnEdges (SymbolReferences.functionLike referencing)
      (SymbolReferences.functionLike referenced)

namespace SymbolReferences

variable (r : SymbolReferences)

theorem addSymbolReferenceToSymbol_eq (referencing symbol : Word) (inSignature : Bool) :
    r.addSymbolReferenceToSymbol referencing symbol inSignature =
      (symbolEdges referencing symbol inSignature).foldl record r := by
  unfold addSymbolReferenceToSymbol symbolEdges
  by_cases h : referencing = symbol
  · rw [if_pos h, if_pos h, List.foldl_nil]
  · rw [if_neg h, if_neg h]
    rfl

theorem addSymbolReferenceToClassMember_eq (referencing : Word) (classMember : SymbolIdentifier)
    (inSignature : Bool) :
    r.addSymbolReferenceToClassMember referencing classMember inSignature =
      (symbolMemberEdges referencing classMember inSignature).foldl record r := by
  rw [symbolMemberEdges, List.foldl_append, ← addSymbolReferenceToSymbol_eq]
  rfl

theorem addClassMemberReferenceToSymbol_eq (referencing : SymbolIdentifier) (symbol : Word)
    (inSignature : Bool) :
    r.addClassMemberReferenceToSymbol referencing symbol inSignature =
      (memberSymbolEdges referencing symbol inSignature).foldl record r := by
  unfold addClassMemberReferenceToSymbol memberSymbolEdges
  by_cases h : referencing.1 = symbol
  · rw [if_pos h, if_pos h, List.foldl_nil]
  · rw [if_neg h, if_neg h, List.foldl_append, ← addSymbolReferenceToSymbol_eq]
    rfl

theorem addClassMemberReferenceToClassMember_eq (referencing classMember : SymbolIdentifier)
    (inSignature : Bool) :
    r.addClassMemberReferenceToClassMember referencing classMember inSignature =
      (memberEdges referencing classMember inSignature).foldl record r := by
  unfold addClassMemberReferenceToClassMember memberEdges
  by_cases h : referencing = classMember
  · rw [if_pos h, if_pos h, List.foldl_nil]
  · rw [if_neg h, if_neg h, List.foldl_append, List.foldl_append,
      ← addSymbolReferenceToSymbol_eq, ← addClassMemberReferenceToSymbol_eq]
    rfl

theorem addSymbolReference_eq (referencing referenced : SymbolIdentifier) (inSignature : Bool) :
    r.addSymbolReference referencing referenced inSignature =
      (identifierEdges referencing referenced inSignature).foldl record r := by
  unfold addSymbolReference identifierEdges
  cases referencing.2.isEmpty with
  | true =>
    cases referenced.2.isEmpty with
    | true => exact r.addSymbolReferenceToSymbol_eq _ _ _
    | false => exact r.addSymbolReferenceToClassMember_eq _ _ _
  | false =>
    cases referenced.2.isEmpty with
    | true => exact r.addClassMemberReferenceToSymbol_eq _ _ _
    | false => exact r.addClassMemberReferenceToClassMember_eq _ _ _

theorem addFileReferenceToClassMember_eq (fileName : Word) (classMember : SymbolIdentifier)
    (inSignature : Bool) :
    r.addFileReferenceToClassMember fileName classMember inSignature =
      (fileEdges fileName classMember inSignature).foldl record r := by
  unfold addFileReferenceToClassMember fileEdges
  cases classMember.2.isEmpty with
  | true => rfl
  | false => rfl

theorem addReference_eq (referencing : ReferenceOrigin) (referenced : SymbolIdentifier)
    (inSignature : Bool) :
    r.addReference referencing referenced inSignature =
      (originEdges referencing referenced inSignature).foldl record r := by
  cases referencing with
  | symbol referencing => exact r.addSymbolReference_eq _ _ _
  | file file => exact r.addFileReferenceToClassMember_eq _ _ _

theorem addPropertyReadReference_eq (referencing : ReferenceOrigin)
    (property : SymbolIdentifier) :
    r.addPropertyReadReference referencing property =
      (readEdges referencing property).foldl record r := by
  unfold readEdges
  rw [List.foldl_append, ← addReference_eq]
  cases referencing with
  | symbol symbol => rfl
  | file file => rfl

theorem addPropertyWriteReference_eq (referencing : ReferenceOrigin)
    (property : SymbolIdentifier) :
    r.addPropertyWriteReference referencing property =
      (writeEdges referencing property).foldl record r := by
  unfold writeEdges
  rw [List.foldl_append, ← addReference_eq]
  cases referencing with
  | symbol symbol => rfl
  | file file => rfl

theorem addReferenceToFunctionlikeReturn_eq (referencing referenced : FunctionLikeIdentifier) :
    r.addReferenceToFunctionlikeReturn referencing referenced =
      (returnEdges referencing referenced).foldl record r := by
  unfold addReferenceToFunctionlikeReturn returnEdges
  by_cases h : referencing = referenced
  · rw [if_pos h, if_pos h, List.foldl_nil]
  · rw [if_neg h, if_neg h]
    rfl

/-- A call inserts its edges and does nothing else. -/
theorem perform_eq (call : Call) : r.perform call = call.edges.foldl record r := by
  cases call with
  | symbolToSymbol => exact r.addSymbolReferenceToSymbol_eq _ _ _
  | symbolToMember => exact r.addSymbolReferenceToClassMember_eq _ _ _
  | memberToSymbol => exact r.addClassMemberReferenceToSymbol_eq _ _ _
  | memberToMember => exact r.addClassMemberReferenceToClassMember_eq _ _ _
  | symbolReference => exact r.addSymbolReference_eq _ _ _
  | fileToMember => exact r.addFileReferenceToClassMember_eq _ _ _
  | reference => exact r.addReference_eq _ _ _
  | propertyRead => exact r.addPropertyReadReference_eq _ _
  | propertyWrite => exact r.addPropertyWriteReference_eq _ _
  | overriddenMember => rfl
  | functionlikeReturn => exact r.addReferenceToFunctionlikeReturn_eq _ _
  | returnReference => exact r.addReferenceToFunctionlikeReturn_eq _ _

end SymbolReferences

/-! ## Every way to build a graph -/

/-- Calls on a graph and merges of two graphs, in any order and grouping. -/
inductive Build
  | new
  | add (build : Build) (call : Call)
  | extend (left right : Build)

namespace Build

def eval : Build → SymbolReferences
  | new => .new
  | add build call => build.eval.perform call
  | extend left right => left.eval.extend right.eval

/-- The calls it is made of, however often each occurs. -/
def calls : Build → Multiset Call
  | new => 0
  | add build call => call ::ₘ build.calls
  | extend left right => left.calls + right.calls

def edges (build : Build) : Set Edge :=
  {e | ∃ call ∈ build.calls, e ∈ call.edges}

/-- By induction on the build. -/
theorem eval_represents (build : Build) : build.eval.Represents build.edges := by
  induction build with
  | new =>
    have hnone : new.edges = ∅ := by
      ext e
      simp [edges, calls]
    rw [hnone]
    exact SymbolReferences.represents_new
  | add build call ih =>
    have hcall := ih.foldl_record call.edges
    have hset : build.edges ∪ {e | e ∈ call.edges} = (build.add call).edges := by
      ext e
      simp only [edges, calls, Multiset.mem_cons, Set.mem_union, Set.mem_ofPred_eq]
      constructor
      · rintro (⟨earlier, hmem, he⟩ | he)
        · exact ⟨earlier, Or.inr hmem, he⟩
        · exact ⟨call, Or.inl rfl, he⟩
      · rintro ⟨made, rfl | hmem, he⟩
        · exact Or.inr he
        · exact Or.inl ⟨made, hmem, he⟩
    rw [eval, SymbolReferences.perform_eq, ← hset]
    exact hcall
  | extend left right ihLeft ihRight =>
    have hset : left.edges ∪ right.edges = (left.extend right).edges := by
      ext e
      simp only [edges, calls, Multiset.mem_add, Set.mem_union, Set.mem_ofPred_eq]
      constructor
      · rintro (⟨call, hmem, he⟩ | ⟨call, hmem, he⟩)
        · exact ⟨call, Or.inl hmem, he⟩
        · exact ⟨call, Or.inr hmem, he⟩
      · rintro ⟨call, hmem | hmem, he⟩
        · exact Or.inl ⟨call, hmem, he⟩
        · exact Or.inr ⟨call, hmem, he⟩
    rw [← hset]
    exact ihLeft.extend ihRight

theorem eval_unique {build build' : Build} (h : build.calls = build'.calls) :
    build.eval = build'.eval := by
  have hedges : build.edges = build'.edges := by rw [edges, edges, h]
  exact build.eval_represents.unique (hedges ▸ build'.eval_represents)

end Build

theorem disjoint_setAt {κ ν : Type} {maps : Dependencies κ ν} {body signature : Set (κ × ν)}
    (h : maps.HoldsBoth body signature) (origin : κ) (target : ν) :
    ¬ (target ∈ maps.body.setAt origin ∧ target ∈ maps.signature.setAt origin) := by
  rw [h.body.mem_setAt, h.signature.mem_setAt]
  rintro ⟨hbody, hsignature⟩
  exact hbody.2 hsignature

/-- Builds with the same calls give the same graph, and in it no edge is of a body and of a
signature. -/
theorem Build.confluent (build : Build) :
    (∀ build' : Build, build'.calls = build.calls → build'.eval = build.eval) ∧
      (∀ origin target,
        ¬ (target ∈ build.eval.symbolReferencesToSymbols.setAt origin ∧
          target ∈ build.eval.symbolReferencesToSymbolsInSignature.setAt origin)) ∧
      ∀ file target,
        ¬ (target ∈ build.eval.fileReferencesToSymbols.setAt file ∧
          target ∈ build.eval.fileReferencesToSymbolsInSignature.setAt file) := by
  have hrepresents := build.eval_represents
  refine ⟨fun build' h => eval_unique h, fun origin target => ?_, fun file target => ?_⟩
  · exact disjoint_setAt hrepresents.symbols origin target
  · exact disjoint_setAt hrepresents.files file target

/-- A body call and a signature call for one edge: in one graph, or merged from two. -/
theorem Build.confluent_two_parts :
    (((Build.new.add (.symbolToSymbol [1] [2] false)).add
      (.symbolToSymbol [1] [2] true)).eval =
      ((Build.new.add (.symbolToSymbol [1] [2] true)).extend
        (Build.new.add (.symbolToSymbol [1] [2] false))).eval) :=
  (Build.confluent _).1 _ rfl

end Mago.Incremental.ReferenceGraph
