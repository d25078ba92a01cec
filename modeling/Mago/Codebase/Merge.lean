import Mago.Codebase.Metadata

/-!
# Merging scans

A codebase is merged from the scans of its files. The tables of declarations do not depend on the
order of the scans. The table of symbols does where scans record different kinds for a name, and
then it need not have the kind of the declaration that stays.
-/
namespace Mago.Codebase
open Mago.Library Mago.Algebra CodebaseMetadata

/-- One declaration, available in the same versions. -/
structure SameDeclaration {δ : Type} (metadata metadata' : Metadata δ) : Prop where
  flags : metadata.flags = metadata'.flags
  span : metadata.span = metadata'.span
  details : metadata.details = metadata'.details
  versions : ∀ version, metadata.versionConstraint.allowsVersion version =
    metadata'.versionConstraint.allowsVersion version

structure Agrees (codebase codebase' : CodebaseMetadata) : Prop where
  classLikes : ∀ name, Option.Rel SameDeclaration
    (codebase.classLikes.get? name) (codebase'.classLikes.get? name)
  functionLikes : ∀ key, Option.Rel SameDeclaration
    (codebase.functionLikes.get? key) (codebase'.functionLikes.get? key)
  constants : ∀ name, Option.Rel SameDeclaration
    (codebase.constants.get? name) (codebase'.constants.get? name)
  kinds : ∀ name, codebase.symbols.all.get? name = codebase'.symbols.all.get? name
  namespaces : codebase.symbols.namespaces = codebase'.symbols.namespaces

/-- Every class-like name has the kind of the declaration that won. -/
def Consistent (codebase : CodebaseMetadata) : Prop :=
  ∀ name metadata, codebase.classLikes.get? name = some metadata →
    codebase.symbols.all.get? name = some metadata.details.kind

/-- Merging in any order, by reference or in parallel leads to the same consistent codebase. -/
structure OrderIndependent (base : CodebaseMetadata) (scans : List CodebaseMetadata) : Prop where
  extend : ∀ order : List CodebaseMetadata, order.Perm scans →
    Agrees (order.foldl CodebaseMetadata.extend base) (scans.foldl CodebaseMetadata.extend base)
  extendRef : ∀ order : List CodebaseMetadata, order.Perm scans →
    Agrees (order.foldl CodebaseMetadata.extendRef base) (scans.foldl CodebaseMetadata.extend base)
  extendManyParallel : ∀ order : List CodebaseMetadata, order.Perm scans → ∀ threads,
    Agrees (base.extendManyParallel threads order) (scans.foldl CodebaseMetadata.extend base)
  consistent : Consistent (scans.foldl CodebaseMetadata.extend base)

/-- The values that scans have at a key. -/
def valuesAt {κ ν : Type} [DecidableEq κ] (table : CodebaseMetadata → OrderedMap κ ν)
    (scans : List CodebaseMetadata) (k : κ) : List ν :=
  scans.filterMap fun scan => (table scan).get? k

/-- The declarations of a name have different spans. -/
def Apart {κ δ : Type} [DecidableEq κ] (table : CodebaseMetadata → OrderedMap κ (Metadata δ))
    (scans : List CodebaseMetadata) : Prop :=
  ∀ k, (valuesAt table scans k).Pairwise fun metadata metadata' => metadata.span ≠ metadata'.span

structure DistinctSpans (scans : List CodebaseMetadata) : Prop where
  classLikes : Apart classLikes scans
  functionLikes : Apart functionLikes scans
  constants : Apart constants scans

/-- The kinds the table of symbols can have for a name. -/
def Recorded (base : CodebaseMetadata) (scans : List CodebaseMetadata) (name : Word)
    (kind : SymbolKind) : Prop :=
  base.symbols.all.get? name = some kind ∨
    base.symbols.all.get? name = none ∧ kind ∈ valuesAt (fun scan => scan.symbols.all) scans name

/-- The declaration of a class-like that the priority picks. -/
def Winner (base : CodebaseMetadata) (scans : List CodebaseMetadata) (name : Word)
    (metadata : ClassLikeMetadata) : Prop :=
  (priority ClassLikeDetails).Wins (base.classLikes.get? name) (valuesAt classLikes scans name)
    metadata

/-- One kind is recorded for a name, and it is the kind of the declaration that wins. -/
structure KindsAgree (base : CodebaseMetadata) (scans : List CodebaseMetadata) : Prop where
  unique : ∀ name kind kind', Recorded base scans name kind → Recorded base scans name kind' →
    kind = kind'
  winner : ∀ name metadata, Winner base scans name metadata →
    Recorded base scans name metadata.details.kind

section Folds

variable (base : CodebaseMetadata) (scans : List CodebaseMetadata)

theorem classLikes_foldl : (scans.foldl extend base).classLikes =
    (scans.map classLikes).foldl (OrderedMap.upsertAll mergeMetadata) base.classLikes := by
  induction scans generalizing base with
  | nil => rfl
  | cons scan scans ih => exact ih _

theorem functionLikes_foldl : (scans.foldl extend base).functionLikes =
    (scans.map functionLikes).foldl mergeFunctionLikes base.functionLikes := by
  induction scans generalizing base with
  | nil => rfl
  | cons scan scans ih => exact ih _

theorem constants_foldl : (scans.foldl extend base).constants =
    (scans.map constants).foldl (OrderedMap.upsertAll mergeMetadata) base.constants := by
  induction scans generalizing base with
  | nil => rfl
  | cons scan scans ih => exact ih _

theorem symbols_foldl : (scans.foldl extend base).symbols =
    (scans.map symbols).foldl Symbols.extend base.symbols := by
  induction scans generalizing base with
  | nil => rfl
  | cons scan scans ih => exact ih _

theorem extendManyParallel_eq (threads : ℕ) :
    base.extendManyParallel threads scans = scans.foldl extend base := by
  unfold extendManyParallel
  split_ifs
  · rfl
  · have hclass : (scans.map fun other => { other with
        functionLikes := OrderedMap.empty, symbols := Symbols.empty }).map classLikes =
          scans.map classLikes := by
      rw [List.map_map]
      rfl
    have hconstants : (scans.map fun other => { other with
        functionLikes := OrderedMap.empty, symbols := Symbols.empty }).map constants =
          scans.map constants := by
      rw [List.map_map]
      rfl
    dsimp only
    rw [classLikes_foldl, constants_foldl, hclass, hconstants, ← functionLikes_foldl,
      ← symbols_foldl, ← classLikes_foldl base, ← constants_foldl base]

end Folds

/-- What merging leads to, whatever the order. -/
structure Merges (base : CodebaseMetadata) (scans : List CodebaseMetadata)
    (codebase : CodebaseMetadata) : Prop where
  classLikes : ∀ name, (priority ClassLikeDetails).Holds (base.classLikes.get? name)
    (valuesAt classLikes scans name) (codebase.classLikes.get? name)
  functionLikes : ∀ key, (priority (Option Word)).Holds (base.functionLikes.get? key)
    (valuesAt functionLikes scans key) (codebase.functionLikes.get? key)
  constants : ∀ name, (priority Word).Holds (base.constants.get? name)
    (valuesAt constants scans name) (codebase.constants.get? name)
  kind_recorded : ∀ name kind, codebase.symbols.all.get? name = some kind →
    Recorded base scans name kind
  kind_isSome : ∀ name kind, Recorded base scans name kind →
    (codebase.symbols.all.get? name).isSome
  namespaces : ∀ ns, ns ∈ codebase.symbols.namespaces ↔
    ns ∈ base.symbols.namespaces ∨ ∃ scan ∈ scans, ns ∈ scan.symbols.namespaces

section Kinds

variable {base : CodebaseMetadata}

theorem kind_extend (base scan : CodebaseMetadata) (name : Word) :
    (base.extend scan).symbols.all.get? name =
      (base.symbols.all.get? name).or (scan.symbols.all.get? name) := by
  have h : (base.extend scan).symbols.all.get? name = mergeOption (fun kind _ => kind)
      (base.symbols.all.get? name) (scan.symbols.all.get? name) :=
    OrderedMap.get?_upsertAll base.symbols.all scan.symbols.all name
  rw [h]
  cases base.symbols.all.get? name <;> cases scan.symbols.all.get? name <;> rfl

/-- The first kind that is recorded stays. -/
theorem kind_foldl (base : CodebaseMetadata) (scans : List CodebaseMetadata) (name : Word) :
    (scans.foldl extend base).symbols.all.get? name =
      (base.symbols.all.get? name).or
        (valuesAt (fun scan => scan.symbols.all) scans name).head? := by
  induction scans generalizing base with
  | nil => exact (Option.or_none).symm
  | cons scan scans ih =>
    rw [List.foldl_cons, ih, kind_extend, Option.or_assoc]
    congr 1
    unfold valuesAt
    rw [List.filterMap_cons]
    cases scan.symbols.all.get? name <;> rfl

theorem namespaces_foldl (base : CodebaseMetadata) (scans : List CodebaseMetadata) (ns : Word) :
    ns ∈ (scans.foldl extend base).symbols.namespaces ↔
      ns ∈ base.symbols.namespaces ∨ ∃ scan ∈ scans, ns ∈ scan.symbols.namespaces := by
  induction scans generalizing base with
  | nil => simp
  | cons scan scans ih =>
    rw [List.foldl_cons, ih]
    show ns ∈ base.symbols.namespaces ∪ scan.symbols.namespaces ∨ _ ↔ _
    simp [or_assoc]

end Kinds

theorem valuesAt_perm {κ ν : Type} [DecidableEq κ] (table : CodebaseMetadata → OrderedMap κ ν)
    {scans scans' : List CodebaseMetadata} (h : scans.Perm scans') (k : κ) :
    (valuesAt table scans k).Perm (valuesAt table scans' k) :=
  h.filterMap _

theorem merges_foldl (base : CodebaseMetadata) (scans : List CodebaseMetadata) :
    Merges base scans (scans.foldl extend base) where
  classLikes := by
    intro name
    have h := (priority ClassLikeDetails).holds_get? base.classLikes (scans.map classLikes) name
    rwa [← mergeMetadata_eq, ← classLikes_foldl, List.filterMap_map] at h
  functionLikes := by
    intro key
    have h := (priority (Option Word)).holds_get? base.functionLikes (scans.map functionLikes) key
    rw [← mergeMetadata_eq, List.filterMap_map] at h
    rwa [functionLikes_foldl]
  constants := by
    intro name
    have h := (priority Word).holds_get? base.constants (scans.map constants) name
    rwa [← mergeMetadata_eq, ← constants_foldl, List.filterMap_map] at h
  kind_recorded := by
    intro name kind h
    rw [kind_foldl] at h
    rcases Option.or_eq_some_iff.mp h with h | ⟨hnone, h⟩
    · exact .inl h
    · exact .inr ⟨hnone, List.mem_of_mem_head? h⟩
  kind_isSome := by
    intro name kind h
    rw [kind_foldl]
    rcases h with h | ⟨hnone, h⟩
    · rw [h]
      rfl
    · rw [hnone, Option.none_or, List.isSome_head?]
      exact List.ne_nil_of_mem h
  namespaces := namespaces_foldl base scans

theorem Merges.perm {base codebase : CodebaseMetadata} {scans scans' : List CodebaseMetadata}
    (h : Merges base scans codebase) (hperm : scans.Perm scans') :
    Merges base scans' codebase where
  classLikes := fun name => (h.classLikes name).perm (valuesAt_perm _ hperm name)
  functionLikes := fun key => (h.functionLikes key).perm (valuesAt_perm _ hperm key)
  constants := fun name => (h.constants name).perm (valuesAt_perm _ hperm name)
  kind_recorded := by
    intro name kind hkind
    have := h.kind_recorded name kind hkind
    rwa [Recorded, (valuesAt_perm _ hperm name).mem_iff] at this
  kind_isSome := by
    intro name kind hkind
    rw [Recorded, ← (valuesAt_perm _ hperm name).mem_iff] at hkind
    exact h.kind_isSome name kind hkind
  namespaces := by
    intro ns
    simp only [h.namespaces ns, hperm.mem_iff]

theorem ranked_of_spans {δ : Type} {values : List (Metadata δ)}
    (h : values.Pairwise fun metadata metadata' => metadata.span ≠ metadata'.span) :
    (priority δ).Ranked values := by
  refine h.imp ?_
  intro metadata metadata' hne hrank
  exact hne (rank_injective_span hrank)

/-- One map of declarations is determined. -/
theorem sameDeclaration_of_holds {δ : Type} {base : Option (Metadata δ)}
    {values : List (Metadata δ)}
    (hspans : values.Pairwise fun metadata metadata' => metadata.span ≠ metadata'.span)
    {x y : Option (Metadata δ)} (hx : (priority δ).Holds base values x)
    (hy : (priority δ).Holds base values y) : Option.Rel SameDeclaration x y := by
  cases hx.unique (ranked_of_spans hspans) hy with
  | none => exact .none
  | some h =>
    obtain ⟨hcore, hallows⟩ := h
    simp only [priority, Prod.mk.injEq] at hcore
    obtain ⟨hflags, hspan, hdetails⟩ := hcore
    refine .some ⟨hflags, hspan, hdetails, ?_⟩
    intro version
    exact Bool.eq_iff_iff.mpr (Set.ext_iff.mp hallows version)

theorem Merges.agrees {base codebase codebase' : CodebaseMetadata}
    {scans : List CodebaseMetadata} (hspans : DistinctSpans scans) (hkinds : KindsAgree base scans)
    (h : Merges base scans codebase) (h' : Merges base scans codebase') :
    Agrees codebase codebase' where
  classLikes := fun name =>
    sameDeclaration_of_holds (hspans.classLikes name) (h.classLikes name) (h'.classLikes name)
  functionLikes := fun key =>
    sameDeclaration_of_holds (hspans.functionLikes key) (h.functionLikes key)
      (h'.functionLikes key)
  constants := fun name =>
    sameDeclaration_of_holds (hspans.constants name) (h.constants name) (h'.constants name)
  kinds := by
    intro name
    cases hkind : codebase.symbols.all.get? name with
    | none =>
      cases hkind' : codebase'.symbols.all.get? name with
      | none => rfl
      | some kind =>
        have := h.kind_isSome name kind (h'.kind_recorded name kind hkind')
        rw [hkind] at this
        cases this
    | some kind =>
      have hrecorded := h.kind_recorded name kind hkind
      obtain ⟨kind', hkind'⟩ := Option.isSome_iff_exists.mp (h'.kind_isSome name kind hrecorded)
      rw [hkind', hkinds.unique name kind kind' hrecorded (h'.kind_recorded name kind' hkind')]
  namespaces := by
    ext ns
    rw [h.namespaces ns, h'.namespaces ns]

theorem Merges.consistent {base codebase : CodebaseMetadata} {scans : List CodebaseMetadata}
    (hkinds : KindsAgree base scans) (h : Merges base scans codebase) : Consistent codebase := by
  intro name metadata hmetadata
  have hholds := h.classLikes name
  rw [hmetadata] at hholds
  obtain ⟨⟨winner, hwins, hcore⟩, -⟩ := hholds
  have hdetails : metadata.details = winner.details := congrArg (fun core => core.2.2) hcore
  have hrecorded := hkinds.winner name winner hwins
  obtain ⟨kind, hkind⟩ := Option.isSome_iff_exists.mp (h.kind_isSome name _ hrecorded)
  rw [hkind, hdetails,
    hkinds.unique name _ _ hrecorded (h.kind_recorded name kind hkind)]

/-- Some order puts a recorded kind first. -/
theorem exists_order_of_recorded {base : CodebaseMetadata} {scans : List CodebaseMetadata}
    {name : Word} {kind : SymbolKind} (h : Recorded base scans name kind) :
    ∃ order : List CodebaseMetadata, order.Perm scans ∧
      (order.foldl extend base).symbols.all.get? name = some kind := by
  rcases h with h | ⟨hnone, h⟩
  · refine ⟨scans, .refl _, ?_⟩
    rw [kind_foldl, h]
    rfl
  · obtain ⟨scan, hscan, hkind⟩ := List.mem_filterMap.mp h
    obtain ⟨before, after, rfl⟩ := List.append_of_mem hscan
    refine ⟨scan :: (before ++ after), List.perm_middle.symm, ?_⟩
    rw [kind_foldl, hnone, Option.none_or, valuesAt, List.filterMap_cons]
    simp only [hkind, List.head?_cons]

/-- Merging does not depend on the order exactly where the recorded kinds agree. -/
theorem orderIndependent_iff (base : CodebaseMetadata) (scans : List CodebaseMetadata)
    (hspans : DistinctSpans scans) : OrderIndependent base scans ↔ KindsAgree base scans := by
  constructor
  · intro h
    refine ⟨?_, ?_⟩
    · intro name kind kind' hkind hkind'
      obtain ⟨order, hperm, hget⟩ := exists_order_of_recorded hkind
      obtain ⟨order', hperm', hget'⟩ := exists_order_of_recorded hkind'
      have heq := ((h.extend order hperm).kinds name).trans ((h.extend order' hperm').kinds name).symm
      rw [hget, hget'] at heq
      exact Option.some.inj heq
    · intro name metadata hwins
      have hmerges := merges_foldl base scans
      have hholds := hmerges.classLikes name
      cases hget : (scans.foldl CodebaseMetadata.extend base).classLikes.get? name with
      | none =>
        rw [hget] at hholds
        obtain ⟨hbase, hvalues⟩ := hholds
        simp [Winner, PriorityMerge.Wins, hbase, hvalues] at hwins
      | some held =>
        rw [hget] at hholds
        obtain ⟨⟨winner, hwinner, hcore⟩, -⟩ := hholds
        obtain rfl := hwinner.unique (ranked_of_spans (hspans.classLikes name)) hwins
        have hdetails : held.details = winner.details := congrArg (fun core => core.2.2) hcore
        rw [← hdetails]
        exact hmerges.kind_recorded name _ (h.consistent name held hget)
  · intro hkinds
    have hmerges := merges_foldl base scans
    have hextend : ∀ order : List CodebaseMetadata, order.Perm scans →
        Agrees (order.foldl CodebaseMetadata.extend base)
          (scans.foldl CodebaseMetadata.extend base) := by
      intro order hperm
      exact ((merges_foldl base order).perm hperm).agrees hspans hkinds hmerges
    refine ⟨hextend, hextend, ?_, hmerges.consistent hkinds⟩
    intro order hperm threads
    rw [extendManyParallel_eq]
    exact hextend order hperm

def userFlags : MetadataFlags where
  isUserDefined := true
  isPatch := false
  isExternal := false
  isBuiltIn := false
  isPolyfill := false

/-- The scan of a file that declares one class-like of user code. -/
def scanOf (fileId : ℕ) (name : Word) (kind : SymbolKind) : CodebaseMetadata where
  classLikes := OrderedMap.ofList [(name,
    { flags := userFlags
      span := { fileId, start := 6, stop := 20 }
      versionConstraint := { ranges := [] }
      details := { name, kind } })]
  functionLikes := OrderedMap.empty
  constants := OrderedMap.empty
  symbols := ⟨OrderedMap.ofList [(name, kind)], ∅⟩

/-- The name `foo`. -/
def foo : Word := [102, 111, 111]

theorem valuesAt_functionLikes_scanOf (files : List (ℕ × SymbolKind)) (name : Word)
    (key : Word × Word) :
    valuesAt functionLikes (files.map fun file => scanOf file.1 name file.2) key = [] := by
  induction files with
  | nil => rfl
  | cons file files ih => exact ih

theorem valuesAt_constants_scanOf (files : List (ℕ × SymbolKind)) (name name' : Word) :
    valuesAt constants (files.map fun file => scanOf file.1 name file.2) name' = [] := by
  induction files with
  | nil => rfl
  | cons file files ih => exact ih

theorem kind_scanOf {fileId : ℕ} {name name' : Word} {kind kind' : SymbolKind}
    (h : (scanOf fileId name kind).symbols.all.get? name' = some kind') :
    name' = name ∧ kind' = kind := by
  have hmem : (name', kind') ∈ [(name, kind)] := OrderedMap.get?_eq_some_iff.mp h
  simpa using hmem

theorem get?_classLikes_scanOf {fileId : ℕ} {name name' : Word} {kind : SymbolKind}
    {metadata : ClassLikeMetadata}
    (h : (scanOf fileId name kind).classLikes.get? name' = some metadata) :
    name' = name ∧ metadata.span.fileId = fileId ∧ metadata.details.kind = kind := by
  have hmem := OrderedMap.get?_eq_some_iff.mp h
  obtain ⟨rfl, rfl⟩ := Prod.mk.inj (List.mem_singleton.mp hmem)
  exact ⟨rfl, rfl, rfl⟩

theorem distinctSpans_scanOf (files : List (ℕ × SymbolKind)) (name : Word)
    (h : (files.map Prod.fst).Nodup) :
    DistinctSpans (files.map fun file => scanOf file.1 name file.2) where
  classLikes := by
    intro name'
    unfold valuesAt
    rw [List.filterMap_map, List.pairwise_filterMap]
    refine (List.pairwise_map.mp h).imp ?_
    intro file file' hne metadata hmetadata metadata' hmetadata' hspan
    obtain ⟨-, hfile, -⟩ := get?_classLikes_scanOf hmetadata
    obtain ⟨-, hfile', -⟩ := get?_classLikes_scanOf hmetadata'
    exact hne (hfile.symm.trans ((congrArg Span.fileId hspan).trans hfile'))
  functionLikes := by
    intro key
    rw [valuesAt_functionLikes_scanOf]
    exact .nil
  constants := by
    intro name'
    rw [valuesAt_constants_scanOf]
    exact .nil

/-- Files that declare a name as one kind. -/
theorem kindsAgree_scanOf (files : List (ℕ × SymbolKind)) (name : Word) (kind : SymbolKind)
    (h : ∀ file ∈ files, file.2 = kind) :
    KindsAgree CodebaseMetadata.empty (files.map fun file => scanOf file.1 name file.2) where
  unique := by
    have hkind : ∀ name' kind', Recorded CodebaseMetadata.empty
        (files.map fun file => scanOf file.1 name file.2) name' kind' → kind' = kind := by
      intro name' kind' hrecorded
      rcases hrecorded with hbase | ⟨-, hvalue⟩
      · cases hbase
      · obtain ⟨scan, hscan, hget⟩ := List.mem_filterMap.mp hvalue
        obtain ⟨file, hfile, rfl⟩ := List.mem_map.mp hscan
        exact (kind_scanOf hget).2.trans (h file hfile)
    intro name' kind' kind'' h' h''
    exact (hkind name' kind' h').trans (hkind name' kind'' h'').symm
  winner := by
    intro name' metadata hwins
    rcases hwins.1 with hbase | ⟨hvalue, -⟩
    · cases hbase
    · refine .inr ⟨rfl, ?_⟩
      obtain ⟨scan, hscan, hget⟩ := List.mem_filterMap.mp hvalue
      obtain ⟨file, hfile, rfl⟩ := List.mem_map.mp hscan
      obtain ⟨rfl, -, hkind⟩ := get?_classLikes_scanOf hget
      refine List.mem_filterMap.mpr ⟨_, hscan, ?_⟩
      rw [hkind]
      exact OrderedMap.get?_eq_some_iff.mpr (List.mem_singleton.mpr rfl)

/-- Two classes of one name. -/
theorem classes_orderIndependent :
    OrderIndependent CodebaseMetadata.empty [scanOf 1 foo .Class, scanOf 2 foo .Class] :=
  (orderIndependent_iff CodebaseMetadata.empty [scanOf 1 foo .Class, scanOf 2 foo .Class]
    (distinctSpans_scanOf [(1, .Class), (2, .Class)] foo (by decide))).mpr
    (kindsAgree_scanOf [(1, .Class), (2, .Class)] foo .Class (by decide))

/-- A class and an interface of one name in two files: the kind is that of the file merged
first. -/
theorem classAndInterface_not_orderIndependent :
    DistinctSpans [scanOf 1 foo .Class, scanOf 2 foo .interface] ∧
      ¬ OrderIndependent CodebaseMetadata.empty
        [scanOf 1 foo .Class, scanOf 2 foo .interface] := by
  refine ⟨distinctSpans_scanOf [(1, .Class), (2, .interface)] foo (by decide), ?_⟩
  intro h
  have hswapped := (h.extend _ (.swap _ _ _)).kinds foo
  revert hswapped
  decide

end Mago.Codebase
