import Mago.Incremental.References

/-!
# Invalidation

What a changed signature makes invalid, as a least set over the reference graph, and what the
propagation finds of it. The propagation is a worklist; entries whose class changed are marked
and not queued, so what depends on them only is missed.
-/
namespace Mago.Incremental
open Mago.Library Mago.Algebra

variable (references : SymbolReferences) (diff : CodebaseDiff)

/-- An origin of signature references whose containing symbol changed. -/
def OwnedOrigin (x : SymbolIdentifier) : Prop :=
  x ∈ references.symbolReferencesToSymbolsInSignature.keys ∧ (x.1, emptyWord) ∈ diff.changed

/-- The entries whose signature a diff makes invalid. -/
inductive Invalid : SymbolIdentifier → Prop
  | changed {x} (h : x ∈ diff.changed) : Invalid x
  | owned {x} (h : OwnedOrigin references diff x) : Invalid x
  | containing {c m} (h : Invalid (c, m)) : Invalid (c, emptyWord)
  | referencing {x y} (h : Invalid x) (hy : references.ReferencesInSignature y x) : Invalid y

/-- An invalid entry makes its symbol and the origins of signature references to it invalid. -/
def Spreads (x y : SymbolIdentifier) : Prop :=
  x.2 ≠ emptyWord ∧ y = (x.1, emptyWord) ∨ references.ReferencesInSignature y x

/-- A chain of steps from a changed entry leads here. -/
def Reached : SymbolIdentifier → Prop := ReachableFrom (Spreads references) diff.changed.reverse

/-- Reached, or an origin whose class changed. -/
def Source (x : SymbolIdentifier) : Prop :=
  Reached references diff x ∨ OwnedOrigin references diff x

section Seeds

variable {references diff}

theorem mem_referencingItems_push {index : ReverseIndex} {x y r o : SymbolIdentifier} :
    y ∈ ReverseIndex.referencingItems (ReverseIndex.push index r o) x ↔
      y ∈ ReverseIndex.referencingItems index x ∨ x = r ∧ y = o := by
  unfold ReverseIndex.push
  rw [ReverseIndex.referencingItems, OrderedMap.get?_insert]
  by_cases hx : x = r
  · subst hx
    simp
  · simp [hx, ReverseIndex.referencingItems]

theorem mem_referencingItems_visit {items : List SymbolIdentifier} {index : ReverseIndex}
    {x y o : SymbolIdentifier} :
    y ∈ ReverseIndex.referencingItems
        (items.foldl (fun index referenced => ReverseIndex.push index referenced o) index) x ↔
      y ∈ ReverseIndex.referencingItems index x ∨ x ∈ items ∧ y = o := by
  induction items generalizing index with
  | nil => simp
  | cons r items ih =>
    rw [List.foldl_cons, ih, mem_referencingItems_push, List.mem_cons]
    tauto

theorem mem_sigReverseIndex_foldl {entries : List (SymbolIdentifier × List SymbolIdentifier)}
    {seeds : Seeds} {x y : SymbolIdentifier} :
    y ∈ ReverseIndex.referencingItems
        (entries.foldl (Seeds.visit diff) seeds).sigReverseIndex x ↔
      y ∈ ReverseIndex.referencingItems seeds.sigReverseIndex x ∨
        ∃ items, (y, items) ∈ entries ∧ x ∈ items := by
  induction entries generalizing seeds with
  | nil => simp
  | cons e entries ih =>
    obtain ⟨o, items⟩ := e
    rw [List.foldl_cons, ih]
    simp only [Seeds.visit, mem_referencingItems_visit, List.mem_cons, Prod.mk.injEq, or_and_right,
      exists_or, and_assoc, or_assoc]
    refine or_congr_right (or_congr_left ?_)
    constructor
    · rintro ⟨hx, rfl⟩
      exact ⟨items, rfl, rfl, hx⟩
    · rintro ⟨_, rfl, rfl, hx⟩
      exact ⟨hx, rfl⟩

theorem mem_invalidSignatures_foldl {entries : List (SymbolIdentifier × List SymbolIdentifier)}
    {seeds : Seeds} {x : SymbolIdentifier} :
    x ∈ (entries.foldl (Seeds.visit diff) seeds).invalidSignatures ↔
      x ∈ seeds.invalidSignatures ∨
        x ∈ entries.map Prod.fst ∧ (x.1, emptyWord) ∈ diff.changed := by
  induction entries generalizing seeds with
  | nil => simp
  | cons e entries ih =>
    rw [List.foldl_cons, ih, List.map_cons, List.mem_cons]
    simp only [Seeds.visit, CodebaseDiff.containsChangedEntry, decide_eq_true_eq]
    split_ifs with howned
    · rw [Finset.mem_insert]
      constructor
      · rintro ((rfl | hx) | ⟨hx, hchanged⟩)
        · exact .inr ⟨.inl rfl, howned⟩
        · exact .inl hx
        · exact .inr ⟨.inr hx, hchanged⟩
      · tauto
    · constructor
      · tauto
      · rintro (hx | ⟨rfl | hx, hchanged⟩)
        · exact .inl hx
        · exact absurd hchanged howned
        · exact .inr ⟨hx, hchanged⟩

/-- The reverse index gives the origins of the signature references. -/
theorem mem_seeds_index {x y : SymbolIdentifier} :
    y ∈ ReverseIndex.referencingItems (references.seeds diff).sigReverseIndex x ↔
      references.ReferencesInSignature y x := by
  have hempty : ReverseIndex.referencingItems OrderedMap.empty x = [] := rfl
  rw [SymbolReferences.seeds, mem_sigReverseIndex_foldl, hempty]
  simp [SymbolReferences.ReferencesInSignature, SymbolReferences.MapReferences]

theorem mem_seeds {x : SymbolIdentifier} :
    x ∈ (references.seeds diff).invalidSignatures ↔ OwnedOrigin references diff x := by
  rw [SymbolReferences.seeds, mem_invalidSignatures_foldl]
  simp [OwnedOrigin, OrderedMap.keys]

end Seeds

section Simulation

variable {index : ReverseIndex}

namespace Propagation

@[simp] theorem processedSymbols_push (x : SymbolIdentifier) (s : Propagation) :
    (push x s).processedSymbols = s.processedSymbols := by
  unfold push
  split_ifs <;> rfl

@[simp] theorem invalidSignatures_push (x : SymbolIdentifier) (s : Propagation) :
    (push x s).invalidSignatures = s.invalidSignatures := by
  unfold push
  split_ifs <;> rfl

theorem symbolsToProcess_push (x : SymbolIdentifier) (s : Propagation) :
    (push x s).symbolsToProcess =
      (if x ∉ s.processedSymbols then [x] else []) ++ s.symbolsToProcess := by
  unfold push
  split_ifs <;> simp_all

@[simp] theorem processedSymbols_promote (x : SymbolIdentifier) (s : Propagation) :
    (promote x s).processedSymbols = s.processedSymbols := by
  unfold promote
  split_ifs <;> simp

@[simp] theorem invalidSignatures_promote (x : SymbolIdentifier) (s : Propagation) :
    (promote x s).invalidSignatures = s.invalidSignatures := by
  unfold promote
  split_ifs <;> simp

theorem symbolsToProcess_promote (x : SymbolIdentifier) (s : Propagation) :
    (promote x s).symbolsToProcess =
      (if x.2 ≠ emptyWord ∧ (x.1, emptyWord) ∉ s.processedSymbols then [(x.1, emptyWord)]
        else []) ++ s.symbolsToProcess := by
  unfold promote
  split_ifs with hmember <;> simp_all [symbolsToProcess_push]

theorem processedSymbols_foldl (items : List SymbolIdentifier) (s : Propagation) :
    (items.foldl markReferencing s).processedSymbols = s.processedSymbols := by
  induction items generalizing s with
  | nil => rfl
  | cons x items ih => simp [ih, markReferencing]

theorem symbolsToProcess_foldl (items : List SymbolIdentifier) (s : Propagation) :
    (items.foldl markReferencing s).symbolsToProcess =
      (items.filter fun y => decide (y ∉ s.processedSymbols)).reverse ++ s.symbolsToProcess := by
  induction items generalizing s with
  | nil => rfl
  | cons x items ih =>
    rw [List.foldl_cons, ih]
    by_cases hx : x ∈ s.processedSymbols <;>
      simp [markReferencing, symbolsToProcess_push, hx]

theorem mem_invalidSignatures_markReferencing {items : List SymbolIdentifier} {s : Propagation}
    {y : SymbolIdentifier} :
    y ∈ (items.foldl markReferencing s).invalidSignatures ↔
      y ∈ s.invalidSignatures ∨ y ∈ items := by
  induction items generalizing s with
  | nil => simp
  | cons x items ih =>
    rw [List.foldl_cons, ih, List.mem_cons]
    simp only [markReferencing, invalidSignatures_push, Finset.mem_insert]
    tauto

theorem processedSymbols_process (x : SymbolIdentifier) (s : Propagation) :
    (process index x s).processedSymbols = x :: s.processedSymbols := by
  rw [process, processedSymbols_foldl, processedSymbols_promote]
  rfl

theorem symbolsToProcess_process (x : SymbolIdentifier) (s : Propagation) :
    (process index x s).symbolsToProcess =
      pushes index (x :: s.processedSymbols) x ++ s.symbolsToProcess := by
  rw [process, symbolsToProcess_foldl, symbolsToProcess_promote, processedSymbols_promote, pushes,
    List.append_assoc]
  rfl

theorem mem_invalidSignatures_process {x y : SymbolIdentifier} {s : Propagation} :
    y ∈ (process index x s).invalidSignatures ↔
      y = x ∨ y ∈ s.invalidSignatures ∨ y ∈ ReverseIndex.referencingItems index x := by
  rw [process, mem_invalidSignatures_markReferencing, invalidSignatures_promote]
  simp [markProcessed, or_assoc]

/-- The loop is a worklist. -/
theorem run_processedSymbols (expense : ℕ) (s : Propagation) :
    (run index expense s).map processedSymbols =
      worklist (pushes index) expense s.processedSymbols s.symbolsToProcess := by
  induction expense generalizing s with
  | zero =>
    unfold run worklist
    cases skipProcessed s.processedSymbols s.symbolsToProcess <;> rfl
  | succ expense ih =>
    unfold run worklist
    cases skipProcessed s.processedSymbols s.symbolsToProcess with
    | nil => rfl
    | cons x rest =>
      show (run index expense _).map processedSymbols = worklist _ _ _ _
      rw [ih, processedSymbols_process, symbolsToProcess_process]

/-- Marked are the seeds, the processed items and some items that are still to process. -/
structure Marks (seeds : Finset SymbolIdentifier) (s : Propagation) : Prop where
  seeds_marked : ∀ y ∈ seeds, y ∈ s.invalidSignatures
  processed_marked : ∀ y ∈ s.processedSymbols, y ∈ s.invalidSignatures
  marked : ∀ y ∈ s.invalidSignatures,
    y ∈ seeds ∨ y ∈ s.processedSymbols ∨ y ∈ s.symbolsToProcess

theorem Marks.process {seeds : Finset SymbolIdentifier} {s : Propagation} {x : SymbolIdentifier}
    {rest : List SymbolIdentifier} (h : Marks seeds s)
    (hx : skipProcessed s.processedSymbols s.symbolsToProcess = x :: rest) :
    Marks seeds (process index x { s with symbolsToProcess := rest }) := by
  have hkeep (y : SymbolIdentifier) (hy : y ∈ s.symbolsToProcess) :
      y ∈ s.processedSymbols ∨ y = x ∨ y ∈ rest := by
    rw [← List.mem_cons, ← hx]
    exact mem_skipProcessed hy
  constructor
  · intro y hy
    exact mem_invalidSignatures_process.mpr (.inr (.inl (h.seeds_marked y hy)))
  · intro y hy
    rw [processedSymbols_process, List.mem_cons] at hy
    rw [mem_invalidSignatures_process]
    exact hy.imp_right fun hy => .inl (h.processed_marked y hy)
  · intro y hy
    rw [processedSymbols_process, symbolsToProcess_process, List.mem_cons, List.mem_append]
    rcases mem_invalidSignatures_process.mp hy with rfl | hy | hy
    · exact .inr (.inl (.inl rfl))
    · rcases h.marked y hy with hy | hy | hy
      · exact .inl hy
      · exact .inr (.inl (.inr hy))
      · have := hkeep y hy
        tauto
    · by_cases hprocessed : y ∈ x :: s.processedSymbols
      · exact .inr (.inl (List.mem_cons.mp hprocessed))
      · refine .inr (.inr (.inl ?_))
        rw [pushes, List.mem_append, List.mem_reverse, List.mem_filter]
        exact .inl ⟨hy, by simpa using hprocessed⟩

theorem Marks.done {seeds : Finset SymbolIdentifier} {s : Propagation} (h : Marks seeds s)
    (hs : skipProcessed s.processedSymbols s.symbolsToProcess = []) {y : SymbolIdentifier} :
    y ∈ s.invalidSignatures ↔ y ∈ seeds ∨ y ∈ s.processedSymbols := by
  constructor
  · intro hy
    rcases h.marked y hy with hy | hy | hy
    · exact .inl hy
    · exact .inr hy
    · have hskip : y ∈ s.processedSymbols ∨
          y ∈ skipProcessed s.processedSymbols s.symbolsToProcess := mem_skipProcessed hy
      rw [hs] at hskip
      exact .inr (by simpa using hskip)
  · intro hy
    rcases hy with hy | hy
    · exact h.seeds_marked y hy
    · exact h.processed_marked y hy

/-- When the loop ends, marked are the seeds and the processed items. -/
theorem mem_invalidSignatures_run {seeds : Finset SymbolIdentifier} {expense : ℕ}
    {s t : Propagation} (h : Marks seeds s) (ht : run index expense s = some t)
    {y : SymbolIdentifier} :
    y ∈ t.invalidSignatures ↔ y ∈ seeds ∨ y ∈ t.processedSymbols := by
  induction expense generalizing s with
  | zero =>
    unfold run at ht
    split at ht
    case h_1 hnil =>
      cases ht
      exact h.done hnil
    case h_2 => cases ht
  | succ expense ih =>
    unfold run at ht
    split at ht
    case h_1 hnil =>
      cases ht
      exact h.done hnil
    case h_2 hcons => exact ih (h.process hcons) ht

end Propagation

end Simulation

section Result

variable {references diff}

theorem mem_markOrigin {κ : Type} [DecidableEq κ] {invalid : Finset SymbolIdentifier}
    {entries : List (κ × List SymbolIdentifier)} {origins : Finset κ} {o : κ} :
    o ∈ entries.foldl (markOrigin invalid) origins ↔
      o ∈ origins ∨ ∃ y ∈ invalid, ∃ items, (o, items) ∈ entries ∧ y ∈ items := by
  induction entries generalizing origins with
  | nil => simp
  | cons e entries ih =>
    obtain ⟨p, items⟩ := e
    have hentry : o ∈ markOrigin invalid origins (p, items) ↔
        o ∈ origins ∨ o = p ∧ ∃ y ∈ invalid, y ∈ items := by
      simp only [markOrigin, referencesAny, List.any_eq_true, decide_eq_true_eq]
      split_ifs with hany
      · obtain ⟨y, hy, hinvalid⟩ := hany
        rw [Finset.mem_insert, or_comm]
        exact or_congr_right (iff_self_and.mpr fun _ => ⟨y, hinvalid, hy⟩)
      · have hnone : ¬ ∃ y ∈ invalid, y ∈ items := fun ⟨y, hinvalid, hy⟩ => hany ⟨y, hy, hinvalid⟩
        simp only [hnone, and_false, or_false]
    rw [List.foldl_cons, ih, hentry, or_assoc]
    refine or_congr_right ?_
    constructor
    · rintro (⟨rfl, y, hinvalid, hy⟩ | ⟨y, hinvalid, items', hmem, hy⟩)
      · exact ⟨y, hinvalid, items, List.mem_cons_self, hy⟩
      · exact ⟨y, hinvalid, items', List.mem_cons_of_mem _ hmem, hy⟩
    · rintro ⟨y, hinvalid, items', hmem, hy⟩
      rcases List.mem_cons.mp hmem with heq | hmem
      · obtain ⟨rfl, rfl⟩ := Prod.mk.inj heq
        exact .inl ⟨rfl, y, hinvalid, hy⟩
      · exact .inr ⟨y, hinvalid, items', hmem, hy⟩

theorem visitBody_foldl (invalid : Finset SymbolIdentifier)
    (entries : List (SymbolIdentifier × List SymbolIdentifier))
    (state : Finset SymbolIdentifier × Finset Word) :
    (entries.foldl (visitBody invalid) state).1 = entries.foldl (markOrigin invalid) state.1 := by
  induction entries generalizing state with
  | nil => rfl
  | cons e entries ih => exact ih _

theorem pushesSteps :
    PushesSteps (Spreads references) (pushes (references.seeds diff).sigReverseIndex) where
  sound := by
    intro processed x y hy
    rw [pushes, List.mem_append, List.mem_reverse, List.mem_filter, mem_seeds_index] at hy
    rcases hy with ⟨hy, -⟩ | hy
    · exact .inr hy
    · split_ifs at hy with hmember
      · exact .inl ⟨hmember.1, List.mem_singleton.mp hy⟩
      · cases hy
  complete := by
    intro processed x y hy
    by_cases hprocessed : y ∈ processed
    · exact .inl hprocessed
    · refine .inr ?_
      rw [pushes, List.mem_append, List.mem_reverse, List.mem_filter, mem_seeds_index]
      rcases hy with ⟨hmember, rfl⟩ | hy
      · rw [if_pos ⟨hmember, hprocessed⟩]
        exact .inr List.mem_cons_self
      · exact .inl ⟨hy, by simpa using hprocessed⟩

theorem marks_start :
    Propagation.Marks (references.seeds diff).invalidSignatures (references.start diff) where
  seeds_marked := fun _ hy => hy
  processed_marked := by simp [SymbolReferences.start]
  marked := fun _ hy => .inl hy

theorem run_start :
    (Propagation.run (references.seeds diff).sigReverseIndex expenseLimit
      (references.start diff)).map Propagation.processedSymbols =
      worklist (pushes (references.seeds diff).sigReverseIndex) expenseLimit []
        diff.changed.reverse :=
  Propagation.run_processedSymbols expenseLimit (references.start diff)

theorem mem_run_start {t : Propagation}
    (ht : Propagation.run (references.seeds diff).sigReverseIndex expenseLimit
      (references.start diff) = some t) {x : SymbolIdentifier} :
    x ∈ t.invalidSignatures ↔ Source references diff x := by
  have hrun : (some t).map Propagation.processedSymbols = _ := ht ▸ run_start
  rw [Option.map_some] at hrun
  rw [Propagation.mem_invalidSignatures_run marks_start ht, mem_seeds,
    mem_worklist pushesSteps hrun.symm, or_comm]
  rfl

/-- The propagation gives up when it reaches more entries than the limit. -/
theorem getInvalidSymbols_eq_none :
    references.getInvalidSymbols diff = none ↔ MoreThan expenseLimit (Reached references diff) := by
  have hworklist : worklist (pushes (references.seeds diff).sigReverseIndex) expenseLimit []
      diff.changed.reverse = none ↔
      MoreThan expenseLimit (ReachableFrom (Spreads references) diff.changed.reverse) :=
    worklist_eq_none_iff pushesSteps
  rw [← run_start, Option.map_eq_none_iff] at hworklist
  rw [Reached, ← hworklist, SymbolReferences.getInvalidSymbols]
  cases Propagation.run _ expenseLimit (references.start diff) <;> simp

/-- What the propagation returns, in terms of the sources. -/
theorem getInvalidSymbols_eq_some {invalid : Finset SymbolIdentifier}
    {partiallyInvalid files : Finset Word}
    (h : references.getInvalidSymbols diff = some (invalid, partiallyInvalid, files)) :
    (∀ x, x ∈ invalid ↔
      Source references diff x ∨ ∃ y, Source references diff y ∧ references.References x y) ∧
    ∀ f, f ∈ files ↔ ∃ y, Source references diff y ∧ references.FileReferences f y := by
  unfold SymbolReferences.getInvalidSymbols at h
  cases ht : Propagation.run (references.seeds diff).sigReverseIndex expenseLimit
    (references.start diff) with
  | none =>
    rw [ht] at h
    cases h
  | some t =>
    rw [ht] at h
    obtain ⟨rfl, -, rfl⟩ := h
    constructor
    · intro x
      rw [Finset.mem_union, visitBody_foldl, mem_markOrigin, visitBody_foldl, mem_markOrigin]
      simp only [mem_run_start ht, Finset.notMem_empty, false_or, SymbolReferences.References,
        SymbolReferences.ReferencesInSignature, SymbolReferences.MapReferences, and_or_left,
        exists_or]
    · intro f
      rw [List.foldl_append, mem_markOrigin, mem_markOrigin]
      simp only [mem_run_start ht, Finset.notMem_empty, false_or, SymbolReferences.FileReferences,
        SymbolReferences.MapReferences, and_or_left, exists_or]

end Result

section Exact

/-- What a result has to be: the invalid entries and what references them, the files that
reference one, nothing only when there were too many to process. -/
def InvalidatesExactly :
    Option (Finset SymbolIdentifier × Finset Word × Finset Word) → Prop
  | none => MoreThan expenseLimit (Invalid references diff)
  | some (invalid, _, files) =>
    (∀ x, x ∈ invalid ↔
      Invalid references diff x ∨ ∃ y, Invalid references diff y ∧ references.References x y) ∧
    ∀ f, f ∈ files ↔ ∃ y, Invalid references diff y ∧ references.FileReferences f y

/-- An entry where a chain of steps from an origin whose class changed ends. -/
def Chained (y : SymbolIdentifier) : Prop :=
  ∃ x, OwnedOrigin references diff x ∧ Relation.TransGen (Spreads references) x y

/-- A source, or an entry that refers to one itself and not only through others. -/
def Near (x : SymbolIdentifier) : Prop :=
  Source references diff x ∨ ∃ z, Source references diff z ∧ references.References x z

/-- Nothing depends on an origin whose class changed only through a chain of several steps. -/
structure NoLongChains : Prop where
  containing : ∀ c m, Chained references diff (c, m) → m ≠ emptyWord →
    Near references diff (c, emptyWord)
  symbol : ∀ x, Chained references diff x → ∀ y, references.References y x → Near references diff y
  file : ∀ x, Chained references diff x → ∀ f, references.FileReferences f x →
    ∃ z, Source references diff z ∧ references.FileReferences f z

variable {references diff}

theorem Reached.invalid {x : SymbolIdentifier} (h : Reached references diff x) :
    Invalid references diff x := by
  obtain ⟨s, hs, hsx⟩ := h
  induction hsx with
  | refl => exact .changed (List.mem_reverse.mp hs)
  | tail _ hstep ih =>
    rcases hstep with ⟨-, rfl⟩ | hstep
    · exact .containing ih
    · exact .referencing ih hstep

theorem Source.invalid {x : SymbolIdentifier} (h : Source references diff x) :
    Invalid references diff x := by
  rcases h with h | h
  · exact h.invalid
  · exact .owned h

theorem Reached.step {x y : SymbolIdentifier} (h : Reached references diff x)
    (hxy : Spreads references x y) : Reached references diff y := by
  obtain ⟨s, hs, hsx⟩ := h
  exact ⟨s, hs, hsx.tail hxy⟩

theorem Chained.step {x y : SymbolIdentifier} (h : Chained references diff x)
    (hxy : Spreads references x y) : Chained references diff y := by
  obtain ⟨s, hs, hsx⟩ := h
  exact ⟨s, hs, hsx.tail hxy⟩

theorem Invalid.step {x y : SymbolIdentifier} (h : Invalid references diff x)
    (hxy : Spreads references x y) : Invalid references diff y := by
  rcases hxy with ⟨-, rfl⟩ | hxy
  · exact .containing h
  · exact .referencing h hxy

theorem Chained.invalid {x : SymbolIdentifier} (h : Chained references diff x) :
    Invalid references diff x := by
  obtain ⟨s, hs, hsx⟩ := h
  induction hsx with
  | single hstep => exact (Invalid.owned hs).step hstep
  | tail _ hstep ih => exact ih.step hstep

/-- The class of an origin whose class changed is reached. -/
theorem OwnedOrigin.reached {c m : Word} (h : OwnedOrigin references diff (c, m)) :
    Reached references diff (c, emptyWord) :=
  ⟨(c, emptyWord), List.mem_reverse.mpr h.2, .refl⟩

/-- What is invalid is a source, or depends on a source through a chain. -/
theorem Invalid.source_or_chained {x : SymbolIdentifier} (h : Invalid references diff x) :
    Source references diff x ∨ Chained references diff x := by
  induction h with
  | @changed x h => exact .inl (.inl ⟨x, List.mem_reverse.mpr h, .refl⟩)
  | owned h => exact .inl (.inr h)
  | @containing c m _ ih =>
    by_cases hm : m = emptyWord
    · rwa [hm] at ih
    have hstep : Spreads references (c, m) (c, emptyWord) := .inl ⟨hm, rfl⟩
    rcases ih with (hreached | howned) | hchained
    · exact .inl (.inl (hreached.step hstep))
    · exact .inl (.inl howned.reached)
    · exact .inr (hchained.step hstep)
  | @referencing x y _ hy ih =>
    rcases ih with (hreached | howned) | hchained
    · exact .inl (.inl (hreached.step (.inr hy)))
    · exact .inr ⟨x, howned, .single (.inr hy)⟩
    · exact .inr (hchained.step (.inr hy))

/-- Where no chain is needed the ends of all chains are near. -/
theorem NoLongChains.near_of_chained (h : NoLongChains references diff) {y : SymbolIdentifier}
    (hy : Chained references diff y) : Near references diff y := by
  obtain ⟨s, hs, hsy⟩ := hy
  cases hsy with
  | single hstep =>
    rcases hstep with ⟨-, rfl⟩ | hstep
    · exact .inl (.inl hs.reached)
    · exact .inr ⟨s, .inr hs, .inr hstep⟩
  | tail hsx hstep =>
    rename_i x
    have hx : Chained references diff x := ⟨s, hs, hsx⟩
    rcases hstep with ⟨hm, rfl⟩ | hstep
    · exact h.containing x.1 x.2 hx hm
    · exact h.symbol x hx y (.inr hstep)

variable (references diff) in
/-- The propagation is exact when it gives up, and else exactly when no chain is needed. -/
theorem invalidatesExactly_iff :
    InvalidatesExactly references diff (references.getInvalidSymbols diff) ↔
      MoreThan expenseLimit (Reached references diff) ∨ NoLongChains references diff := by
  cases hresult : references.getInvalidSymbols diff with
  | none =>
    have hmany := getInvalidSymbols_eq_none.mp hresult
    exact iff_of_true (hmany.mono fun _ hx => hx.invalid) (.inl hmany)
  | some result =>
    obtain ⟨invalid, partiallyInvalid, files⟩ := result
    obtain ⟨hinvalid, hfiles⟩ := getInvalidSymbols_eq_some hresult
    have hfew : ¬ MoreThan expenseLimit (Reached references diff) := fun hmany => by
      rw [getInvalidSymbols_eq_none.mpr hmany] at hresult
      cases hresult
    constructor
    · intro hall
      obtain ⟨hexact, hfilesExact⟩ := hall
      refine .inr ⟨?_, ?_, ?_⟩
      · intro c m hchained _
        exact (hinvalid _).mp ((hexact _).mpr (.inl (.containing hchained.invalid)))
      · intro x hx y hy
        exact (hinvalid y).mp ((hexact y).mpr (.inr ⟨x, hx.invalid, hy⟩))
      · intro x hx f hf
        exact (hfiles f).mp ((hfilesExact f).mpr ⟨x, hx.invalid, hf⟩)
    · intro hcondition
      have hchains := hcondition.resolve_left hfew
      constructor
      · intro x
        rw [hinvalid]
        constructor
        · rintro (hx | ⟨y, hy, hxy⟩)
          · exact .inl hx.invalid
          · exact .inr ⟨y, hy.invalid, hxy⟩
        · rintro (hx | ⟨y, hy, hxy⟩)
          · rcases hx.source_or_chained with hx | hx
            · exact .inl hx
            · exact hchains.near_of_chained hx
          · rcases hy.source_or_chained with hy | hy
            · exact .inr ⟨y, hy, hxy⟩
            · exact hchains.symbol y hy x hxy
      · intro f
        rw [hfiles]
        constructor
        · rintro ⟨y, hy, hfy⟩
          exact ⟨y, hy.invalid, hfy⟩
        · rintro ⟨y, hy, hfy⟩
          rcases hy.source_or_chained with hy | hy
          · exact ⟨y, hy, hfy⟩
          · exact hchains.file y hy f hfy

/-- Class 1 changed, so its member is marked; class 3 names the member and class 4 names class 3,
but the member is not queued. -/
def markedMember : SymbolReferences where
  symbolReferencesToSymbols := OrderedMap.empty
  symbolReferencesToSymbolsInSignature :=
    .ofList [(([1], [9]), [([2], [])]), (([3], []), [([1], [9])]), (([4], []), [([3], [])])]
  fileReferencesToSymbols := OrderedMap.empty
  fileReferencesToSymbolsInSignature := OrderedMap.empty

theorem markedMember_not_exact :
    ¬ InvalidatesExactly markedMember ⟨[([1], [])]⟩
      (markedMember.getInvalidSymbols ⟨[([1], [])]⟩) := by
  have hresult : markedMember.getInvalidSymbols ⟨[([1], [])]⟩ =
      some ({([1], []), ([1], [9]), ([3], [])}, {[1]}, ∅) := by decide
  have hmember : Invalid markedMember ⟨[([1], [])]⟩ ([1], [9]) :=
    .owned ⟨by decide, by decide⟩
  have hthree : Invalid markedMember ⟨[([1], [])]⟩ ([3], []) :=
    .referencing hmember ⟨[([1], [9])], by decide, by decide⟩
  have hfour : Invalid markedMember ⟨[([1], [])]⟩ ([4], []) :=
    .referencing hthree ⟨[([3], [])], by decide, by decide⟩
  rw [hresult]
  intro hexact
  have hmem := (hexact.1 ([4], [])).mpr (.inl hfour)
  exact absurd hmem (by decide)

end Exact

end Mago.Incremental
