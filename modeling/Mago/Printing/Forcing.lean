import Mago.Printing.Trace

/-!
# Forcing every group with a break

One pass over a whole document that forces every group a break is in, where the printer
forces groups one by one as it meets them. A break is in a group also when it is in a part of
a part, unless a group with expanded states or one that keeps its breaks to itself stands in
between.
-/
namespace Mago.Printing
open Library

namespace Document

mutual

/-- A break reaches the parent. -/
def hasBreak : Document → Bool
  | breakParent => true
  | group contents mode _ _ => mode == .force || (mode == .auto && hasBreakAny contents)
  | conditional _ _ _ mode _ _ => mode == .force
  | ifBreak breakContents _ _ => hasBreak breakContents
  | array docs => hasBreakAny docs
  | indent docs => hasBreakAny docs
  | align _ contents => hasBreakAny contents
  | indentIfBreak _ contents => hasBreakAny contents
  | _ => false

def hasBreakAny : List Document → Bool
  | [] => false
  | doc :: docs => hasBreakAny docs || hasBreak doc

end

/-- The mode of a group in the end. -/
def finalMode (contents : List Document) (mode : BreakMode) : BreakMode :=
  if mode = .auto ∧ hasBreakAny contents = true then .force else mode

mutual

/-- Force every group with a break in it; no group is in the cache yet. -/
def forceBreaks : Document → Document
  | group contents mode id _ =>
    group (forceBreaksIn contents) (finalMode contents mode) id false
  | conditional contents states mostExpanded mode id _ =>
    conditional (forceBreaksIn contents) (forceBreaksIn states) (forceBreaks mostExpanded) mode
      id false
  | array docs => array (forceBreaksIn docs)
  | indent docs => indent (forceBreaksIn docs)
  | lineSuffix docs => lineSuffix (forceBreaksIn docs)
  | indentIfBreak groupId contents => indentIfBreak groupId (forceBreaksIn contents)
  | align alignment contents => align alignment (forceBreaksIn contents)
  | ifBreak breakContents flatContent groupId =>
    ifBreak (forceBreaks breakContents) (forceBreaks flatContent) groupId
  | doc => doc

def forceBreaksIn : List Document → List Document
  | [] => []
  | doc :: docs => forceBreaks doc :: forceBreaksIn docs

end

mutual

/-- Of all groups in a document. -/
def EveryGroup (P : List Document → BreakMode → Bool → Prop) : Document → Prop
  | group contents mode _ propagated =>
    P contents mode propagated ∧ EveryGroupIn P contents
  | conditional contents states mostExpanded _ _ _ =>
    EveryGroupIn P contents ∧ EveryGroupIn P states ∧ EveryGroup P mostExpanded
  | array docs => EveryGroupIn P docs
  | indent docs => EveryGroupIn P docs
  | lineSuffix docs => EveryGroupIn P docs
  | indentIfBreak _ contents => EveryGroupIn P contents
  | align _ contents => EveryGroupIn P contents
  | ifBreak breakContents flatContent _ => EveryGroup P breakContents ∧ EveryGroup P flatContent
  | _ => True

def EveryGroupIn (P : List Document → BreakMode → Bool → Prop) : List Document → Prop
  | [] => True
  | doc :: docs => EveryGroup P doc ∧ EveryGroupIn P docs

end

/-- A group in the cache has no break to force it. -/
def Cached (contents : List Document) (mode : BreakMode) (propagated : Bool) : Prop :=
  propagated = true → mode = .auto → hasBreakAny contents = false

/-- Before printing no group is in the cache. -/
def Fresh (_ : List Document) (_ : BreakMode) (propagated : Bool) : Prop := propagated = false

/-- A group has its final mode. -/
def Forced (contents : List Document) (mode : BreakMode) (_ : Bool) : Prop :=
  mode = .auto → hasBreakAny contents = false

theorem forced_iff {contents : List Document} {mode : BreakMode} {propagated : Bool} :
    Forced contents mode propagated ↔ finalMode contents mode = mode := by
  unfold Forced finalMode
  cases mode <;> cases hasBreakAny contents <;> simp

section Groups

variable {P Q : List Document → BreakMode → Bool → Prop}

theorem everyGroupIn_iff {docs : List Document} :
    EveryGroupIn P docs ↔ ∀ doc ∈ docs, EveryGroup P doc := by
  induction docs with
  | nil => simp [EveryGroupIn]
  | cons doc docs ih => simp [EveryGroupIn, ih]

mutual

theorem EveryGroup.imp (hPQ : ∀ contents mode propagated, P contents mode propagated →
      Q contents mode propagated) : ∀ doc : Document, EveryGroup P doc → EveryGroup Q doc
  | group contents mode _ propagated, h => by
    simp only [EveryGroup] at h ⊢
    exact ⟨hPQ contents mode propagated h.1, EveryGroupIn.imp hPQ contents h.2⟩
  | conditional contents states mostExpanded _ _ _, h => by
    simp only [EveryGroup] at h ⊢
    exact ⟨EveryGroupIn.imp hPQ contents h.1, EveryGroupIn.imp hPQ states h.2.1,
      EveryGroup.imp hPQ mostExpanded h.2.2⟩
  | array docs, h | indent docs, h | lineSuffix docs, h | indentIfBreak _ docs, h
  | align _ docs, h => by
    simp only [EveryGroup] at h ⊢
    exact EveryGroupIn.imp hPQ docs h
  | ifBreak breakContents flatContent _, h => by
    simp only [EveryGroup] at h ⊢
    exact ⟨EveryGroup.imp hPQ breakContents h.1, EveryGroup.imp hPQ flatContent h.2⟩
  | string _, _ | rangeStart, _ | rangeEnd, _ | line _, _ | lineSuffixBoundary, _
  | breakParent, _ | trim _, _ | doNotTrim, _ | space _, _ => by
    simp [EveryGroup]

theorem EveryGroupIn.imp (hPQ : ∀ contents mode propagated, P contents mode propagated →
      Q contents mode propagated) :
    ∀ docs : List Document, EveryGroupIn P docs → EveryGroupIn Q docs
  | [], _ => by simp [EveryGroupIn]
  | doc :: docs, h => by
    simp only [EveryGroupIn] at h ⊢
    exact ⟨EveryGroup.imp hPQ doc h.1, EveryGroupIn.imp hPQ docs h.2⟩

end

end Groups

/-! ## The pass -/

mutual

@[simp]
theorem hasBreak_forceBreaks : ∀ doc : Document, doc.forceBreaks.hasBreak = doc.hasBreak
  | group contents mode _ _ => by
    simp only [forceBreaks, hasBreak, hasBreakAny_forceBreaksIn contents, finalMode]
    cases mode <;> cases hasBreakAny contents <;> rfl
  | conditional _ _ _ _ _ _ => by simp [forceBreaks, hasBreak]
  | ifBreak breakContents _ _ => by
    simp [forceBreaks, hasBreak, hasBreak_forceBreaks breakContents]
  | array docs | indent docs | align _ docs | indentIfBreak _ docs => by
    simp [forceBreaks, hasBreak, hasBreakAny_forceBreaksIn docs]
  | string _ | rangeStart | rangeEnd | line _ | lineSuffix _ | lineSuffixBoundary | breakParent
  | trim _ | doNotTrim | space _ => by
    simp [forceBreaks, hasBreak]

@[simp]
theorem hasBreakAny_forceBreaksIn :
    ∀ docs : List Document, hasBreakAny (forceBreaksIn docs) = hasBreakAny docs
  | [] => rfl
  | doc :: docs => by
    simp [forceBreaksIn, hasBreakAny, hasBreak_forceBreaks doc, hasBreakAny_forceBreaksIn docs]

end

mutual

theorem forced_forceBreaks : ∀ doc : Document, EveryGroup Forced doc.forceBreaks
  | group contents mode _ _ => by
    simp only [forceBreaks, EveryGroup]
    refine ⟨?_, forcedIn_forceBreaksIn contents⟩
    intro hauto
    rw [hasBreakAny_forceBreaksIn]
    unfold finalMode at hauto
    split at hauto
    · cases hauto
    · simp_all
  | conditional contents states mostExpanded _ _ _ => by
    simp only [forceBreaks, EveryGroup]
    exact ⟨forcedIn_forceBreaksIn contents, forcedIn_forceBreaksIn states,
      forced_forceBreaks mostExpanded⟩
  | array docs | indent docs | lineSuffix docs | indentIfBreak _ docs | align _ docs => by
    simp only [forceBreaks, EveryGroup]
    exact forcedIn_forceBreaksIn docs
  | ifBreak breakContents flatContent _ => by
    simp only [forceBreaks, EveryGroup]
    exact ⟨forced_forceBreaks breakContents, forced_forceBreaks flatContent⟩
  | string _ | rangeStart | rangeEnd | line _ | lineSuffixBoundary | breakParent | trim _
  | doNotTrim | space _ => by
    simp [forceBreaks, EveryGroup]

theorem forcedIn_forceBreaksIn :
    ∀ docs : List Document, EveryGroupIn Forced (forceBreaksIn docs)
  | [] => by simp [forceBreaksIn, EveryGroupIn]
  | doc :: docs => by
    simp only [forceBreaksIn, EveryGroupIn]
    exact ⟨forced_forceBreaks doc, forcedIn_forceBreaksIn docs⟩

end

mutual

/-- A second pass changes nothing. -/
theorem forceBreaks_forceBreaks : ∀ doc : Document, doc.forceBreaks.forceBreaks = doc.forceBreaks
  | group contents mode _ _ => by
    simp only [forceBreaks, forceBreaksIn_forceBreaksIn contents, finalMode,
      hasBreakAny_forceBreaksIn]
    cases mode <;> cases hasBreakAny contents <;> rfl
  | conditional contents states mostExpanded _ _ _ => by
    simp [forceBreaks, forceBreaksIn_forceBreaksIn contents, forceBreaksIn_forceBreaksIn states,
      forceBreaks_forceBreaks mostExpanded]
  | array docs | indent docs | lineSuffix docs | indentIfBreak _ docs | align _ docs => by
    simp [forceBreaks, forceBreaksIn_forceBreaksIn docs]
  | ifBreak breakContents flatContent _ => by
    simp [forceBreaks, forceBreaks_forceBreaks breakContents, forceBreaks_forceBreaks flatContent]
  | string _ | rangeStart | rangeEnd | line _ | lineSuffixBoundary | breakParent | trim _
  | doNotTrim | space _ => by
    simp [forceBreaks]

theorem forceBreaksIn_forceBreaksIn :
    ∀ docs : List Document, forceBreaksIn (forceBreaksIn docs) = forceBreaksIn docs
  | [] => rfl
  | doc :: docs => by
    simp [forceBreaksIn, forceBreaks_forceBreaks doc, forceBreaksIn_forceBreaksIn docs]

end

/-! ## Copies -/

mutual

@[simp]
theorem hasBreak_cloneInArena : ∀ doc : Document, doc.cloneInArena.hasBreak = doc.hasBreak
  | group contents _ _ _ | array contents | indent contents | align _ contents
  | indentIfBreak _ contents => by
    simp [cloneInArena, hasBreak, hasBreakAny_cloneVecInArena contents]
  | conditional _ _ _ _ _ _ => by simp [cloneInArena, hasBreak]
  | ifBreak breakContents _ _ => by
    simp [cloneInArena, hasBreak, hasBreak_cloneInArena breakContents]
  | string _ | rangeStart | rangeEnd | line _ | lineSuffix _ | lineSuffixBoundary | breakParent
  | trim _ | doNotTrim | space _ => by
    simp [cloneInArena, hasBreak]

@[simp]
theorem hasBreakAny_cloneVecInArena :
    ∀ docs : List Document, hasBreakAny (cloneVecInArena docs) = hasBreakAny docs
  | [] => rfl
  | doc :: docs => by
    simp [cloneVecInArena, hasBreakAny, hasBreak_cloneInArena doc,
      hasBreakAny_cloneVecInArena docs]

end

mutual

@[simp]
theorem forceBreaks_cloneInArena :
    ∀ doc : Document, doc.cloneInArena.forceBreaks = doc.forceBreaks
  | group contents _ _ _ | array contents | indent contents | lineSuffix contents
  | align _ contents | indentIfBreak _ contents => by
    simp [cloneInArena, forceBreaks, finalMode, forceBreaksIn_cloneVecInArena contents]
  | conditional contents states mostExpanded _ _ _ => by
    simp [cloneInArena, forceBreaks, forceBreaksIn_cloneVecInArena contents,
      forceBreaksIn_cloneVecInArena states, forceBreaks_cloneInArena mostExpanded]
  | ifBreak breakContents flatContent _ => by
    simp [cloneInArena, forceBreaks, forceBreaks_cloneInArena breakContents,
      forceBreaks_cloneInArena flatContent]
  | string _ | rangeStart | rangeEnd | line _ | lineSuffixBoundary | breakParent | trim _
  | doNotTrim | space _ => by
    simp [cloneInArena, forceBreaks]

@[simp]
theorem forceBreaksIn_cloneVecInArena :
    ∀ docs : List Document, forceBreaksIn (cloneVecInArena docs) = forceBreaksIn docs
  | [] => rfl
  | doc :: docs => by
    simp [cloneVecInArena, forceBreaksIn, forceBreaks_cloneInArena doc,
      forceBreaksIn_cloneVecInArena docs]

end

mutual

/-- The pass leaves no group in the cache. -/
@[simp]
theorem cloneInArena_forceBreaks :
    ∀ doc : Document, doc.forceBreaks.cloneInArena = doc.forceBreaks
  | group contents _ _ _ | array contents | indent contents | lineSuffix contents
  | align _ contents | indentIfBreak _ contents => by
    simp [cloneInArena, forceBreaks, cloneVecInArena_forceBreaksIn contents]
  | conditional contents states mostExpanded _ _ _ => by
    simp [cloneInArena, forceBreaks, cloneVecInArena_forceBreaksIn contents,
      cloneVecInArena_forceBreaksIn states, cloneInArena_forceBreaks mostExpanded]
  | ifBreak breakContents flatContent _ => by
    simp [cloneInArena, forceBreaks, cloneInArena_forceBreaks breakContents,
      cloneInArena_forceBreaks flatContent]
  | string _ | rangeStart | rangeEnd | line _ | lineSuffixBoundary | breakParent | trim _
  | doNotTrim | space _ => by
    simp [cloneInArena, forceBreaks]

@[simp]
theorem cloneVecInArena_forceBreaksIn :
    ∀ docs : List Document, cloneVecInArena (forceBreaksIn docs) = forceBreaksIn docs
  | [] => rfl
  | doc :: docs => by
    simp [cloneVecInArena, forceBreaksIn, cloneInArena_forceBreaks doc,
      cloneVecInArena_forceBreaksIn docs]

end

section Copies

variable {P : List Document → BreakMode → Bool → Prop}

mutual

theorem EveryGroup.cloneInArena (hclone : ∀ contents mode propagated,
      P contents mode propagated → P (cloneVecInArena contents) mode false) :
    ∀ doc : Document, EveryGroup P doc → EveryGroup P doc.cloneInArena
  | group contents mode _ propagated, h => by
    simp only [Document.cloneInArena, EveryGroup] at h ⊢
    exact ⟨hclone contents mode propagated h.1, EveryGroupIn.cloneVecInArena hclone contents h.2⟩
  | conditional contents states mostExpanded _ _ _, h => by
    simp only [Document.cloneInArena, EveryGroup] at h ⊢
    exact ⟨EveryGroupIn.cloneVecInArena hclone contents h.1, EveryGroupIn.cloneVecInArena hclone states h.2.1,
      EveryGroup.cloneInArena hclone mostExpanded h.2.2⟩
  | array docs, h | indent docs, h | lineSuffix docs, h | indentIfBreak _ docs, h
  | align _ docs, h => by
    simp only [Document.cloneInArena, EveryGroup] at h ⊢
    exact EveryGroupIn.cloneVecInArena hclone docs h
  | ifBreak breakContents flatContent _, h => by
    simp only [Document.cloneInArena, EveryGroup] at h ⊢
    exact ⟨EveryGroup.cloneInArena hclone breakContents h.1, EveryGroup.cloneInArena hclone flatContent h.2⟩
  | string _, _ | rangeStart, _ | rangeEnd, _ | line _, _ | lineSuffixBoundary, _
  | breakParent, _ | trim _, _ | doNotTrim, _ | space _, _ => by
    simp [Document.cloneInArena, EveryGroup]

theorem EveryGroupIn.cloneVecInArena (hclone : ∀ contents mode propagated,
      P contents mode propagated → P (cloneVecInArena contents) mode false) :
    ∀ docs : List Document, EveryGroupIn P docs → EveryGroupIn P (cloneVecInArena docs)
  | [], _ => by simp [Document.cloneVecInArena, EveryGroupIn]
  | doc :: docs, h => by
    simp only [Document.cloneVecInArena, EveryGroupIn] at h ⊢
    exact ⟨EveryGroup.cloneInArena hclone doc h.1, EveryGroupIn.cloneVecInArena hclone docs h.2⟩

end

end Copies

theorem cached_clone (contents : List Document) (mode : BreakMode) (propagated : Bool)
    (_ : Cached contents mode propagated) : Cached (cloneVecInArena contents) mode false := by
  intro hpropagated
  cases hpropagated

theorem forced_clone (contents : List Document) (mode : BreakMode) (propagated : Bool)
    (h : Forced contents mode propagated) : Forced (cloneVecInArena contents) mode false := by
  intro hauto
  rw [hasBreakAny_cloneVecInArena]
  exact h hauto

theorem cached_of_fresh (contents : List Document) (mode : BreakMode) (propagated : Bool)
    (h : Fresh contents mode propagated) : Cached contents mode propagated := by
  intro hpropagated
  rw [h] at hpropagated
  cases hpropagated

theorem cached_of_forced (contents : List Document) (mode : BreakMode) (propagated : Bool)
    (h : Forced contents mode propagated) : Cached contents mode propagated := fun _ => h

/-! ## Propagation -/

/-- What propagation does to a document: it tells whether a break reaches the parent, and
forces no group that the pass does not force. -/
structure Propagates (doc : Document) (result : Bool × Document) : Prop where
  tells : result.1 = doc.hasBreak
  hasBreak_eq : result.2.hasBreak = doc.hasBreak
  forceBreaks_eq : result.2.forceBreaks = doc.forceBreaks
  cached : EveryGroup Cached result.2
  forced : EveryGroup Forced doc → EveryGroup Forced result.2

structure PropagatesIn (docs : List Document) (result : Bool × List Document) : Prop where
  tells : result.1 = hasBreakAny docs
  hasBreakAny_eq : hasBreakAny result.2 = hasBreakAny docs
  forceBreaksIn_eq : forceBreaksIn result.2 = forceBreaksIn docs
  cached : EveryGroupIn Cached result.2
  forced : EveryGroupIn Forced docs → EveryGroupIn Forced result.2

theorem Propagates.refl {doc : Document} {shouldBreak : Bool} (h : EveryGroup Cached doc)
    (hbreak : shouldBreak = doc.hasBreak) : Propagates doc (shouldBreak, doc) :=
  ⟨hbreak, rfl, rfl, h, id⟩

theorem propagates_group {contents : List Document} {mode : BreakMode}
    {id : Option GroupIdentifier} {propagated : Bool}
    (h : EveryGroup Cached (group contents mode id propagated))
    (hcontents : PropagatesIn contents (propagateSliceBreaks contents)) :
    Propagates (group contents mode id propagated)
      (group contents mode id propagated).propagateBreaks := by
  obtain ⟨htells, hbreaks, hforce, hcached, hforced⟩ := hcontents
  have hgroup : Cached contents mode propagated := h.1
  unfold propagateBreaks
  cases mode with
  | force =>
    simp only [if_true]
    exact .refl h rfl
  | preserve =>
    simp only [reduceCtorEq, if_false, ne_eq, not_true_eq_false, and_false]
    split
    · exact .refl h rfl
    · refine ⟨rfl, by simp [hasBreak, hbreaks], by simp [forceBreaks, finalMode, hforce],
        ⟨by simp [Cached], hcached⟩, ?_⟩
      intro hall
      exact ⟨by simp [Forced], hforced hall.2⟩
  | auto =>
    simp only [reduceCtorEq, if_false, ne_eq, not_false_eq_true, and_true]
    split
    case isTrue hskip =>
      have hpropagated : propagated = true := by
        simp only [Bool.and_eq_true] at hskip
        exact hskip.2
      exact .refl h (by simp [hasBreak, hgroup hpropagated rfl])
    case isFalse =>
      cases hany : hasBreakAny contents with
      | true =>
        rw [hany] at htells
        simp only [htells, if_true]
        refine ⟨by simp [hasBreak, hany], by simp [hasBreak, hany],
          by simp [forceBreaks, finalMode, hforce, hany], ⟨by simp [Cached], hcached⟩, ?_⟩
        intro hall
        exact ⟨by simp [Forced], hforced hall.2⟩
      | false =>
        rw [hany] at htells hbreaks
        simp only [htells, Bool.false_eq_true, if_false]
        refine ⟨by simp [hasBreak, hany], by simp [hasBreak, hany, hbreaks],
          by simp [forceBreaks, finalMode, hforce, hany, hbreaks],
          ⟨fun _ _ => hbreaks, hcached⟩, ?_⟩
        intro hall
        exact ⟨fun _ => hbreaks, hforced hall.2⟩

theorem propagates_conditional {contents states : List Document} {mostExpanded : Document}
    {mode : BreakMode} {id : Option GroupIdentifier} {propagated : Bool}
    (h : EveryGroup Cached (conditional contents states mostExpanded mode id propagated))
    (hcontents : PropagatesIn contents (propagateSliceBreaks contents))
    (hstates : PropagatesIn states (propagateSliceBreaks states))
    (hmost : Propagates mostExpanded mostExpanded.propagateBreaks) :
    Propagates (conditional contents states mostExpanded mode id propagated)
      (conditional contents states mostExpanded mode id propagated).propagateBreaks := by
  simp only [EveryGroup] at h
  unfold propagateBreaks
  split
  · rename_i hmode
    exact .refl h (by simp [hasBreak, hmode])
  rename_i hmode
  split
  · exact .refl h (by simp [hasBreak, hmode])
  refine ⟨by simp [hasBreak, hmode], rfl, ?_, ?_, ?_⟩
  · simp only [forceBreaks, hcontents.forceBreaksIn_eq, hmost.forceBreaks_eq]
    split
    · rfl
    · rw [hstates.forceBreaksIn_eq]
  · simp only [EveryGroup]
    refine ⟨hcontents.cached, ?_, hmost.cached⟩
    split
    · exact h.2.1
    · exact hstates.cached
  · intro hall
    simp only [EveryGroup] at hall ⊢
    refine ⟨hcontents.forced hall.1, ?_, hmost.forced hall.2.2⟩
    split
    · exact hall.2.1
    · exact hstates.forced hall.2.1

mutual

theorem propagates_propagateBreaks :
    ∀ doc : Document, EveryGroup Cached doc → Propagates doc doc.propagateBreaks
  | group contents _ _ _, h =>
    propagates_group h (propagatesIn_propagateSliceBreaks contents h.2)
  | conditional contents states mostExpanded _ _ _, h =>
    propagates_conditional h (propagatesIn_propagateSliceBreaks contents h.1)
      (propagatesIn_propagateSliceBreaks states h.2.1)
      (propagates_propagateBreaks mostExpanded h.2.2)
  | ifBreak breakContents flatContent _, h => by
    obtain ⟨htells, hbreak, hforce, hcached, hforced⟩ :=
      propagates_propagateBreaks breakContents h.1
    refine ⟨by simpa [propagateBreaks, hasBreak] using htells,
      by simpa [propagateBreaks, hasBreak] using hbreak,
      by simp [propagateBreaks, forceBreaks, hforce], ?_, ?_⟩
    · simp only [propagateBreaks, EveryGroup] at h ⊢
      exact ⟨hcached, h.2⟩
    · intro hall
      simp only [propagateBreaks, EveryGroup] at hall ⊢
      exact ⟨hforced hall.1, hall.2⟩
  | array docs, h | indent docs, h | align _ docs, h | indentIfBreak _ docs, h => by
    simp only [EveryGroup] at h
    obtain ⟨htells, hbreak, hforce, hcached, hforced⟩ := propagatesIn_propagateSliceBreaks docs h
    refine ⟨by simpa [propagateBreaks, hasBreak] using htells,
      by simpa [propagateBreaks, hasBreak] using hbreak,
      by simp [propagateBreaks, forceBreaks, hforce], ?_, ?_⟩
    · simpa only [propagateBreaks, EveryGroup] using hcached
    · simpa only [propagateBreaks, EveryGroup] using hforced
  | string _, h | rangeStart, h | rangeEnd, h | line _, h | lineSuffix _, h
  | lineSuffixBoundary, h | breakParent, h | trim _, h | doNotTrim, h | space _, h => by
    simp only [propagateBreaks]
    exact .refl h (by simp [hasBreak])

theorem propagatesIn_propagateSliceBreaks :
    ∀ docs : List Document, EveryGroupIn Cached docs →
      PropagatesIn docs (propagateSliceBreaks docs)
  | [], h => by
    simp only [propagateSliceBreaks]
    exact ⟨rfl, rfl, rfl, h, id⟩
  | doc :: docs, h => by
    simp only [EveryGroupIn] at h
    obtain ⟨htells, hbreak, hforce, hcached, hforced⟩ := propagates_propagateBreaks doc h.1
    obtain ⟨htells', hbreak', hforce', hcached', hforced'⟩ :=
      propagatesIn_propagateSliceBreaks docs h.2
    simp only [propagateSliceBreaks]
    split
    case isTrue hlater =>
      -- the parts before one with a break are left as they are
      refine ⟨by simp [hasBreakAny, ← htells', hlater], by simp [hasBreakAny, hbreak'],
        by simp [forceBreaksIn, hforce'], ⟨h.1, hcached'⟩, ?_⟩
      intro hall
      exact ⟨hall.1, hforced' hall.2⟩
    case isFalse hlater =>
      refine ⟨by simp_all [hasBreakAny], by simp [hasBreakAny, hbreak, hbreak'],
        by simp [forceBreaksIn, hforce, hforce'], ⟨hcached, hcached'⟩, ?_⟩
      intro hall
      exact ⟨hforced hall.1, hforced' hall.2⟩

end

/-- Behind the propagation a group has its final mode. -/
theorem forced_of_propagateBreaks {contents contents' : List Document} {mode mode' : BreakMode}
    {id id' : Option GroupIdentifier} {propagated propagated' : Bool}
    (h : EveryGroup Cached (group contents mode id propagated))
    (hresult : (group contents mode id propagated).propagateBreaks.2 =
      group contents' mode' id' propagated') : Forced contents' mode' propagated' := by
  have hcontents := propagatesIn_propagateSliceBreaks contents h.2
  intro hauto
  unfold propagateBreaks at hresult
  split at hresult
  case isTrue hforce =>
    cases hresult
    rw [hforce] at hauto
    cases hauto
  case isFalse hforce =>
    split at hresult
    case isTrue hskip =>
      cases hresult
      simp only [Bool.and_eq_true] at hskip
      exact h.1 hskip.2 hauto
    case isFalse =>
      simp only [group.injEq] at hresult
      obtain ⟨rfl, rfl, -, -⟩ := hresult
      rw [hcontents.hasBreakAny_eq, ← hcontents.tells]
      split at hauto
      case isTrue => cases hauto
      case isFalse hstays =>
        rw [hauto] at hstays
        simpa using hstays

end Document

end Mago.Printing
