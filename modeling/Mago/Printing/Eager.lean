import Mago.Printing.Forcing

/-!
# Forcing groups before printing

The printer forces a group when it comes to it, and may look ahead over groups it has not
come to. Where no look ahead in flat mode meets a group that still is to be forced, the
output is that of a printer that starts with all of them forced.
-/
namespace Mago.Printing
open Library

def CommandDocument.forceBreaks : CommandDocument → CommandDocument
  | document doc => document doc.forceBreaks
  | array docs => array (Document.forceBreaksIn docs)

def Command.forceBreaks (c : Command) : Command := { c with document := c.document.forceBreaks }

def CommandDocument.EveryGroup (P : List Document → BreakMode → Bool → Prop) :
    CommandDocument → Prop
  | document doc => doc.EveryGroup P
  | array docs => Document.EveryGroupIn P docs

/-- Neither too wide yet nor given up. -/
def FitsState.goesOn (st : FitsState) : Bool := decide (0 ≤ st.remainingWidth)

theorem FitsState.check_of_goesOn {st : FitsState} (h : st.goesOn = true) : st.check = .ok st := by
  have hle : 0 ≤ st.remainingWidth := of_decide_eq_true h
  have hnot : ¬ st.remainingWidth < 0 := by omega
  simp [FitsState.check, hnot]

theorem FitsState.check_of_not_goesOn {st : FitsState} (h : st.goesOn = false) :
    st.check = .error false := by
  have hle : ¬ 0 ≤ st.remainingWidth := of_decide_eq_false h
  have hlt : st.remainingWidth < 0 := by omega
  simp [FitsState.check, hlt]

namespace Printer

/-- The pending documents with all groups forced. -/
def forceBreaks (p : Printer) : Printer :=
  { p with
    commands := p.commands.map Command.forceBreaks
    lineSuffix := p.lineSuffix.map Command.forceBreaks }

variable (unicodeWidth : Text → ℕ) (settings : FormatSettings)

/-! ## What a look ahead meets -/

mutual

/-- A look ahead in flat mode meets a group that a break is in and that is not forced. -/
def meetsUnforced (p : Printer) : Document → FitsState → Bool
  | .group contents breakMode _ _, st =>
    decide (breakMode = .auto) && st.goesOn &&
      (Document.hasBreakAny contents || meetsUnforcedIn p contents st)
  | .conditional contents _ _ breakMode _ _, st =>
    decide (breakMode = .auto) && st.goesOn && meetsUnforcedIn p contents st
  | .ifBreak breakContents flatContent groupId, st =>
    let groupMode :=
      match groupId with
      | none => Mode.flat
      | some id => (p.groupModeMap.get? id).getD .flat
    st.goesOn &&
      if groupMode = .Break then meetsUnforced p breakContents st
      else meetsUnforced p flatContent st
  | .indentIfBreak _ contents, st => st.goesOn && meetsUnforcedIn p contents st
  | .indent contents, st => st.goesOn && meetsUnforcedIn p contents st
  | .align _ contents, st => st.goesOn && meetsUnforcedIn p contents st
  | .array contents, st => st.goesOn && meetsUnforcedIn p contents st
  | _, _ => false

def meetsUnforcedIn (p : Printer) : List Document → FitsState → Bool
  | [], _ => false
  | doc :: docs, st =>
    meetsUnforced p doc st ||
      match p.fitsDocument unicodeWidth .flat doc st with
      | .error _ => false
      | .ok st => meetsUnforcedIn p docs st

end

def meetsUnforcedCommand (p : Printer) (c : Command) (st : FitsState) : Bool :=
  decide (c.mode = .flat) &&
    match c.document with
    | .document doc => p.meetsUnforced unicodeWidth doc st
    | .array docs => st.goesOn && p.meetsUnforcedIn unicodeWidth docs st

def meetsUnforcedPending (p : Printer) : List Command → FitsState → Bool
  | [], _ => false
  | c :: commands, st =>
    !st.hasLineSuffix &&
      (p.meetsUnforcedCommand unicodeWidth c st ||
        match p.fitsCommand unicodeWidth c st with
        | .error _ => false
        | .ok st => p.meetsUnforcedPending commands st)

/-- The look ahead of `fits` over a command and the pending ones. -/
def meetsUnforcedAhead (p : Printer) (next : Command) (width : ℤ) : Bool :=
  p.meetsUnforcedCommand unicodeWidth next ⟨width, false⟩ ||
    match p.fitsCommand unicodeWidth next ⟨width, false⟩ with
    | .error _ => false
    | .ok st => p.meetsUnforcedPending unicodeWidth p.commands st

/-- The look aheads over the expanded states, up to the first one that fits. -/
def meetsUnforcedStates (p : Printer) (indentation : Indentation) : List Document → Bool
  | [] => false
  | state :: states =>
    let cmd : Command := ⟨indentation, .flat, .document state⟩
    p.meetsUnforcedAhead unicodeWidth cmd (p.remainingWidth settings) ||
      (!p.fits unicodeWidth cmd (p.remainingWidth settings) &&
        p.meetsUnforcedStates indentation states)

/-- The look aheads at a document behind the propagation of its breaks. -/
def meetsUnforcedAt (p : Printer) (indentation : Indentation) (mode : Mode) (doc : Document) :
    Bool :=
  let cmd : Command := ⟨indentation, .flat, .document doc⟩
  let width := p.remainingWidth settings
  match doc with
  | .group _ breakMode _ _ =>
    !(decide (mode = .flat) && !p.shouldRemeasure) && decide (breakMode = .auto) &&
      p.meetsUnforcedAhead unicodeWidth cmd width
  | .conditional _ states _ breakMode _ _ =>
    !(decide (mode = .flat) && !p.shouldRemeasure) && decide (breakMode = .auto) &&
      (p.meetsUnforcedAhead unicodeWidth cmd width ||
        (!p.fits unicodeWidth cmd width && p.meetsUnforcedStates unicodeWidth settings indentation
          states))
  | _ => false

/-- A look ahead of the next turn meets, in flat mode, a group that still is to be forced. -/
def overlooksBreak (p : Printer) : Bool :=
  match p.commands with
  | ⟨indentation, mode, .document doc⟩ :: rest =>
    { p with commands := rest }.meetsUnforcedAt unicodeWidth settings indentation mode
      doc.propagateBreaks.2
  | _ => false

/-! ## Look aheads over forced groups -/

variable {unicodeWidth settings} {p q : Printer}

mutual

/-- In break mode a look ahead does not depend on the modes of groups. -/
theorem fitsDocument_break (p : Printer) :
    ∀ (doc : Document) (st : FitsState),
      p.forceBreaks.fitsDocument unicodeWidth .Break doc.forceBreaks st =
        p.fitsDocument unicodeWidth .Break doc st
  | .string _, _ | .space _, _ | .line _, _ | .breakParent, _ | .lineSuffix _, _ | .trim _, _
  | .doNotTrim, _ | .rangeStart, _ | .rangeEnd, _ => by
    simp only [Document.forceBreaks, fitsDocument]
    try rfl
  | .lineSuffixBoundary, st => by
    simp [Document.forceBreaks, fitsDocument, forceBreaks]
  | .array docs, st | .indent docs, st | .align _ docs, st | .indentIfBreak _ docs, st => by
    simp only [Document.forceBreaks, fitsDocument, fitsDocuments_break p docs]
  | .group docs breakMode _ _, st => by
    simp [Document.forceBreaks, fitsDocument, fitsDocuments_break p docs]
  | .conditional contents _ mostExpanded breakMode _ _, st => by
    simp [Document.forceBreaks, fitsDocument, fitsDocument_break p mostExpanded]
  | .ifBreak breakContents flatContent groupId, st => by
    simp only [Document.forceBreaks, fitsDocument, fitsDocument_break p breakContents,
      fitsDocument_break p flatContent]
    rfl

theorem fitsDocuments_break (p : Printer) :
    ∀ (docs : List Document) (st : FitsState),
      p.forceBreaks.fitsDocuments unicodeWidth .Break (Document.forceBreaksIn docs) st =
        p.fitsDocuments unicodeWidth .Break docs st
  | [], _ => rfl
  | doc :: docs, st => by
    simp only [Document.forceBreaksIn, fitsDocuments, fitsDocument_break p doc,
      fitsDocuments_break p docs]

end

/-- Behind a check the same is left to do. -/
theorem bind_check_congr {st : FitsState} {f g : FitsState → Except Bool FitsState}
    (h : st.goesOn = true → f st = g st) : st.check >>= f = st.check >>= g := by
  cases hgoes : st.goesOn with
  | true =>
    rw [FitsState.check_of_goesOn hgoes]
    exact h hgoes
  | false =>
    rw [FitsState.check_of_not_goesOn hgoes]
    rfl

mutual

/-- A look ahead that meets no group to be forced is the same with all groups forced. -/
theorem fitsDocument_flat (p : Printer) :
    ∀ (doc : Document) (st : FitsState), p.meetsUnforced unicodeWidth doc st = false →
      p.forceBreaks.fitsDocument unicodeWidth .flat doc.forceBreaks st =
        p.fitsDocument unicodeWidth .flat doc st
  | .string _, _, _ | .space _, _, _ | .line _, _, _ | .breakParent, _, _ | .lineSuffix _, _, _
  | .trim _, _, _ | .doNotTrim, _, _ | .rangeStart, _, _ | .rangeEnd, _, _ => by
    simp only [Document.forceBreaks, fitsDocument]
    try rfl
  | .lineSuffixBoundary, st, _ => by
    simp [Document.forceBreaks, fitsDocument, forceBreaks]
  | .array docs, st, h | .indent docs, st, h | .align _ docs, st, h
  | .indentIfBreak _ docs, st, h => by
    simp only [Document.forceBreaks, fitsDocument]
    apply bind_check_congr
    intro hgoes
    simp only [meetsUnforced, hgoes, Bool.true_and] at h
    exact fitsDocuments_flat p docs st h
  | .group docs breakMode _ _, st, h => by
    simp only [Document.forceBreaks, fitsDocument, Document.finalMode]
    cases breakMode with
    | force =>
      simp only [reduceCtorEq, false_and, if_false, if_true]
      exact bind_check_congr fun _ => fitsDocuments_break p docs st
    | preserve => simp
    | auto =>
      cases hany : Document.hasBreakAny docs with
      | false =>
        simp only [reduceCtorEq, false_and, and_false, Bool.false_eq_true, if_false]
        apply bind_check_congr
        intro hgoes
        simp only [meetsUnforced, hgoes, hany, Bool.true_and, Bool.false_or, decide_true] at h
        exact fitsDocuments_flat p docs st h
      | true =>
        -- the look ahead has gone too far already
        have hgoes : st.goesOn = false := by
          simpa [meetsUnforced, hany] using h
        rw [FitsState.check_of_not_goesOn hgoes]
        simp
        rfl
  | .conditional contents _ mostExpanded breakMode _ _, st, h => by
    simp only [Document.forceBreaks, fitsDocument]
    cases breakMode with
    | force =>
      simp only [reduceCtorEq, false_and, if_false, or_false, if_true]
      exact bind_check_congr fun _ => fitsDocument_break p mostExpanded st
    | preserve => simp
    | auto =>
      simp only [reduceCtorEq, false_and, if_false, or_false]
      apply bind_check_congr
      intro hgoes
      simp only [meetsUnforced, hgoes, Bool.true_and, decide_true] at h
      exact fitsDocuments_flat p contents st h
  | .ifBreak breakContents flatContent groupId, st, h => by
    simp only [Document.forceBreaks, fitsDocument]
    apply bind_check_congr
    intro hgoes
    simp only [meetsUnforced, hgoes, Bool.true_and] at h
    cases groupId with
    | none =>
      simp only [reduceCtorEq, if_false] at h ⊢
      exact fitsDocument_flat p flatContent st h
    | some id =>
      have hmap : p.forceBreaks.groupModeMap = p.groupModeMap := rfl
      simp only [hmap]
      by_cases hbreak : (p.groupModeMap.get? id).getD .flat = .Break
      · simp only [hbreak, if_true] at h ⊢
        exact fitsDocument_flat p breakContents st h
      · simp only [hbreak, if_false] at h ⊢
        exact fitsDocument_flat p flatContent st h

theorem fitsDocuments_flat (p : Printer) :
    ∀ (docs : List Document) (st : FitsState), p.meetsUnforcedIn unicodeWidth docs st = false →
      p.forceBreaks.fitsDocuments unicodeWidth .flat (Document.forceBreaksIn docs) st =
        p.fitsDocuments unicodeWidth .flat docs st
  | [], _, _ => rfl
  | doc :: docs, st, h => by
    simp only [meetsUnforcedIn, Bool.or_eq_false_iff] at h
    simp only [Document.forceBreaksIn, fitsDocuments, fitsDocument_flat p doc st h.1]
    cases hdoc : p.fitsDocument unicodeWidth .flat doc st with
    | error _ => rfl
    | ok next =>
      rw [hdoc] at h
      exact fitsDocuments_flat p docs next h.2

end

theorem fitsCommand_forceBreaks {c : Command} {st : FitsState}
    (h : p.meetsUnforcedCommand unicodeWidth c st = false) :
    p.forceBreaks.fitsCommand unicodeWidth c.forceBreaks st = p.fitsCommand unicodeWidth c st := by
  obtain ⟨indentation, mode, document⟩ := c
  cases mode with
  | Break =>
    cases document with
    | document doc => exact fitsDocument_break p doc st
    | array docs => exact bind_check_congr fun _ => fitsDocuments_break p docs st
  | flat =>
    simp only [meetsUnforcedCommand, decide_true, Bool.true_and] at h
    cases document with
    | document doc => exact fitsDocument_flat p doc st h
    | array docs =>
      apply bind_check_congr
      intro hgoes
      simp only [hgoes, Bool.true_and] at h
      exact fitsDocuments_flat p docs st h

theorem fitsPending_forceBreaks (commands : List Command) {st : FitsState}
    (h : p.meetsUnforcedPending unicodeWidth commands st = false) :
    p.forceBreaks.fitsPending unicodeWidth (commands.map Command.forceBreaks) st =
      p.fitsPending unicodeWidth commands st := by
  induction commands generalizing st with
  | nil => rfl
  | cons c commands ih =>
    simp only [List.map_cons, fitsPending]
    cases hsuffix : st.hasLineSuffix with
    | true => rfl
    | false =>
      simp only [meetsUnforcedPending, hsuffix, Bool.not_false, Bool.true_and,
        Bool.or_eq_false_iff] at h
      simp only [Bool.false_eq_true, if_false, fitsCommand_forceBreaks h.1]
      cases hc : p.fitsCommand unicodeWidth c st with
      | error answer => rfl
      | ok next =>
        rw [hc] at h
        exact ih h.2

theorem fits_forceBreaks {next : Command} {width : ℤ}
    (h : p.meetsUnforcedAhead unicodeWidth next width = false) :
    p.forceBreaks.fits unicodeWidth next.forceBreaks width = p.fits unicodeWidth next width := by
  simp only [meetsUnforcedAhead, Bool.or_eq_false_iff] at h
  simp only [fits, fitsCommand_forceBreaks h.1]
  cases hc : p.fitsCommand unicodeWidth next ⟨width, false⟩ with
  | error answer => rfl
  | ok st =>
    rw [hc] at h
    exact fitsPending_forceBreaks p.commands h.2

/-! ## A turn with all groups forced -/

theorem docCommands_forceBreaks (indentation : Indentation) (mode : Mode) (docs : List Document) :
    (docCommands indentation mode docs).map Command.forceBreaks =
      docCommands indentation mode (Document.forceBreaksIn docs) := by
  induction docs with
  | nil => rfl
  | cons doc docs ih =>
    have htop : docCommands indentation mode (doc :: docs) =
        ⟨indentation, mode, .document doc⟩ :: docCommands indentation mode docs := rfl
    rw [htop, List.map_cons, ih]
    rfl

@[simp]
theorem push_forceBreaks (cs : List Command) :
    (p.push cs).forceBreaks = p.forceBreaks.push (cs.map Command.forceBreaks) := by
  simp [forceBreaks, push]

@[simp]
theorem pushDocs_forceBreaks (indentation : Indentation) (mode : Mode) (docs : List Document) :
    (p.pushDocs indentation mode docs).forceBreaks =
      p.forceBreaks.pushDocs indentation mode (Document.forceBreaksIn docs) := by
  rw [pushDocs, push_forceBreaks, docCommands_forceBreaks, pushDocs]

@[simp]
theorem setGroupModeFromLastCmd_forceBreaks (id : Option GroupIdentifier) :
    (p.setGroupModeFromLastCmd id).forceBreaks = p.forceBreaks.setGroupModeFromLastCmd id := by
  cases id with
  | none => rfl
  | some id =>
    cases hcommands : p.commands with
    | nil => simp [setGroupModeFromLastCmd, forceBreaks, hcommands]
    | cons c rest => simp [setGroupModeFromLastCmd, forceBreaks, hcommands, Command.forceBreaks]

@[simp]
theorem flushLineSuffix_forceBreaks :
    p.flushLineSuffix.forceBreaks = p.forceBreaks.flushLineSuffix := by
  simp [flushLineSuffix, forceBreaks]

@[simp]
theorem flushAtEnd_forceBreaks : p.flushAtEnd.forceBreaks = p.forceBreaks.flushAtEnd := by
  have hempty : p.forceBreaks.commands.isEmpty = p.commands.isEmpty := by simp [forceBreaks]
  unfold flushAtEnd
  rw [hempty]
  split
  · exact flushLineSuffix_forceBreaks
  · rfl

theorem looks_of_not_flat {mode : Mode} (h : ¬ (mode = .flat ∧ p.shouldRemeasure = false)) :
    (!(decide (mode = .flat) && !p.shouldRemeasure)) = true := by
  cases mode <;> simp_all

theorem handleGroup_forceBreaks {indentation : Indentation} {mode : Mode}
    {contents : List Document} {breakMode : BreakMode} {id : Option GroupIdentifier}
    {propagated : Bool} (hforced : Document.finalMode contents breakMode = breakMode)
    (hmeets : p.meetsUnforcedAt unicodeWidth settings indentation mode
      (.group contents breakMode id propagated) = false) :
    (p.handleGroup unicodeWidth settings indentation mode contents breakMode id
        propagated).forceBreaks =
      p.forceBreaks.handleGroup unicodeWidth settings indentation mode
        (Document.forceBreaksIn contents) breakMode id false := by
  have hremeasure : p.forceBreaks.shouldRemeasure = p.shouldRemeasure := rfl
  have hwidth : p.forceBreaks.remainingWidth settings = p.remainingWidth settings := rfl
  have hcmd : (⟨indentation, .flat, .document (.group contents breakMode id propagated)⟩ :
        Command).forceBreaks =
      ⟨indentation, .flat, .document (.group (Document.forceBreaksIn contents) breakMode id
        false)⟩ := by
    simp [Command.forceBreaks, CommandDocument.forceBreaks, Document.forceBreaks, hforced]
  unfold handleGroup
  rw [hremeasure, hwidth]
  split
  case isTrue => simp
  case isFalse hmode =>
    by_cases hauto : breakMode = .auto
    · have hahead : p.meetsUnforcedAhead unicodeWidth
          ⟨indentation, .flat, .document (.group contents breakMode id propagated)⟩
          (p.remainingWidth settings) = false := by
        rw [hauto] at hmeets ⊢
        simpa only [meetsUnforcedAt, looks_of_not_flat hmode, decide_true, Bool.true_and]
          using hmeets
      have hfits := fits_forceBreaks hahead
      rw [hcmd] at hfits
      simp only [hfits]
      split
      · rw [setGroupModeFromLastCmd_forceBreaks, push_forceBreaks, List.map_singleton, hcmd]
        rfl
      · rw [setGroupModeFromLastCmd_forceBreaks, push_forceBreaks]
        rfl
    · simp only [hauto, false_and, if_false]
      rw [setGroupModeFromLastCmd_forceBreaks, push_forceBreaks]
      rfl

theorem firstFitting_forceBreaks {indentation : Indentation} (states : List Document)
    (hmeets : p.meetsUnforcedStates unicodeWidth settings indentation states = false) :
    p.forceBreaks.firstFitting unicodeWidth settings indentation
        (Document.forceBreaksIn states) =
      (p.firstFitting unicodeWidth settings indentation states).map Command.forceBreaks := by
  have hwidth : p.forceBreaks.remainingWidth settings = p.remainingWidth settings := rfl
  induction states with
  | nil => rfl
  | cons state states ih =>
    simp only [meetsUnforcedStates, Bool.or_eq_false_iff] at hmeets
    have hfits : p.forceBreaks.fits unicodeWidth
          ⟨indentation, .flat, .document state.forceBreaks⟩ (p.remainingWidth settings) =
        p.fits unicodeWidth ⟨indentation, .flat, .document state⟩ (p.remainingWidth settings) :=
      fits_forceBreaks hmeets.1
    simp only [Document.forceBreaksIn, firstFitting, hwidth, hfits]
    split
    case isTrue => rfl
    case isFalse hno =>
      have hno : p.fits unicodeWidth ⟨indentation, .flat, .document state⟩
          (p.remainingWidth settings) = false := by simpa using hno
      rw [hno] at hmeets
      exact ih (by simpa using hmeets.2)

theorem handleConditional_forceBreaks {indentation : Indentation} {mode : Mode}
    {contents states : List Document} {mostExpanded : Document} {breakMode : BreakMode}
    {id : Option GroupIdentifier} {propagated : Bool}
    (hmeets : p.meetsUnforcedAt unicodeWidth settings indentation mode
      (.conditional contents states mostExpanded breakMode id propagated) = false) :
    (p.handleConditional unicodeWidth settings indentation mode contents states mostExpanded
        breakMode id propagated).forceBreaks =
      p.forceBreaks.handleConditional unicodeWidth settings indentation mode
        (Document.forceBreaksIn contents) (Document.forceBreaksIn states)
        mostExpanded.forceBreaks breakMode id false := by
  have hremeasure : p.forceBreaks.shouldRemeasure = p.shouldRemeasure := rfl
  have hwidth : p.forceBreaks.remainingWidth settings = p.remainingWidth settings := rfl
  have hcmd : (⟨indentation, .flat, .document (.conditional contents states mostExpanded
        breakMode id propagated)⟩ : Command).forceBreaks =
      ⟨indentation, .flat, .document (.conditional (Document.forceBreaksIn contents)
        (Document.forceBreaksIn states) mostExpanded.forceBreaks breakMode id false)⟩ := rfl
  unfold handleConditional
  rw [hremeasure, hwidth]
  split
  case isTrue => simp
  case isFalse hmode =>
    by_cases hauto : breakMode = .auto
    · rw [hauto] at hmeets hcmd ⊢
      simp only [meetsUnforcedAt, looks_of_not_flat hmode, decide_true, Bool.true_and,
        Bool.or_eq_false_iff] at hmeets
      have hfits := fits_forceBreaks hmeets.1
      rw [hcmd] at hfits
      simp only [ne_eq, not_true_eq_false, if_false, hfits]
      split
      case isTrue =>
        rw [setGroupModeFromLastCmd_forceBreaks, push_forceBreaks, List.map_singleton, hcmd]
        rfl
      case isFalse hno =>
        have hno : p.fits unicodeWidth ⟨indentation, .flat, .document (.conditional contents
            states mostExpanded .auto id propagated)⟩ (p.remainingWidth settings) = false := by
          simpa using hno
        rw [hno] at hmeets
        rw [firstFitting_forceBreaks states (by simpa using hmeets.2)]
        cases p.firstFitting unicodeWidth settings indentation states with
        | some fitting => exact push_forceBreaks _
        | none =>
          simp only [Option.map_none]
          rw [setGroupModeFromLastCmd_forceBreaks, push_forceBreaks]
          rfl
    · simp only [ne_eq, hauto, not_false_eq_true, if_true]
      rw [push_forceBreaks]
      rfl

@[simp]
theorem handleTrim_forceBreaks (t : Trim) :
    (p.handleTrim t).forceBreaks = p.forceBreaks.handleTrim t := by
  unfold handleTrim
  have hcanTrim : p.forceBreaks.canTrim = p.canTrim := rfl
  rw [hcanTrim]
  split <;> rfl

theorem handleLine_forceBreaks (l : Line) (indentation : Indentation) (mode : Mode) :
    (p.handleLine unicodeWidth settings l indentation mode).forceBreaks =
      p.forceBreaks.handleLine unicodeWidth settings l indentation mode := by
  have hnewline : ∀ r : Printer,
      ({ r.handleTrim .whitespace with
          out := (r.handleTrim .whitespace).out ++ settings.endOfLine.asStr }.addIndentation
            unicodeWidth settings indentation).forceBreaks =
        { r.forceBreaks.handleTrim .whitespace with
          out := (r.forceBreaks.handleTrim .whitespace).out ++ settings.endOfLine.asStr
            }.addIndentation unicodeWidth settings indentation := by
    intro r
    rw [← handleTrim_forceBreaks]
    rfl
  unfold handleLine
  split
  · split <;> rfl
  dsimp only
  have hempty : (p.lineSuffix.map Command.forceBreaks).isEmpty = p.lineSuffix.isEmpty := by
    simp
  have hsuffix : p.forceBreaks.lineSuffix.isEmpty = p.lineSuffix.isEmpty := hempty
  rw [hsuffix]
  split
  · rw [flushLineSuffix_forceBreaks, push_forceBreaks]
    rfl
  split
  · split <;> rfl
  · exact hnewline { p with shouldRemeasure := p.shouldRemeasure || decide (mode = .flat) }

theorem handleLineSuffixBoundary_forceBreaks (indentation : Indentation) (mode : Mode) :
    (p.handleLineSuffixBoundary indentation mode).forceBreaks =
      p.forceBreaks.handleLineSuffixBoundary indentation mode := by
  have hsuffix : p.forceBreaks.lineSuffix.isEmpty = p.lineSuffix.isEmpty := by
    simp [forceBreaks]
  unfold handleLineSuffixBoundary
  rw [hsuffix]
  split
  · simp [flushLineSuffix, push, forceBreaks, Command.forceBreaks, CommandDocument.forceBreaks,
      Document.forceBreaks]
  · rfl

/-- A group has its final mode at the root. -/
def RootForced : Document → Prop
  | .group contents breakMode _ propagated => Document.Forced contents breakMode propagated
  | _ => True

theorem handleDocument_forceBreaks {indentation : Indentation} {mode : Mode} {doc : Document}
    (hroot : RootForced doc)
    (hmeets : p.meetsUnforcedAt unicodeWidth settings indentation mode doc = false) :
    (p.handleDocument unicodeWidth settings indentation mode doc).forceBreaks =
      p.forceBreaks.handleDocument unicodeWidth settings indentation mode doc.forceBreaks := by
  cases doc with
  | string s => rfl
  | rangeStart => rfl
  | rangeEnd =>
    have hsuffix : p.forceBreaks.lineSuffix.isEmpty = p.lineSuffix.isEmpty := by
      simp [forceBreaks]
    simp only [Document.forceBreaks, handleDocument, hsuffix]
    split
    · rfl
    · simp [forceBreaks, Command.forceBreaks, CommandDocument.forceBreaks, Document.forceBreaks]
  | array docs => exact pushDocs_forceBreaks indentation mode docs
  | indent docs => exact pushDocs_forceBreaks indentation.indented mode docs
  | indentIfBreak groupId contents =>
    have hmap : p.forceBreaks.groupModeMap = p.groupModeMap := rfl
    simp only [Document.forceBreaks, handleDocument, handleIndentIfBreak, hmap]
    split
    · exact pushDocs_forceBreaks indentation mode contents
    · exact pushDocs_forceBreaks indentation.indented mode contents
  | group contents breakMode id propagated =>
    have hroot : Document.Forced contents breakMode propagated := hroot
    have hforced := Document.forced_iff.mp hroot
    simp only [Document.forceBreaks, handleDocument, hforced]
    exact handleGroup_forceBreaks hforced hmeets
  | conditional contents states mostExpanded breakMode id propagated =>
    exact handleConditional_forceBreaks hmeets
  | line l => exact handleLine_forceBreaks l indentation mode
  | lineSuffix docs =>
    simp [handleDocument, forceBreaks, Command.forceBreaks, CommandDocument.forceBreaks,
      Document.forceBreaks]
  | lineSuffixBoundary => exact handleLineSuffixBoundary_forceBreaks indentation mode
  | ifBreak breakContents flatContent groupId =>
    have hmap : p.forceBreaks.groupModeMap = p.groupModeMap := rfl
    simp only [Document.forceBreaks, handleDocument, handleIfBreak, hmap,
      Document.cloneInArena_forceBreaks]
    cases groupId <;> dsimp only <;> split <;>
      simp [Command.forceBreaks, CommandDocument.forceBreaks]
  | breakParent => rfl
  | align alignment contents => exact pushDocs_forceBreaks (.aligned alignment) mode contents
  | trim t => exact handleTrim_forceBreaks t
  | doNotTrim => rfl
  | space s =>
    simp only [Document.forceBreaks, handleDocument, handleSpace]
    have hout : p.forceBreaks.out = p.out := rfl
    rw [hout]
    split <;> rfl

/-! ## Groups of the pending documents -/

/-- Of all groups that are still to be printed. -/
structure EveryGroup (P : List Document → BreakMode → Bool → Prop) (p : Printer) : Prop where
  commands : ∀ c ∈ p.commands, c.document.EveryGroup P
  lineSuffix : ∀ c ∈ p.lineSuffix, c.document.EveryGroup P

section Groups

variable {P : List Document → BreakMode → Bool → Prop}

theorem EveryGroup.push (h : p.EveryGroup P) {cs : List Command}
    (hcs : ∀ c ∈ cs, c.document.EveryGroup P) : (p.push cs).EveryGroup P := by
  refine ⟨?_, h.lineSuffix⟩
  intro c hc
  obtain hc | hc := List.mem_append.mp hc
  · exact hcs c hc
  · exact h.commands c hc

theorem EveryGroup.push_one (h : p.EveryGroup P) {c : Command} (hc : c.document.EveryGroup P) :
    (p.push [c]).EveryGroup P := by
  apply h.push
  intro c' hc'
  rwa [List.mem_singleton.mp hc']

theorem EveryGroup.push_document (h : p.EveryGroup P) (indentation : Indentation) (mode : Mode)
    {doc : Document} (hdoc : doc.EveryGroup P) :
    (p.push [⟨indentation, mode, .document doc⟩]).EveryGroup P := h.push_one hdoc

theorem EveryGroup.push_array (h : p.EveryGroup P) (indentation : Indentation) (mode : Mode)
    {docs : List Document} (hdocs : Document.EveryGroupIn P docs) :
    (p.push [⟨indentation, mode, .array docs⟩]).EveryGroup P := h.push_one hdocs

theorem EveryGroup.pushDocs (h : p.EveryGroup P) (indentation : Indentation) (mode : Mode)
    {docs : List Document} (hdocs : Document.EveryGroupIn P docs) :
    (p.pushDocs indentation mode docs).EveryGroup P := by
  apply h.push
  intro c hc
  obtain ⟨doc, hdoc, rfl⟩ := List.mem_map.mp hc
  exact Document.everyGroupIn_iff.mp hdocs doc hdoc

theorem EveryGroup.of_eq (h : p.EveryGroup P) (hcommands : q.commands = p.commands)
    (hsuffix : q.lineSuffix = p.lineSuffix) : q.EveryGroup P := by
  refine ⟨?_, ?_⟩
  · rw [hcommands]
    exact h.commands
  · rw [hsuffix]
    exact h.lineSuffix

theorem EveryGroup.setGroupMode (h : p.EveryGroup P) (id : Option GroupIdentifier) :
    (p.setGroupModeFromLastCmd id).EveryGroup P := h.of_eq (by simp) (by simp)

theorem EveryGroup.flushLineSuffix (h : p.EveryGroup P) : p.flushLineSuffix.EveryGroup P := by
  refine ⟨?_, by simp [Printer.flushLineSuffix]⟩
  intro c hc
  obtain hc | hc := List.mem_append.mp hc
  · exact h.lineSuffix c hc
  · exact h.commands c hc

theorem EveryGroup.flushAtEnd (h : p.EveryGroup P) : p.flushAtEnd.EveryGroup P := by
  unfold Printer.flushAtEnd
  split
  · exact h.flushLineSuffix
  · exact h

theorem EveryGroup.queue (h : p.EveryGroup P) {c : Command} (hc : c.document.EveryGroup P) :
    { p with lineSuffix := p.lineSuffix ++ [c] }.EveryGroup P := by
  refine ⟨h.commands, ?_⟩
  intro c' hc'
  obtain hc' | hc' := List.mem_append.mp hc'
  · exact h.lineSuffix c' hc'
  · rwa [List.mem_singleton.mp hc']

theorem EveryGroup.handleGroup (h : p.EveryGroup P) {indentation : Indentation} {mode : Mode}
    {contents : List Document} {breakMode : BreakMode} {id : Option GroupIdentifier}
    {propagated : Bool}
    (hdoc : (Document.group contents breakMode id propagated).EveryGroup P) :
    (p.handleGroup unicodeWidth settings indentation mode contents breakMode id
      propagated).EveryGroup P := by
  have hcontents : Document.EveryGroupIn P contents := hdoc.2
  have hp : { p with shouldRemeasure := false }.EveryGroup P := ⟨h.commands, h.lineSuffix⟩
  unfold Printer.handleGroup
  dsimp only
  split
  · exact (h.pushDocs _ _ hcontents).setGroupMode id
  split
  · exact (hp.push_document _ _ hdoc).setGroupMode id
  · exact (hp.push_array _ _ hcontents).setGroupMode id

theorem everyGroup_firstFitting {indentation : Indentation} {states : List Document} {c : Command}
    (hstates : Document.EveryGroupIn P states)
    (h : p.firstFitting unicodeWidth settings indentation states = some c) :
    c.document.EveryGroup P := by
  induction states with
  | nil => cases h
  | cons state states ih =>
    simp only [firstFitting] at h
    split at h
    · cases h
      exact hstates.1
    · exact ih hstates.2 h

theorem EveryGroup.handleConditional (h : p.EveryGroup P) {indentation : Indentation}
    {mode : Mode} {contents states : List Document} {mostExpanded : Document}
    {breakMode : BreakMode} {id : Option GroupIdentifier} {propagated : Bool}
    (hdoc : (Document.conditional contents states mostExpanded breakMode id
      propagated).EveryGroup P) :
    (p.handleConditional unicodeWidth settings indentation mode contents states mostExpanded
      breakMode id propagated).EveryGroup P := by
  have hparts : Document.EveryGroupIn P contents ∧ Document.EveryGroupIn P states ∧
      mostExpanded.EveryGroup P := hdoc
  obtain ⟨hcontents, hstates, hmost⟩ := hparts
  have hp : { p with shouldRemeasure := false }.EveryGroup P := ⟨h.commands, h.lineSuffix⟩
  unfold Printer.handleConditional
  dsimp only
  split
  · exact (h.pushDocs _ _ hcontents).setGroupMode id
  split
  · exact hp.push_document _ _ hmost
  split
  · exact (hp.push_document _ _ hdoc).setGroupMode id
  split
  case h_1 fitting hfitting => exact hp.push_one (everyGroup_firstFitting hstates hfitting)
  case h_2 => exact (hp.push_document _ _ hmost).setGroupMode id

theorem EveryGroup.handleLine (h : p.EveryGroup P) (l : Line) (indentation : Indentation)
    (mode : Mode) : (p.handleLine unicodeWidth settings l indentation mode).EveryGroup P := by
  have hline : Document.EveryGroup P (.line l) := trivial
  unfold Printer.handleLine
  split
  · split <;> exact ⟨h.commands, h.lineSuffix⟩
  dsimp only
  split
  · refine (EveryGroup.push_document ?_ indentation mode hline).flushLineSuffix
    exact ⟨h.commands, h.lineSuffix⟩
  split
  · split <;> exact ⟨h.commands, h.lineSuffix⟩
  · exact h.of_eq (by simp [addIndentation]) (by simp [addIndentation])

theorem EveryGroup.handleDocument (h : p.EveryGroup P) {doc : Document} (hdoc : doc.EveryGroup P)
    (hclone : ∀ contents mode propagated, P contents mode propagated →
      P (Document.cloneVecInArena contents) mode false)
    (indentation : Indentation) (mode : Mode) :
    (p.handleDocument unicodeWidth settings indentation mode doc).EveryGroup P := by
  cases doc with
  | string s => exact ⟨h.commands, h.lineSuffix⟩
  | rangeStart => exact ⟨h.commands, h.lineSuffix⟩
  | rangeEnd =>
    simp only [Printer.handleDocument]
    split
    · exact ⟨h.commands, h.lineSuffix⟩
    · exact h.queue trivial
  | array docs => exact h.pushDocs indentation mode hdoc
  | indent docs => exact h.pushDocs indentation.indented mode hdoc
  | indentIfBreak groupId contents =>
    simp only [Printer.handleDocument, handleIndentIfBreak]
    split
    · exact h.pushDocs indentation mode hdoc
    · exact h.pushDocs indentation.indented mode hdoc
  | group contents breakMode id propagated => exact h.handleGroup hdoc
  | conditional contents states mostExpanded breakMode id propagated =>
    exact h.handleConditional hdoc
  | line l => exact h.handleLine l indentation mode
  | lineSuffix docs => exact h.queue hdoc
  | lineSuffixBoundary =>
    simp only [Printer.handleDocument, handleLineSuffixBoundary]
    split
    · have hspace : Document.EveryGroup P (.space ⟨false⟩) := trivial
      have hflush := (h.push_document indentation mode hspace).flushLineSuffix
      exact ⟨hflush.commands, hflush.lineSuffix⟩
    · exact h
  | ifBreak breakContents flatContent groupId =>
    have hbreak := Document.EveryGroup.cloneInArena hclone breakContents hdoc.1
    have hflat := Document.EveryGroup.cloneInArena hclone flatContent hdoc.2
    simp only [Printer.handleDocument, handleIfBreak]
    split
    · exact h.push_document _ _ hflat
    · exact h.push_document _ _ hbreak
  | breakParent => exact h
  | align alignment contents => exact h.pushDocs (.aligned alignment) mode hdoc
  | trim t => exact h.of_eq (by simp [Printer.handleDocument]) (by simp [Printer.handleDocument])
  | doNotTrim => exact ⟨h.commands, h.lineSuffix⟩
  | space s =>
    simp only [Printer.handleDocument, handleSpace]
    split
    · exact h
    · exact ⟨h.commands, h.lineSuffix⟩

end Groups

/-! ## Runs -/

mutual

theorem meetsUnforced_of_forced (p : Printer) :
    ∀ (doc : Document) (st : FitsState), doc.EveryGroup Document.Forced →
      p.meetsUnforced unicodeWidth doc st = false
  | .string _, _, _ | .space _, _, _ | .line _, _, _ | .breakParent, _, _ | .lineSuffix _, _, _
  | .trim _, _, _ | .doNotTrim, _, _ | .rangeStart, _, _ | .rangeEnd, _, _
  | .lineSuffixBoundary, _, _ => by simp [meetsUnforced]
  | .array docs, st, h | .indent docs, st, h | .align _ docs, st, h
  | .indentIfBreak _ docs, st, h => by
    simp [meetsUnforced, meetsUnforcedIn_of_forced p docs st h]
  | .group docs breakMode _ _, st, h => by
    have hdocs := meetsUnforcedIn_of_forced p docs st h.2
    by_cases hauto : breakMode = .auto
    · have hany : Document.hasBreakAny docs = false := h.1 hauto
      simp [meetsUnforced, hdocs, hany]
    · simp [meetsUnforced, hauto]
  | .conditional contents _ _ _ _ _, st, h => by
    simp [meetsUnforced, meetsUnforcedIn_of_forced p contents st h.1]
  | .ifBreak breakContents flatContent _, st, h => by
    simp [meetsUnforced, meetsUnforced_of_forced p breakContents st h.1,
      meetsUnforced_of_forced p flatContent st h.2]

theorem meetsUnforcedIn_of_forced (p : Printer) :
    ∀ (docs : List Document) (st : FitsState), Document.EveryGroupIn Document.Forced docs →
      p.meetsUnforcedIn unicodeWidth docs st = false
  | [], _, _ => by simp [meetsUnforcedIn]
  | doc :: docs, st, h => by
    simp only [meetsUnforcedIn, meetsUnforced_of_forced p doc st h.1, Bool.false_or]
    split
    · rfl
    · exact meetsUnforcedIn_of_forced p docs _ h.2

end

theorem meetsUnforcedCommand_of_forced {c : Command} (st : FitsState)
    (h : c.document.EveryGroup Document.Forced) :
    p.meetsUnforcedCommand unicodeWidth c st = false := by
  obtain ⟨indentation, mode, document⟩ := c
  cases document with
  | document doc => simp [meetsUnforcedCommand, meetsUnforced_of_forced p doc st h]
  | array docs => simp [meetsUnforcedCommand, meetsUnforcedIn_of_forced p docs st h]

theorem meetsUnforcedPending_of_forced (commands : List Command) (st : FitsState)
    (h : ∀ c ∈ commands, c.document.EveryGroup Document.Forced) :
    p.meetsUnforcedPending unicodeWidth commands st = false := by
  induction commands generalizing st with
  | nil => rfl
  | cons c commands ih =>
    have hc : p.meetsUnforcedCommand unicodeWidth c st = false :=
      meetsUnforcedCommand_of_forced st (h c List.mem_cons_self)
    simp only [meetsUnforcedPending, hc, Bool.false_or, Bool.and_eq_false_iff]
    right
    split
    · rfl
    · exact ih _ fun c hc => h c (List.mem_cons_of_mem _ hc)

theorem meetsUnforcedAhead_of_forced (hp : p.EveryGroup Document.Forced) {next : Command}
    (width : ℤ) (h : next.document.EveryGroup Document.Forced) :
    p.meetsUnforcedAhead unicodeWidth next width = false := by
  simp only [meetsUnforcedAhead, meetsUnforcedCommand_of_forced _ h, Bool.false_or]
  split
  · rfl
  · exact meetsUnforcedPending_of_forced p.commands _ hp.commands

theorem meetsUnforcedAt_of_forced (hp : p.EveryGroup Document.Forced) {doc : Document}
    (h : doc.EveryGroup Document.Forced) (indentation : Indentation) (mode : Mode) :
    p.meetsUnforcedAt unicodeWidth settings indentation mode doc = false := by
  have hdocument : ∀ {doc : Document}, doc.EveryGroup Document.Forced →
      p.meetsUnforcedAhead unicodeWidth ⟨indentation, .flat, .document doc⟩
        (p.remainingWidth settings) = false := by
    intro doc hdoc
    apply meetsUnforcedAhead_of_forced hp
    exact hdoc
  have hahead := hdocument h
  cases doc with
  | group contents breakMode id propagated => simp [meetsUnforcedAt, hahead]
  | conditional contents states mostExpanded breakMode id propagated =>
    have hstates : p.meetsUnforcedStates unicodeWidth settings indentation states = false := by
      have hall : Document.EveryGroupIn Document.Forced states := h.2.1
      clear hahead h
      induction states with
      | nil => rfl
      | cons state states ih =>
        simp [meetsUnforcedStates, hdocument hall.1, ih hall.2]
    simp [meetsUnforcedAt, hahead, hstates]
  | _ => rfl

theorem overlooksBreak_of_forced (hp : p.EveryGroup Document.Forced) :
    p.overlooksBreak unicodeWidth settings = false := by
  unfold overlooksBreak
  split
  case h_1 indentation mode doc rest hcommands =>
    have hdoc : doc.EveryGroup Document.Forced :=
      hp.commands ⟨indentation, mode, .document doc⟩ (by rw [hcommands]; exact List.mem_cons_self)
    have hcached := Document.EveryGroup.imp Document.cached_of_forced doc hdoc
    have hpropagated := (Document.propagates_propagateBreaks doc hcached).forced hdoc
    have hrest : { p with commands := rest }.EveryGroup Document.Forced :=
      ⟨fun c hc => hp.commands c (by rw [hcommands]; exact List.mem_cons_of_mem _ hc),
        hp.lineSuffix⟩
    exact meetsUnforcedAt_of_forced hrest hpropagated indentation mode
  case h_2 => rfl

/-- A turn at a command whose groups are forced, so that nothing is left to propagate. -/
def handleForced (unicodeWidth : Text → ℕ) (settings : FormatSettings) (p : Printer)
    (c : Command) : Printer :=
  match c.document with
  | .array docs => p.pushDocs c.indentation c.mode docs
  | .document doc => p.handleDocument unicodeWidth settings c.indentation c.mode doc

theorem rootForced_propagateBreaks {doc : Document} (h : doc.EveryGroup Document.Cached) :
    RootForced doc.propagateBreaks.2 := by
  cases hresult : doc.propagateBreaks.2 with
  | group contents' mode' id' propagated' =>
    cases doc with
    | group contents mode id propagated => exact Document.forced_of_propagateBreaks h hresult
    | conditional contents states mostExpanded mode id propagated =>
      unfold Document.propagateBreaks at hresult
      split at hresult
      · cases hresult
      · split at hresult <;> cases hresult
    | _ => simp [Document.propagateBreaks] at hresult
  | _ => trivial

/-- A turn of a printer whose groups are forced. -/
def stepForced (unicodeWidth : Text → ℕ) (settings : FormatSettings) (p : Printer) :
    Option Printer :=
  match p.commands with
  | [] => none
  | c :: rest =>
    some ({ p with commands := rest }.handleForced unicodeWidth settings c).flushAtEnd

/-- Where no break is overlooked, a command is handled as one with all groups forced. -/
theorem handleCommand_forceBreaks {c : Command} (hc : c.document.EveryGroup Document.Cached)
    (hmeets : ∀ doc, c.document = .document doc →
      p.meetsUnforcedAt unicodeWidth settings c.indentation c.mode doc.propagateBreaks.2 = false) :
    (p.handleCommand unicodeWidth settings c).forceBreaks =
      p.forceBreaks.handleForced unicodeWidth settings c.forceBreaks := by
  obtain ⟨indentation, mode, document⟩ := c
  cases document with
  | array docs =>
    have hdocs := Document.propagatesIn_propagateSliceBreaks docs hc
    simp only [handleCommand, handleForced, Command.forceBreaks, CommandDocument.forceBreaks]
    rw [pushDocs_forceBreaks, hdocs.forceBreaksIn_eq]
  | document doc =>
    have hdoc := Document.propagates_propagateBreaks doc hc
    simp only [handleCommand, handleForced, Command.forceBreaks, CommandDocument.forceBreaks]
    rw [handleDocument_forceBreaks (rootForced_propagateBreaks hc) (hmeets doc rfl),
      hdoc.forceBreaks_eq]

/-- A printer and one that has started with all groups forced. -/
structure InStep (p q : Printer) : Prop where
  alike : p.forceBreaks = q.forceBreaks
  cached : p.EveryGroup Document.Cached
  forced : q.EveryGroup Document.Forced

theorem EveryGroup.handleCommand {P : List Document → BreakMode → Bool → Prop}
    (h : p.EveryGroup P) {c : Command} (hc : c.document.EveryGroup P)
    (hclone : ∀ contents mode propagated, P contents mode propagated →
      P (Document.cloneVecInArena contents) mode false)
    (hdoc : ∀ doc : Document, doc.EveryGroup P → doc.propagateBreaks.2.EveryGroup P)
    (hdocs : ∀ docs : List Document, Document.EveryGroupIn P docs →
      Document.EveryGroupIn P (Document.propagateSliceBreaks docs).2) :
    (p.handleCommand unicodeWidth settings c).EveryGroup P := by
  obtain ⟨indentation, mode, document⟩ := c
  cases document with
  | array docs => exact h.pushDocs indentation mode (hdocs docs hc)
  | document doc => exact h.handleDocument (hdoc doc hc) hclone indentation mode

theorem EveryGroup.step_cached (h : p.EveryGroup Document.Cached)
    (hstep : p.step unicodeWidth settings = some q) : q.EveryGroup Document.Cached := by
  cases hcommands : p.commands with
  | nil => simp [step, hcommands] at hstep
  | cons c rest =>
    rw [step_cons hcommands] at hstep
    cases hstep
    have hrest : { p with commands := rest }.EveryGroup Document.Cached :=
      ⟨fun d hd => h.commands d (by rw [hcommands]; exact List.mem_cons_of_mem c hd),
        h.lineSuffix⟩
    apply EveryGroup.flushAtEnd
    exact hrest.handleCommand (h.commands c (by rw [hcommands]; exact List.mem_cons_self))
      Document.cached_clone (fun doc hdoc => (Document.propagates_propagateBreaks doc hdoc).cached)
      fun docs hdocs => (Document.propagatesIn_propagateSliceBreaks docs hdocs).cached

theorem EveryGroup.step_forced (h : p.EveryGroup Document.Forced)
    (hstep : p.step unicodeWidth settings = some q) : q.EveryGroup Document.Forced := by
  have hcached : ∀ {doc : Document}, doc.EveryGroup Document.Forced →
      doc.EveryGroup Document.Cached :=
    fun {doc} hdoc => Document.EveryGroup.imp Document.cached_of_forced doc hdoc
  have hcachedIn : ∀ {docs : List Document}, Document.EveryGroupIn Document.Forced docs →
      Document.EveryGroupIn Document.Cached docs :=
    fun {docs} hdocs => Document.EveryGroupIn.imp Document.cached_of_forced docs hdocs
  cases hcommands : p.commands with
  | nil => simp [step, hcommands] at hstep
  | cons c rest =>
    rw [step_cons hcommands] at hstep
    cases hstep
    have hrest : { p with commands := rest }.EveryGroup Document.Forced :=
      ⟨fun d hd => h.commands d (by rw [hcommands]; exact List.mem_cons_of_mem c hd),
        h.lineSuffix⟩
    apply EveryGroup.flushAtEnd
    exact hrest.handleCommand (h.commands c (by rw [hcommands]; exact List.mem_cons_self))
      Document.forced_clone
      (fun doc hdoc =>
        (Document.propagates_propagateBreaks doc (hcached hdoc)).forced hdoc)
      fun docs hdocs =>
        (Document.propagatesIn_propagateSliceBreaks docs (hcachedIn hdocs)).forced hdocs

/-- Where no break is overlooked, a turn is one with all groups forced. -/
theorem step_forceBreaks (hp : p.EveryGroup Document.Cached)
    (hmeets : p.overlooksBreak unicodeWidth settings = false) :
    (p.step unicodeWidth settings).map forceBreaks =
      p.forceBreaks.stepForced unicodeWidth settings := by
  cases hcommands : p.commands with
  | nil => simp [step, stepForced, forceBreaks, hcommands]
  | cons c rest =>
    have hforced : p.forceBreaks.commands = c.forceBreaks :: rest.map Command.forceBreaks := by
      simp [forceBreaks, hcommands]
    have hhandle : ({ p with commands := rest }.handleCommand unicodeWidth settings
          c).forceBreaks =
        { p.forceBreaks with commands := rest.map Command.forceBreaks }.handleForced
          unicodeWidth settings c.forceBreaks := by
      apply handleCommand_forceBreaks (hp.commands c (by rw [hcommands]; exact List.mem_cons_self))
      intro doc hdoc
      obtain ⟨indentation, mode, document⟩ := c
      cases hdoc
      simpa only [overlooksBreak, hcommands] using hmeets
    rw [step_cons hcommands]
    simp only [stepForced, hforced, Option.map_some, flushAtEnd_forceBreaks, hhandle]

theorem InStep.step (h : InStep p q) (hmeets : p.overlooksBreak unicodeWidth settings = false) :
    (p.step unicodeWidth settings = none ∧ q.step unicodeWidth settings = none) ∨
      ∃ p' q', p.step unicodeWidth settings = some p' ∧ q.step unicodeWidth settings = some q' ∧
        InStep p' q' := by
  have hcached : q.EveryGroup Document.Cached :=
    ⟨fun c hc => by
      have hforced := h.forced.commands c hc
      obtain ⟨indentation, mode, document⟩ := c
      cases document with
      | document doc => exact Document.EveryGroup.imp Document.cached_of_forced doc hforced
      | array docs => exact Document.EveryGroupIn.imp Document.cached_of_forced docs hforced,
    fun c hc => by
      have hforced := h.forced.lineSuffix c hc
      obtain ⟨indentation, mode, document⟩ := c
      cases document with
      | document doc => exact Document.EveryGroup.imp Document.cached_of_forced doc hforced
      | array docs => exact Document.EveryGroupIn.imp Document.cached_of_forced docs hforced⟩
  have hsame : (p.step unicodeWidth settings).map forceBreaks =
      (q.step unicodeWidth settings).map forceBreaks := by
    rw [step_forceBreaks h.cached hmeets, h.alike,
      step_forceBreaks hcached (overlooksBreak_of_forced h.forced)]
  cases hp : p.step unicodeWidth settings with
  | none =>
    rw [hp] at hsame
    exact .inl ⟨rfl, Option.map_eq_none_iff.mp hsame.symm⟩
  | some p' =>
    rw [hp] at hsame
    obtain ⟨q', hq, halike⟩ := Option.map_eq_some_iff.mp hsame.symm
    exact .inr ⟨p', q', rfl, hq, halike.symm, h.cached.step_cached hp, h.forced.step_forced hq⟩

/-- Printers in step print the same bytes, if the first one overlooks no break. -/
theorem InStep.printIn_eq (h : InStep p q)
    (hmeets : ∀ r, p.Reaches unicodeWidth settings r → r.overlooksBreak unicodeWidth settings =
      false) (turns : ℕ) :
    p.printIn unicodeWidth settings turns = q.printIn unicodeWidth settings turns := by
  have hout : ∀ {p q : Printer}, InStep p q → p.out = q.out := by
    intro p q h
    have hforced : p.forceBreaks.out = q.forceBreaks.out := by rw [h.alike]
    exact hforced
  induction turns generalizing p q with
  | zero =>
    obtain ⟨hp, hq⟩ | ⟨p', q', hp, hq, -⟩ := h.step (hmeets p .refl)
    · unfold printIn
      rw [hp, hq, hout h]
    · unfold printIn
      rw [hp, hq]
  | succ turns ih =>
    obtain ⟨hp, hq⟩ | ⟨p', q', hp, hq, hnext⟩ := h.step (hmeets p .refl)
    · unfold printIn
      rw [hp, hq, hout h]
    · unfold printIn
      rw [hp, hq]
      exact ih hnext fun r hr => hmeets r (.head hp hr)

theorem inStep_new {doc : Document} (hfresh : doc.EveryGroup Document.Fresh) :
    InStep (new doc) (new doc.forceBreaks) := by
  have hnew : ∀ {P : List Document → BreakMode → Bool → Prop} {doc : Document},
      doc.EveryGroup P → (new doc).EveryGroup P := by
    intro P doc hdoc
    refine ⟨?_, by simp [new]⟩
    intro c hc
    rw [List.mem_singleton.mp hc]
    exact hdoc
  refine ⟨?_, hnew ?_, hnew doc.forced_forceBreaks⟩
  · simp [forceBreaks, new, Command.forceBreaks, CommandDocument.forceBreaks,
      Document.forceBreaks_forceBreaks]
  · exact Document.EveryGroup.imp Document.cached_of_fresh doc hfresh

/-- Forcing groups on the way prints what forcing all of them before prints, unless a look
ahead in flat mode overlooks a break. -/
theorem printIn_forceBreaks {doc : Document} (hfresh : doc.EveryGroup Document.Fresh)
    (hmeets : ∀ q, (new doc).Reaches unicodeWidth settings q →
      q.overlooksBreak unicodeWidth settings = false) (turns : ℕ) :
    (new doc).printIn unicodeWidth settings turns =
      (new doc.forceBreaks).printIn unicodeWidth settings turns :=
  (inStep_new hfresh).printIn_eq hmeets turns

/-- No turn of a run that is over in a number of turns overlooks a break. -/
def overlooksNever (unicodeWidth : Text → ℕ) (settings : FormatSettings) (turns : ℕ)
    (p : Printer) : Bool :=
  !p.overlooksBreak unicodeWidth settings &&
    match turns, p.step unicodeWidth settings with
    | _, none => true
    | 0, some _ => false
    | turns + 1, some q => overlooksNever unicodeWidth settings turns q

theorem overlooksBreak_of_overlooksNever {turns : ℕ}
    (h : p.overlooksNever unicodeWidth settings turns = true)
    (hq : p.Reaches unicodeWidth settings q) : q.overlooksBreak unicodeWidth settings = false := by
  induction turns generalizing p with
  | zero =>
    unfold overlooksNever at h
    obtain rfl | ⟨r, hstep, -⟩ := hq.cases_head
    · simp_all
    · simp [hstep] at h
  | succ turns ih =>
    unfold overlooksNever at h
    obtain rfl | ⟨r, hstep, hrest⟩ := hq.cases_head
    · simp_all
    · rw [hstep] at h
      simp only [Bool.and_eq_true] at h
      exact ih h.2 hrest

/-- A group with a break in it, in flat mode too wide for three columns. -/
def brokenGroup : Document :=
  .group [.string [97], .line ⟨false, false, false⟩, .string [98, 98, 98, 98], .breakParent] .auto
    none false

/-- Expanded states over some contents. -/
def withState (contents : List Document) : Document :=
  .conditional contents [] (.string [99]) .auto none false

def threeColumns : FormatSettings := ⟨3, 4, false, .lf⟩

theorem printIn_forceBreaks_one_break :
    (new (withState [brokenGroup])).printIn List.length threeColumns 20 =
      (new (withState [brokenGroup]).forceBreaks).printIn List.length threeColumns 20 := by
  have hnever : (new (withState [brokenGroup])).overlooksNever List.length threeColumns 10 =
      true := by decide +kernel
  have hfresh : (withState [brokenGroup]).EveryGroup Document.Fresh := by
    simp [withState, brokenGroup, Document.EveryGroup, Document.EveryGroupIn, Document.Fresh]
  exact printIn_forceBreaks hfresh (fun q hq => overlooksBreak_of_overlooksNever hnever hq) 20

/-- A second break keeps the propagation from the first one. -/
theorem overlooked_break :
    ¬ ∀ (doc : Document) (settings : FormatSettings) (turns : ℕ),
      doc.EveryGroup Document.Fresh → (new doc).printIn List.length settings turns =
        (new doc.forceBreaks).printIn List.length settings turns := by
  intro h
  have hfresh : (withState [brokenGroup, .breakParent]).EveryGroup Document.Fresh := by
    simp [withState, brokenGroup, Document.EveryGroup, Document.EveryGroupIn, Document.Fresh]
  have hlazy : (new (withState [brokenGroup, .breakParent])).printIn List.length threeColumns
      10 = some [99] := rfl
  have heager : (new (withState [brokenGroup, .breakParent]).forceBreaks).printIn List.length
      threeColumns 10 = some [97, 10, 98, 98, 98, 98] := rfl
  have := h (withState [brokenGroup, .breakParent]) threeColumns 10 hfresh
  rw [hlazy, heager] at this
  cases this

end Printer

end Mago.Printing
