import Mago.Printing.Linearise

/-!
# The printer terminates and loses nothing

The runs end since every turn defers less, puts the queue on top, or leaves smaller commands.
-/
namespace Mago.Printing
open Library

/-! ## The size of a layout -/

namespace Layout

mutual

def deferrals : Layout → ℕ
  | sequence parts => totalDeferrals parts
  | aligned _ parts => totalDeferrals parts
  | choice options => totalDeferrals options
  | deferred parts => 1 + totalDeferrals parts
  | _ => 0

def totalDeferrals : List Layout → ℕ
  | [] => 0
  | layout :: layouts => deferrals layout + totalDeferrals layouts

end

mutual

def weight : Layout → ℕ
  | sequence parts => 2 + totalWeight parts
  | aligned _ parts => 2 + totalWeight parts
  | choice options => 1 + totalWeight options
  | deferred parts => 1 + totalWeight parts
  | _ => 1

def totalWeight : List Layout → ℕ
  | [] => 0
  | layout :: layouts => weight layout + totalWeight layouts

end

theorem deferrals_le_total {layout : Layout} {layouts : List Layout} (h : layout ∈ layouts) :
    layout.deferrals ≤ totalDeferrals layouts := by
  induction layouts with
  | nil => cases h
  | cons first layouts ih =>
    simp only [totalDeferrals]
    rcases List.mem_cons.mp h with rfl | h
    · omega
    · have hrest := ih h
      omega

theorem weight_le_total {layout : Layout} {layouts : List Layout} (h : layout ∈ layouts) :
    layout.weight ≤ totalWeight layouts := by
  induction layouts with
  | nil => cases h
  | cons first layouts ih =>
    simp only [totalWeight]
    rcases List.mem_cons.mp h with rfl | h
    · omega
    · have hrest := ih h
      omega

end Layout

namespace Command

def deferrals (c : Command) : ℕ := Layout.totalDeferrals c.layouts

def weight (c : Command) : ℕ :=
  match c.document with
  | .document doc => doc.layout.weight
  | .array docs => 1 + Layout.totalWeight (Document.layouts docs)

end Command

def totalDeferrals : List Command → ℕ
  | [] => 0
  | c :: commands => c.deferrals + totalDeferrals commands

def totalWeight : List Command → ℕ
  | [] => 0
  | c :: commands => c.weight + totalWeight commands

theorem totalDeferrals_append (commands later : List Command) :
    totalDeferrals (commands ++ later) = totalDeferrals commands + totalDeferrals later := by
  induction commands with
  | nil => simp [totalDeferrals]
  | cons c commands ih =>
    simp only [List.cons_append, totalDeferrals, ih]
    omega

theorem totalWeight_append (commands later : List Command) :
    totalWeight (commands ++ later) = totalWeight commands + totalWeight later := by
  induction commands with
  | nil => simp [totalWeight]
  | cons c commands ih =>
    simp only [List.cons_append, totalWeight, ih]
    omega

theorem totalDeferrals_docCommands (indentation : Indentation) (mode : Mode)
    (docs : List Document) :
    totalDeferrals (docCommands indentation mode docs) =
      Layout.totalDeferrals (Document.layouts docs) := by
  induction docs with
  | nil => rfl
  | cons doc docs ih =>
    have hcons : docCommands indentation mode (doc :: docs) =
        ⟨indentation, mode, .document doc⟩ :: docCommands indentation mode docs := rfl
    simp [hcons, totalDeferrals, ih, Command.deferrals, Command.layouts, Document.layouts,
      Layout.totalDeferrals]

theorem totalWeight_docCommands (indentation : Indentation) (mode : Mode)
    (docs : List Document) :
    totalWeight (docCommands indentation mode docs) =
      Layout.totalWeight (Document.layouts docs) := by
  induction docs with
  | nil => rfl
  | cons doc docs ih =>
    have hcons : docCommands indentation mode (doc :: docs) =
        ⟨indentation, mode, .document doc⟩ :: docCommands indentation mode docs := rfl
    simp [hcons, totalWeight, ih, Command.weight, Document.layouts, Layout.totalWeight]

namespace Printer

variable {unicodeWidth : Text → ℕ} {settings : FormatSettings} {p q : Printer}

/-! ## What a turn does to the two stacks -/

/-- The top command, of a given layout, is taken off `p`. It is replaced by smaller commands,
laid out flat again, put into the queue, or the queue goes on top of a last small command. -/
inductive Outcome (p : Printer) (mode : Mode) (layout : Layout) (q : Printer) : Prop
  | pushed (commands : List Command) (hcommands : q.commands = commands ++ p.commands)
      (hsuffix : q.lineSuffix = p.lineSuffix)
      (hdeferrals : totalDeferrals commands ≤ layout.deferrals)
      (hweight : totalWeight commands < layout.weight)
  | repushed (c : Command) (hcommands : q.commands = c :: p.commands)
      (hsuffix : q.lineSuffix = p.lineSuffix) (hdeferrals : c.deferrals ≤ layout.deferrals)
      (hweight : c.weight ≤ layout.weight) (hflat : c.mode = .flat)
      (hremeasured : q.shouldRemeasure = false)
      (hbefore : ¬ (mode = .flat ∧ p.shouldRemeasure = false))
  | queued (c : Command) (hcommands : q.commands = p.commands)
      (hsuffix : q.lineSuffix = p.lineSuffix ++ [c]) (hqueued : c.isQueued = true)
      (hweight : 0 < layout.weight)
      (hdeferrals : c.deferrals < layout.deferrals ∨
        p.lineSuffix ≠ [] ∧ c.deferrals ≤ layout.deferrals)
  | flushed (c : Command) (hcommands : q.commands = p.lineSuffix ++ c :: p.commands)
      (hsuffix : q.lineSuffix = []) (hwaits : p.lineSuffix ≠ [])
      (hdeferrals : c.deferrals ≤ layout.deferrals)

theorem outcome_of_docs {mode mode' : Mode} {layout : Layout} {indentation : Indentation}
    {docs : List Document} (hcommands : q.commands = docCommands indentation mode' docs ++ p.commands)
    (hsuffix : q.lineSuffix = p.lineSuffix)
    (hdeferrals : Layout.totalDeferrals (Document.layouts docs) ≤ layout.deferrals)
    (hweight : Layout.totalWeight (Document.layouts docs) < layout.weight) :
    Outcome p mode layout q :=
  .pushed _ hcommands hsuffix (by rwa [totalDeferrals_docCommands])
    (by rwa [totalWeight_docCommands])

theorem outcome_of_command {mode : Mode} {layout : Layout} {c : Command}
    (hcommands : q.commands = c :: p.commands) (hsuffix : q.lineSuffix = p.lineSuffix)
    (hdeferrals : c.deferrals ≤ layout.deferrals) (hweight : c.weight < layout.weight) :
    Outcome p mode layout q :=
  .pushed [c] hcommands hsuffix (by simpa [totalDeferrals] using hdeferrals)
    (by simpa [totalWeight] using hweight)

theorem outcome_of_rest {mode : Mode} {layout : Layout} (hcommands : q.commands = p.commands)
    (hsuffix : q.lineSuffix = p.lineSuffix) (hweight : 0 < layout.weight) :
    Outcome p mode layout q :=
  .pushed [] hcommands hsuffix (by simp [totalDeferrals]) (by simpa [totalWeight] using hweight)

theorem outcome_handleLine (l : Line) (indentation : Indentation) (mode : Mode) :
    Outcome p mode (.line l.hard l.literal)
      (p.handleLine unicodeWidth settings l indentation mode) := by
  by_cases hflat : mode = .flat ∧ l.hard = false
  · simp only [handleLine, hflat, and_self, if_true]
    split <;> exact outcome_of_rest rfl rfl (by simp [Layout.weight])
  · cases hqueue : p.lineSuffix with
    | nil =>
      exact outcome_of_rest (handleLine_commands hqueue l indentation mode).1
        ((handleLine_commands hqueue l indentation mode).2.trans hqueue.symm)
        (by simp [Layout.weight])
    | cons c queue =>
      have hwaits : (!p.lineSuffix.isEmpty) = true := by simp [hqueue]
      simp only [handleLine, hflat, if_false, hwaits, if_true]
      exact .flushed ⟨indentation, mode, .document (.line l)⟩ (by simp [flushLineSuffix, push])
        rfl (by simp [hqueue]) (by simp [Command.deferrals, Command.layouts,
          Layout.totalDeferrals, Layout.deferrals, Document.layout])

theorem outcome_handleGroup {indentation : Indentation} {mode : Mode}
    {contents : List Document} {breakMode : BreakMode} {id : Option GroupIdentifier}
    {propagated : Bool} :
    Outcome p mode (.sequence (Document.layouts contents))
      (p.handleGroup unicodeWidth settings indentation mode contents breakMode id propagated) := by
  unfold handleGroup
  dsimp only
  split
  case isTrue =>
    exact outcome_of_docs (by simp; rfl) (by simp [pushDocs, push]) (by simp [Layout.deferrals])
      (by simp [Layout.weight])
  case isFalse hbefore =>
    split
    · exact .repushed ⟨indentation, .flat, .document (.group contents breakMode id propagated)⟩
        (by simp) (by simp [push])
        (by simp [Command.deferrals, Command.layouts, Layout.totalDeferrals, Document.layout])
        (by simp [Command.weight, Document.layout]) rfl (by simp [push]) hbefore
    · exact outcome_of_command (c := ⟨indentation, .Break, .array contents⟩) (by simp)
        (by simp [push]) (by simp [Command.deferrals, Command.layouts, Layout.deferrals])
        (by simp [Command.weight, Layout.weight])

/-- An option of a choice is smaller than the choice. -/
theorem outcome_of_option {mode : Mode} {c : Command} {doc : Document} {options : List Layout}
    (hdocument : c.document = .document doc) (hmem : doc.layout ∈ options)
    (hcommands : q.commands = c :: p.commands) (hsuffix : q.lineSuffix = p.lineSuffix) :
    Outcome p mode (.choice options) q := by
  have hdeferrals := Layout.deferrals_le_total hmem
  have hweight := Layout.weight_le_total hmem
  refine outcome_of_command hcommands hsuffix ?_ ?_
  · simpa [Command.deferrals, Command.layouts, hdocument, Layout.totalDeferrals,
      Layout.deferrals] using hdeferrals
  · simp only [Command.weight, hdocument, Layout.weight]
    omega

theorem outcome_handleConditional {indentation : Indentation} {mode : Mode}
    {contents states : List Document} {mostExpanded : Document} {breakMode : BreakMode}
    {id : Option GroupIdentifier} {propagated : Bool} :
    Outcome p mode (Document.conditional contents states mostExpanded breakMode id propagated).layout
      (p.handleConditional unicodeWidth settings indentation mode contents states mostExpanded
        breakMode id propagated) := by
  unfold handleConditional
  dsimp only
  split
  case isTrue =>
    refine outcome_of_docs (by simp; rfl) (by simp [pushDocs, push]) ?_ ?_
    · simp only [Document.layout, Layout.deferrals, Layout.totalDeferrals]
      omega
    · simp only [Document.layout, Layout.weight, Layout.totalWeight]
      omega
  case isFalse hbefore =>
    split
    · exact outcome_of_option (c := ⟨indentation, .Break, .document mostExpanded⟩) rfl (by simp)
        (by simp) (by simp [push])
    split
    · exact .repushed ⟨indentation, .flat,
          .document (.conditional contents states mostExpanded breakMode id propagated)⟩
        (by simp) (by simp [push])
        (by simp [Command.deferrals, Command.layouts, Layout.totalDeferrals])
        (by simp [Command.weight]) rfl (by simp [push]) hbefore
    split
    case h_1 fitting hfitting =>
      obtain ⟨state, hmem, rfl⟩ := firstFitting_mem hfitting
      exact outcome_of_option (c := ⟨indentation, .flat, .document state⟩) rfl
        (List.mem_cons_of_mem _ (List.mem_cons_of_mem _ (layout_mem_layouts hmem)))
        (by simp) (by simp [push])
    case h_2 =>
      exact outcome_of_option (c := ⟨indentation, .Break, .document mostExpanded⟩) rfl (by simp)
        (by simp) (by simp [push])

theorem outcome_handleDocument (indentation : Indentation) (mode : Mode) :
    ∀ doc : Document, Outcome p mode doc.layout
      (p.handleDocument unicodeWidth settings indentation mode doc)
  | .string _ | .rangeStart | .breakParent | .doNotTrim =>
    outcome_of_rest rfl rfl (by simp [Document.layout, Layout.weight])
  | .trim t =>
    outcome_of_rest (handleTrim_commands t) (handleTrim_lineSuffix t)
      (by simp [Document.layout, Layout.weight])
  | .rangeEnd => by
    simp only [Printer.handleDocument]
    split
    case isTrue => exact outcome_of_rest rfl rfl (by simp [Document.layout, Layout.weight])
    case isFalse hwaits =>
      refine .queued ⟨indentation, mode, .document .rangeEnd⟩ rfl rfl rfl
        (by simp [Document.layout, Layout.weight]) (.inr ⟨by simpa using hwaits, ?_⟩)
      simp [Command.deferrals, Command.layouts, Layout.totalDeferrals]
  | .lineSuffix docs => by
    refine .queued ⟨indentation, mode, .array docs⟩ rfl rfl rfl
      (by simp [Document.layout, Layout.weight]) (.inl ?_)
    simp [Command.deferrals, Command.layouts, Document.layout, Layout.deferrals]
  | .space s => by
    simp only [Printer.handleDocument, handleSpace]
    split <;> exact outcome_of_rest rfl rfl (by simp [Document.layout, Layout.weight])
  | .array docs | .indent docs | .align _ docs =>
    outcome_of_docs rfl rfl (by simp [Document.layout, Layout.deferrals])
      (by simp [Document.layout, Layout.weight])
  | .indentIfBreak _ docs => by
    simp only [Printer.handleDocument, handleIndentIfBreak]
    split <;> exact outcome_of_docs rfl rfl (by simp [Document.layout, Layout.deferrals])
      (by simp [Document.layout, Layout.weight])
  | .group _ _ _ _ => outcome_handleGroup
  | .conditional _ _ _ _ _ _ => outcome_handleConditional
  | .line l => outcome_handleLine l indentation mode
  | .lineSuffixBoundary => by
    simp only [Printer.handleDocument, handleLineSuffixBoundary]
    split
    case isTrue hwaits =>
      exact .flushed ⟨indentation, mode, .document (.space ⟨false⟩)⟩
        (by simp [flushLineSuffix, push]) rfl (by simpa using hwaits)
        (by simp [Command.deferrals, Command.layouts, Document.layout, Layout.totalDeferrals,
          Layout.deferrals])
    case isFalse => exact outcome_of_rest rfl rfl (by simp [Document.layout, Layout.weight])
  | .ifBreak breakContents flatContent _ => by
    simp only [Printer.handleDocument, handleIfBreak]
    split <;> exact outcome_of_option rfl (by simp) rfl rfl

/-- Documents of a list are replaced by commands of their own. -/
theorem outcome_handleCommand (c : Command) :
    ∃ layout : Layout, layout.deferrals = c.deferrals ∧ layout.weight ≤ c.weight ∧
      Outcome p c.mode layout (p.handleCommand unicodeWidth settings c) := by
  obtain ⟨indentation, mode, document⟩ := c
  cases document with
  | document doc =>
    refine ⟨doc.layout, ?_, le_rfl, ?_⟩
    · simp [Command.deferrals, Command.layouts, Layout.totalDeferrals]
    · rw [← Document.layout_propagateBreaks]
      exact outcome_handleDocument indentation mode doc.propagateBreaks.2
  | array docs =>
    refine ⟨.choice (Document.layouts docs), rfl, le_rfl, ?_⟩
    exact outcome_of_docs rfl rfl (by simp [Layout.deferrals]) (by simp [Layout.weight])

/-! ## Termination -/

/-- The suffixes that are left to be queued and printed. -/
def leftDeferrals (p : Printer) : ℕ := totalDeferrals p.commands + totalDeferrals p.lineSuffix

/-- The top command is in flat mode and is not measured again. -/
def settled (p : Printer) : Bool :=
  p.commands.head?.any fun c => decide (c.mode = .flat) && !p.shouldRemeasure

def leftWeight (p : Printer) : ℕ := 2 * totalWeight p.commands + if p.settled then 0 else 1

/-- Less is deferred, the queue has gone on top, or less is left. -/
def Smaller (q p : Printer) : Prop :=
  q.leftDeferrals < p.leftDeferrals ∨
  q.leftDeferrals ≤ p.leftDeferrals ∧ p.lineSuffix ≠ [] ∧ q.lineSuffix = [] ∨
  q.leftDeferrals ≤ p.leftDeferrals ∧ (q.lineSuffix = [] ↔ p.lineSuffix = []) ∧
    q.leftWeight < p.leftWeight

theorem leftWeight_le (p : Printer) : p.leftWeight ≤ 2 * totalWeight p.commands + 1 := by
  unfold leftWeight
  split <;> omega

theorem Outcome.smaller {c : Command} {rest : List Command} {layout : Layout}
    (hcommands : p.commands = c :: rest) (hdeferrals : layout.deferrals = c.deferrals)
    (hweight : layout.weight ≤ c.weight)
    (h : Outcome { p with commands := rest } c.mode layout q) : Smaller q p := by
  have hleft : p.leftDeferrals =
      layout.deferrals + totalDeferrals rest + totalDeferrals p.lineSuffix := by
    simp [leftDeferrals, hcommands, totalDeferrals, hdeferrals]
  have hheavy : 2 * (c.weight + totalWeight rest) ≤ p.leftWeight := by
    simp [leftWeight, hcommands, totalWeight]
  have hlight := q.leftWeight_le
  cases h with
  | pushed commands hpushed hsuffix hless hlighter =>
    rw [hpushed, totalWeight_append] at hlight
    simp only at hlight
    refine .inr (.inr ⟨?_, by rw [hsuffix], by omega⟩)
    rw [hleft, leftDeferrals, hpushed, hsuffix, totalDeferrals_append]
    simp only
    omega
  | repushed again hpushed hsuffix hless hlighter hflat hremeasured hbefore =>
    have hsettled : q.settled = true := by simp [settled, hpushed, hflat, hremeasured]
    have hopen : p.settled = false := by
      simp only [settled, hcommands]
      simpa using hbefore
    refine .inr (.inr ⟨?_, by rw [hsuffix], ?_⟩)
    · rw [hleft, leftDeferrals, hpushed, hsuffix, totalDeferrals]
      simp only
      omega
    · simp only [leftWeight, hsettled, hopen, hpushed, hcommands, totalWeight, if_true,
        Bool.false_eq_true, if_false]
      omega
  | queued last hpushed hsuffix _ hpositive hless =>
    have hq : q.leftDeferrals =
        last.deferrals + totalDeferrals rest + totalDeferrals p.lineSuffix := by
      rw [leftDeferrals, hpushed, hsuffix, totalDeferrals_append]
      simp only [totalDeferrals]
      omega
    rcases hless with hless | ⟨hwaits, hless⟩
    · exact .inl (by omega)
    · rw [hpushed] at hlight
      simp only at hlight hwaits
      exact .inr (.inr ⟨by omega, by rw [hsuffix]; simpa using hwaits, by omega⟩)
  | flushed below hpushed hsuffix hwaits hless =>
    refine .inr (.inl ⟨?_, hwaits, hsuffix⟩)
    rw [hleft, leftDeferrals, hpushed, hsuffix, totalDeferrals_append]
    simp only [totalDeferrals]
    omega

/-- A queue that goes on top at the end leaves no less to print, but no queue. -/
theorem Smaller.flushAtEnd (h : Smaller q p) : Smaller q.flushAtEnd p := by
  unfold Printer.flushAtEnd
  split
  case isFalse => exact h
  case isTrue hempty =>
    have hnil : q.commands = [] := by simpa using hempty
    cases hqueue : q.lineSuffix with
    | nil =>
      have hsame : q.flushLineSuffix = q := by
        cases q
        simp_all [flushLineSuffix]
      rwa [hsame]
    | cons c queue =>
      have hdeferrals : q.flushLineSuffix.leftDeferrals = q.leftDeferrals := by
        simp [leftDeferrals, flushLineSuffix, hnil, totalDeferrals]
      rcases h with h | ⟨_, _, h⟩ | ⟨hle, hiff, _⟩
      · exact .inl (hdeferrals ▸ h)
      · simp [hqueue] at h
      · refine .inr (.inl ⟨hdeferrals ▸ hle, ?_, rfl⟩)
        intro hnone
        have hempty := hiff.mpr hnone
        simp [hqueue] at hempty

theorem step_smaller (hstep : p.step unicodeWidth settings = some q) : Smaller q p := by
  cases hcommands : p.commands with
  | nil => simp [step_nil hcommands] at hstep
  | cons c rest =>
    rw [step_cons hcommands, Option.some.injEq] at hstep
    obtain ⟨layout, hdeferrals, hweight, hturn⟩ := outcome_handleCommand c
    rw [← hstep]
    exact (hturn.smaller hcommands hdeferrals hweight).flushAtEnd

/-! ## The bytes that are printed -/

/-- The bytes that are no whitespace. -/
def visible (s : Bytes) : Bytes := s.filter fun c => !isLineTerminatorOrSpace c

theorem visible_append (s s' : Bytes) : visible (s ++ s') = visible s ++ visible s' :=
  List.filter_append s s'

@[simp]
theorem visible_nil : visible [] = [] := rfl

theorem visible_asStr (e : EndOfLine) : visible e.asStr = [] := by
  cases e <;> decide

theorem visible_replicate (n : ℕ) {c : UInt8} (h : isSpace c = true) :
    visible (List.replicate n c) = [] := by
  simp [visible, isLineTerminatorOrSpace, h]

theorem visible_handleTrim (t : Trim) : visible (p.handleTrim t).out = visible p.out := by
  have hblank (c : UInt8) (h : shouldPop t c = true) : isLineTerminatorOrSpace c = true := by
    cases t with
    | whitespace => simp_all [shouldPop, isLineTerminatorOrSpace]
    | newlines => exact h
  have hdrop (s : Bytes) : visible (s.dropWhile (shouldPop t)) = visible s := by
    induction s with
    | nil => rfl
    | cons c s ih =>
      by_cases hc : shouldPop t c = true
      · simp only [List.dropWhile_cons, hc, if_true, ih]
        simp [visible, hblank c hc]
      · simp only [List.dropWhile_cons, hc]
        rfl
  unfold handleTrim
  split
  · rfl
  · have hreverse (s : Bytes) : visible s.reverse = (visible s).reverse := by
      simp [visible, List.filter_reverse]
    simp only [hreverse, hdrop, List.reverse_reverse]

theorem visible_addIndentation (indentation : Indentation) :
    visible (p.addIndentation unicodeWidth settings indentation).out =
      visible p.out ++ visible (indentation.alignment.getD []) := by
  have hspace : isSpace (if settings.useTabs then 9 else 32) = true := by split <;> decide
  simp only [addIndentation, visible_append, visible_replicate _ hspace, List.append_nil]

theorem visible_handleLine (l : Line) (indentation : Indentation) (mode : Mode) :
    visible (p.handleLine unicodeWidth settings l indentation mode).out =
      visible p.out ++ visible ((p.emitsDocument indentation mode (.line l)).flatMap Event.bytes) := by
  by_cases hflat : mode = .flat ∧ l.hard = false
  · simp only [handleLine, emitsDocument, hflat, and_self, if_true]
    split
    · simp
    · simp only [visible_append]
      rfl
  · simp only [handleLine, emitsDocument, hflat, if_false]
    by_cases hwaits : (!p.lineSuffix.isEmpty) = true
    · simp [hwaits, push_out, flushLineSuffix_out]
    · simp only [hwaits]
      by_cases hliteral : l.literal = true
      · simp only [hliteral, if_true]
        by_cases hroot : indentation.isRoot = true
        · have hnone : indentation.alignment = none := by
            have hroot' := hroot
            simp only [Indentation.isRoot, Bool.and_eq_true] at hroot'
            simpa using hroot'.2
          simp [hroot, visible_addIndentation, visible_append, visible_asStr, hnone,
            Event.bytes]
        · simp [hroot, visible_append, visible_asStr, Event.bytes]
      · simp [hliteral, visible_addIndentation, visible_append, visible_asStr,
          visible_handleTrim, Event.bytes]

theorem visible_handleDocument (indentation : Indentation) (mode : Mode) :
    ∀ doc : Document,
      visible (p.handleDocument unicodeWidth settings indentation mode doc).out =
        visible p.out ++ visible ((p.emitsDocument indentation mode doc).flatMap Event.bytes)
  | .string s => by
    simp [Printer.handleDocument, handleBytes, emitsDocument, Event.bytes, visible_append]
  | .space s => by
    simp only [Printer.handleDocument, handleSpace, emitsDocument]
    split
    · simp
    · simp only [visible_append]
      rfl
  | .trim t => by
    simp [Printer.handleDocument, emitsDocument, visible_handleTrim]
  | .line l => visible_handleLine l indentation mode
  | .rangeEnd => by
    simp only [Printer.handleDocument, emitsDocument]
    split <;> simp
  | .lineSuffixBoundary => by
    simp only [Printer.handleDocument, handleLineSuffixBoundary, emitsDocument]
    split <;> simp [push_out, flushLineSuffix_out]
  | .indentIfBreak _ _ => by
    simp only [Printer.handleDocument, handleIndentIfBreak, emitsDocument]
    split <;> simp [pushDocs_out]
  | .ifBreak _ _ _ => by
    simp only [Printer.handleDocument, handleIfBreak, emitsDocument]
    split <;> simp [push_out]
  | .rangeStart | .array _ | .indent _ | .align _ _ | .group _ _ _ _ | .conditional _ _ _ _ _ _
  | .lineSuffix _ | .breakParent | .doNotTrim => by
    simp [Printer.handleDocument, emitsDocument]

theorem visible_step (hstep : p.step unicodeWidth settings = some q) :
    visible q.out = visible p.out ++ visible (p.emits.flatMap Event.bytes) := by
  cases hcommands : p.commands with
  | nil => simp [step_nil hcommands] at hstep
  | cons c rest =>
    rw [step_cons hcommands, Option.some.injEq] at hstep
    rw [← hstep, flushAtEnd_out]
    obtain ⟨indentation, mode, document⟩ := c
    cases document with
    | array docs =>
      rw [emits_of_array hcommands]
      simp [handleCommand]
    | document doc =>
      rw [emits_of_document hcommands, ← emitsDocument_propagateBreaks]
      exact visible_handleDocument indentation mode doc.propagateBreaks.2

/-! ## Runs -/

theorem Outcome.queueOk {mode : Mode} {layout : Layout} (h : Outcome p mode layout q)
    (hp : QueueOk p) : QueueOk q := by
  intro c hc
  cases h with
  | pushed _ _ hsuffix _ _ => exact hp c (hsuffix ▸ hc)
  | repushed _ _ hsuffix _ _ _ _ _ => exact hp c (hsuffix ▸ hc)
  | queued last _ hsuffix hqueued _ _ =>
    rw [hsuffix, List.mem_append, List.mem_singleton] at hc
    rcases hc with hc | rfl
    · exact hp c hc
    · exact hqueued
  | flushed _ _ hsuffix _ _ => simp [hsuffix] at hc

/-- A state of a run: nothing waits when no command is left. -/
structure RunOk (p : Printer) : Prop where
  queue : QueueOk p
  nothing_waits : p.commands = [] → p.lineSuffix = []

theorem QueueOk.flushAtEnd (h : QueueOk p) : RunOk p.flushAtEnd := by
  unfold Printer.flushAtEnd
  split
  case isTrue => exact ⟨by simp [QueueOk, flushLineSuffix], fun _ => rfl⟩
  case isFalse hsome => exact ⟨h, fun hnone => absurd (by simp [hnone]) hsome⟩

theorem printsFirst_of_top {events : List Event} (hp : QueueOk p) (depth : ℕ) {c : Command}
    {rest : List Command} (hcommands : p.commands = c :: rest)
    (h : Accounts
      (({ p with commands := rest } : Printer).handleCommand unicodeWidth settings c) events) :
    PrintsFirst { p with commands := rest } depth c.alignment c.layouts p.emits events := by
  obtain ⟨indentation, mode, document⟩ := c
  have hrest : QueueOk { p with commands := rest } := hp
  cases document with
  | array docs =>
    rw [emits_of_array hcommands]
    refine printsFirst_of_docs h rfl rfl fun waiting middle before hdocs => ?_
    rwa [Document.layouts_propagateSliceBreaks] at hdocs
  | document doc =>
    rw [emits_of_document hcommands, ← emitsDocument_propagateBreaks]
    have hfirst := printsFirst_handleDocument hrest depth doc.propagateBreaks.2 h
    rw [Document.layout_propagateBreaks] at hfirst
    exact hfirst

/-- The commands before a turn print what the turn prints and then what is left. -/
theorem Accounts.of_step {events : List Event} (hp : RunOk p)
    (hstep : p.step unicodeWidth settings = some q) (h : Accounts q events) :
    Accounts p (p.emits ++ events) := by
  cases hcommands : p.commands with
  | nil => simp [step_nil hcommands] at hstep
  | cons c rest =>
    rw [step_cons hcommands, Option.some.injEq] at hstep
    have hrest : QueueOk { p with commands := rest } := hp.queue
    obtain ⟨layout, _, _, hturn⟩ := outcome_handleCommand c
    rw [← hstep] at h
    have hnext := h.of_flushAtEnd (hturn.queueOk hrest)
    intro commands queue htagged hwaiting
    rw [hcommands] at htagged
    obtain ⟨⟨depth, top⟩, below, rfl, rfl, hbelow⟩ := List.map_eq_cons_iff.mp htagged
    exact printsFirst_of_top hp.queue depth hcommands hnext below queue hbelow hwaiting

theorem RunOk.step (hp : RunOk p) (hstep : p.step unicodeWidth settings = some q) : RunOk q := by
  cases hcommands : p.commands with
  | nil => simp [step_nil hcommands] at hstep
  | cons c rest =>
    rw [step_cons hcommands, Option.some.injEq] at hstep
    have hrest : QueueOk { p with commands := rest } := hp.queue
    obtain ⟨layout, _, _, hturn⟩ := outcome_handleCommand c
    rw [← hstep]
    exact (hturn.queueOk hrest).flushAtEnd

theorem wellFounded_smaller : WellFounded Smaller := by
  let rank (p : Printer) : ℕ × ℕ × ℕ :=
    (p.leftDeferrals, if p.lineSuffix = [] then 0 else 1, p.leftWeight)
  have hlex : WellFounded (Prod.Lex (· < ·) (Prod.Lex (· < ·) (· < ·)) : ℕ × ℕ × ℕ → _ → Prop) :=
    (Prod.lex Nat.lt_wfRel (Prod.lex Nat.lt_wfRel Nat.lt_wfRel)).wf
  refine Subrelation.wf ?_ (InvImage.wf rank hlex)
  intro q p h
  rcases h with h | ⟨hle, hp, hq⟩ | ⟨hle, hiff, hlt⟩
  · exact .left _ _ h
  · rcases Nat.lt_or_eq_of_le hle with h | h
    · exact .left _ _ h
    · simp only [InvImage, rank, hp, hq, h, if_true, if_false]
      exact .right _ (.left _ _ (by omega))
  · rcases Nat.lt_or_eq_of_le hle with h | h
    · exact .left _ _ h
    · simp only [InvImage, rank, hiff, h]
      exact .right _ (.right _ hlt)

/-- A run ends, and what it prints is accounted for by the commands it starts with. -/
theorem RunOk.printIn (hp : RunOk p) :
    ∃ turns out, p.printIn unicodeWidth settings turns = some out ∧
      Accounts p (p.trace unicodeWidth settings turns) ∧
      visible out = visible p.out ++
        visible ((p.trace unicodeWidth settings turns).flatMap Event.bytes) := by
  induction p using wellFounded_smaller.induction with
  | _ p ih =>
    cases hstep : p.step unicodeWidth settings with
    | none =>
      refine ⟨0, p.out, by simp [Printer.printIn, hstep], ?_, by simp [trace]⟩
      have hnone : p.commands = [] := by
        cases hcommands : p.commands with
        | nil => rfl
        | cons c rest => simp [step_cons hcommands] at hstep
      intro commands queue hc hq
      rw [hnone] at hc
      rw [hp.nothing_waits hnone] at hq
      rw [List.map_eq_nil_iff.mp hc, List.map_eq_nil_iff.mp hq]
      exact .done
    | some q =>
      obtain ⟨turns, out, hprint, haccounts, hvisible⟩ := ih q (step_smaller hstep) (hp.step hstep)
      refine ⟨turns + 1, out, by simp [Printer.printIn, hstep, hprint], ?_, ?_⟩
      · rw [trace_of_some hstep]
        exact haccounts.of_step hp hstep
      · rw [trace_of_some hstep, List.flatMap_append, visible_append, hvisible,
          visible_step hstep, List.append_assoc]

/-- The printer terminates, and the visible bytes are those of a linearisation. -/
theorem print_linearises (unicodeWidth : Text → ℕ) (settings : FormatSettings) (doc : Document) :
    ∃ turns out, (new doc).printIn unicodeWidth settings turns = some out ∧
      ∃ events, Prints false 0 [] 0 [doc.layout] 0 events ∧
        visible out = visible (events.flatMap Event.bytes) := by
  have hrun : RunOk (new doc) := ⟨by simp [QueueOk, new], fun _ => rfl⟩
  obtain ⟨turns, out, hprint, haccounts, hvisible⟩ := hrun.printIn
  refine ⟨turns, out, hprint, _, ?_, hvisible⟩
  obtain ⟨middle, before, later, hevents, hdoc, hrest⟩ :=
    haccounts [(0, ⟨.root, .Break, .document doc⟩)] [] rfl rfl
  rw [hevents]
  exact hdoc.append hrest

/-! ## Suffixes with lines of their own -/

/-- Two suffixes wait for one line; the first of them has a line of its own. -/
def twoSuffixes : Document :=
  .array [.lineSuffix [.string [97], .line ⟨true, false, false⟩, .string [98]],
    .lineSuffix [.string [99]], .string [120], .line ⟨true, false, false⟩]

def firstSuffix : Pending := ⟨false, [], [.text [97], .line true false, .text [98]]⟩

def secondSuffix : Pending := ⟨false, [], [.text [99]]⟩

/-- The text of the events, which a prefix of the output is compared with. -/
def reads (events : List Event) : Bytes := visible (events.flatMap Event.bytes)

theorem reads_append (events more : List Event) :
    reads (events ++ more) = reads events ++ reads more := by
  simp [reads, visible_append]

theorem reads_text (s : Bytes) (events : List Event) :
    reads (.text s :: events) = visible s ++ reads events := by
  simp [reads, visible_append, Event.bytes]

theorem pair_cases {e : Pending} {others : Multiset Pending}
    (h : secondSuffix ::ₘ {firstSuffix} = e ::ₘ others) :
    e = secondSuffix ∧ others = {firstSuffix} ∨ e = firstSuffix ∧ others = {secondSuffix} := by
  rcases Multiset.cons_eq_cons.mp h with ⟨rfl, rfl⟩ | ⟨_, rest, hfirst, rfl⟩
  · exact .inl ⟨rfl, rfl⟩
  · obtain ⟨rfl, rfl⟩ : firstSuffix = e ∧ 0 = rest := by
      simpa [← Multiset.cons_zero, Multiset.cons_eq_cons] using hfirst
    exact .inr ⟨rfl, rfl⟩

theorem single_cases {e e' : Pending} {others : Multiset Pending} (h : {e} = e' ::ₘ others) :
    e' = e ∧ others = 0 := by
  obtain ⟨rfl, rfl⟩ : e = e' ∧ 0 = others := by
    simpa [← Multiset.cons_zero, Multiset.cons_eq_cons] using h
  exact ⟨rfl, rfl⟩

theorem starts_second {depth : ℕ} {alignment : Bytes} {waiting' : Multiset Pending}
    {events : List Event}
    (h : Prints true depth alignment 0 secondSuffix.parts waiting' events) :
    ∃ more, events = .text [99] :: more := by
  have htexts : ∃ s ∈ [[99]], ∃ rest, secondSuffix.parts = .text s :: rest :=
    ⟨[99], by simp, [], rfl⟩
  obtain ⟨s, hs, more, rfl⟩ := h.starts (by simp) htexts
  exact ⟨more, by simpa using hs⟩

/-- The first suffix cannot be printed whole while the second one waits. -/
theorem not_reads_first {depth : ℕ} {alignment : Bytes} {waiting' : Multiset Pending}
    {events : List Event}
    (h : Prints true depth alignment {secondSuffix} firstSuffix.parts waiting' events) :
    ¬ reads events <+: [97, 98, 99] := by
  intro hprefix
  rcases h.text_cases with ⟨more, rfl, hline⟩ | ⟨e, others, middle, before, more, hone, rfl, hpart, _⟩
  · rw [reads_text] at hprefix
    rcases hline.hardline_cases with ⟨hnone, _⟩ | ⟨e, others, middle, before, last, hone, rfl, hpart⟩
    · simp at hnone
    · obtain ⟨rfl, rfl⟩ := single_cases hone
      obtain ⟨rest, rfl⟩ := starts_second hpart
      rw [List.cons_append, reads_text] at hprefix
      simp [visible, isLineTerminatorOrSpace, isLineTerminator, isSpace] at hprefix
  · obtain ⟨rfl, rfl⟩ := single_cases hone
    obtain ⟨rest, rfl⟩ := starts_second hpart
    rw [List.cons_append, reads_text] at hprefix
    simp [visible, isLineTerminatorOrSpace, isLineTerminator, isSpace] at hprefix

/-- Nor can it be printed inside the second one, whose text is then left for later. -/
theorem not_reads_second {alignment : Bytes} {waiting' : Multiset Pending} {events : List Event}
    (h : Prints true 1 alignment {firstSuffix} secondSuffix.parts waiting' events) :
    ¬ reads events <+: [97, 98, 99] := by
  intro hprefix
  rcases h.text_cases with ⟨more, rfl, _⟩ | ⟨e, others, middle, before, more, hone, rfl, hpart, _⟩
  · rw [reads_text] at hprefix
    simp [visible, isLineTerminatorOrSpace, isLineTerminator, isSpace] at hprefix
  · obtain ⟨rfl, rfl⟩ := single_cases hone
    rcases hpart.text_cases with ⟨rest, rfl, hline⟩ | ⟨e, others, _, _, _, hnone, _⟩
    · rcases hline.hardline_cases with ⟨_, hdepth⟩ | ⟨e, others, _, _, _, hnone, _⟩
      · omega
      · simp at hnone
    · simp at hnone

/-- A strict linearisation cannot go on with both suffixes and the line. -/
theorem not_reads_line {alignment : Bytes} {waiting' : Multiset Pending} {events : List Event}
    (h : Prints true 0 alignment (secondSuffix ::ₘ {firstSuffix}) [.line true false] waiting'
      events) : ¬ reads events <+: [97, 98, 99] := by
  intro hprefix
  rcases h.hardline_cases with ⟨hnone, _⟩ | ⟨e, others, middle, before, more, hboth, rfl, hpart⟩
  · simp at hnone
  · rw [reads_append] at hprefix
    have hbefore := (List.prefix_append _ _).trans hprefix
    rcases pair_cases hboth with ⟨rfl, rfl⟩ | ⟨rfl, rfl⟩
    · exact not_reads_second hpart hbefore
    · exact not_reads_first hpart hbefore

/-- The second suffix is printed behind a newline that a strict linearisation prints before. -/
theorem twoSuffixes_not_strict :
    (new twoSuffixes).printIn List.length ⟨120, 4, false, .lf⟩ 20 =
        some [120, 97, 10, 98, 99, 10] ∧
      ¬ ∃ events, Prints true 0 [] 0 [twoSuffixes.layout] 0 events ∧
        visible [120, 97, 10, 98, 99, 10] = visible (events.flatMap Event.bytes) := by
  refine ⟨by decide, ?_⟩
  rintro ⟨events, h, hvisible⟩
  have hreads : reads events = [120, 97, 98, 99] := by
    rw [reads, ← hvisible]
    decide
  rcases h.sequence_cases with ⟨middle, before, more, rfl, hparts⟩ | ⟨e, others, hnone⟩
  case inr => simp at hnone
  have hprefix : reads before <+: [120, 97, 98, 99] := by
    rw [← hreads, reads_append]
    exact List.prefix_append _ _
  have hfirst (e : Pending) (he : e ∈ secondSuffix ::ₘ {firstSuffix}) :
      ∃ s ∈ [[97], [99]], ∃ rest, e.parts = Layout.text s :: rest := by
    rcases Multiset.mem_cons.mp he with rfl | he
    · exact ⟨[99], by simp, [], rfl⟩
    · rw [Multiset.mem_singleton.mp he]
      exact ⟨[97], by simp, [.line true false, .text [98]], rfl⟩
  -- whatever waits starts with another text than the one that is printed first
  have hearly {depth : ℕ} {alignment : Bytes} {e : Pending} {others middle : Multiset Pending}
      {early rest : List Event} (hevents : before = early ++ rest)
      (hall : e ::ₘ others ⊆ secondSuffix ::ₘ {firstSuffix})
      (hpart : Prints true depth alignment others e.parts middle early) : False := by
    obtain ⟨s, hs, late, rfl⟩ :=
      hpart.starts (fun e' he' => hfirst e' (hall (Multiset.mem_cons_of_mem he')))
        (hfirst e (hall (Multiset.mem_cons_self _ _)))
    rw [hevents, List.cons_append, reads_text] at hprefix
    have hs' : s = [97] ∨ s = [99] := by simpa using hs
    rcases hs' with rfl | rfl
    all_goals simp [visible, isLineTerminatorOrSpace, isLineTerminator, isSpace] at hprefix
  rcases hparts.deferred_cases with hparts | ⟨e, others, _, _, _, hnone, _⟩
  case inr => simp at hnone
  rcases hparts.deferred_cases with hparts | ⟨e, others, _, _, _, hone, hevents, hpart⟩
  case inr =>
    refine hearly hevents ?_ hpart
    rw [← hone]
    exact Multiset.subset_cons _ _
  rcases hparts.text_cases with ⟨more', rfl, hline⟩ | ⟨e, others, _, _, _, hboth, hevents, hpart, _⟩
  case inr =>
    refine hearly hevents ?_ hpart
    rw [← hboth]
    exact Multiset.Subset.refl _
  rw [reads_text] at hprefix
  have hrest : reads more' <+: [97, 98, 99] := by
    simpa [visible, isLineTerminatorOrSpace, isLineTerminator, isSpace] using hprefix
  exact not_reads_line hline hrest

end Printer

end Mago.Printing
