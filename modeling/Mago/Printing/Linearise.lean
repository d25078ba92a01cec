import Mago.Printing.Layout

/-!
# The printer prints a linearisation

A turn consumes the layout of its top command, so the layouts of the commands that are left
and the suffixes that wait account for all that is printed later. The commands carry the depth
at which they are printed: a queued suffix that goes on top is one deeper than the document.
-/
namespace Mago.Printing
open Library

namespace Document

mutual

def layout : Document → Layout
  | string s => .text s
  | space _ => .blank
  | array docs => .sequence (layouts docs)
  | indent docs => .sequence (layouts docs)
  | indentIfBreak _ contents => .sequence (layouts contents)
  | group contents _ _ _ => .sequence (layouts contents)
  | conditional contents expandedStates mostExpanded _ _ _ =>
    .choice (.sequence (layouts contents) :: layout mostExpanded :: layouts expandedStates)
  | ifBreak breakContents flatContent _ => .choice [layout breakContents, layout flatContent]
  | align alignment contents => .aligned alignment (layouts contents)
  | line l => .line l.hard l.literal
  | lineSuffix docs => .deferred (layouts docs)
  | lineSuffixBoundary => .boundary
  | rangeStart => .sequence []
  | rangeEnd => .sequence []
  | breakParent => .sequence []
  | trim _ => .sequence []
  | doNotTrim => .sequence []

def layouts : List Document → List Layout
  | [] => []
  | doc :: docs => layout doc :: layouts docs

end

mutual

@[simp]
theorem layout_propagateBreaks : ∀ doc : Document, doc.propagateBreaks.2.layout = doc.layout
  | group contents mode id propagated => by
    have hcontents := layouts_propagateSliceBreaks contents
    unfold propagateBreaks
    split
    · rfl
    · split
      · rfl
      · simp [layout, hcontents]
  | conditional contents states mostExpanded mode id propagated => by
    have hcontents := layouts_propagateSliceBreaks contents
    have hstates := layouts_propagateSliceBreaks states
    have hmost := layout_propagateBreaks mostExpanded
    unfold propagateBreaks
    split
    · rfl
    · split
      · rfl
      · simp only [layout, hcontents, hmost]
        split <;> simp [hstates]
  | ifBreak breakContents flatContent groupId => by
    have hbreak := layout_propagateBreaks breakContents
    simp [propagateBreaks, layout, hbreak]
  | array docs | indent docs | align _ docs | indentIfBreak _ docs => by
    have hdocs := layouts_propagateSliceBreaks docs
    simp [propagateBreaks, layout, hdocs]
  | string _ | rangeStart | rangeEnd | line _ | lineSuffix _ | lineSuffixBoundary | breakParent
  | trim _ | doNotTrim | space _ => by
    simp [propagateBreaks]

@[simp]
theorem layouts_propagateSliceBreaks :
    ∀ docs : List Document, layouts (propagateSliceBreaks docs).2 = layouts docs
  | [] => by simp [propagateSliceBreaks]
  | doc :: docs => by
    have hdoc := layout_propagateBreaks doc
    have hdocs := layouts_propagateSliceBreaks docs
    simp only [propagateSliceBreaks]
    split <;> simp [layouts, hdoc, hdocs]

end

mutual

@[simp]
theorem layout_cloneInArena : ∀ doc : Document, doc.cloneInArena.layout = doc.layout
  | group contents _ _ _ | array contents | indent contents | lineSuffix contents
  | indentIfBreak _ contents | align _ contents => by
    simp [cloneInArena, layout, layouts_cloneVecInArena contents]
  | conditional contents states mostExpanded _ _ _ => by
    simp [cloneInArena, layout, layouts_cloneVecInArena contents, layouts_cloneVecInArena states,
      layout_cloneInArena mostExpanded]
  | ifBreak breakContents flatContent _ => by
    simp [cloneInArena, layout, layout_cloneInArena breakContents,
      layout_cloneInArena flatContent]
  | string _ | rangeStart | rangeEnd | line _ | lineSuffixBoundary | breakParent | trim _
  | doNotTrim | space _ => by
    simp [cloneInArena]

@[simp]
theorem layouts_cloneVecInArena :
    ∀ docs : List Document, layouts (cloneVecInArena docs) = layouts docs
  | [] => rfl
  | doc :: docs => by
    simp [cloneVecInArena, layouts, layout_cloneInArena doc, layouts_cloneVecInArena docs]

end

end Document

namespace Command

def layouts (c : Command) : List Layout :=
  match c.document with
  | .document doc => [doc.layout]
  | .array docs => Document.layouts docs

def alignment (c : Command) : Bytes := c.indentation.alignment.getD []

/-- The queue holds the contents of suffixes and range ends that came behind them. -/
def isQueued (c : Command) : Bool :=
  match c.document with
  | .array _ => true
  | .document .rangeEnd => true
  | .document _ => false

/-- A queued command with the depth at which it was queued, as a part that waits. -/
def pending (depth : ℕ) (c : Command) : Option Pending :=
  match c.document with
  | .array docs => some ⟨decide (0 < depth), c.alignment, Document.layouts docs⟩
  | .document _ => none

end Command

/-- The parts that wait in a queue, each command with its depth. -/
def waitingIn : List (ℕ × Command) → Multiset Pending
  | [] => 0
  | (depth, c) :: queue =>
    match c.pending depth with
    | some e => e ::ₘ waitingIn queue
    | none => waitingIn queue

/-- The commands print the events, each at its depth, and leave nothing waiting. -/
def Completes : List (ℕ × Command) → Multiset Pending → List Event → Prop
  | [], waiting, events => Prints false 0 [] waiting [] 0 events
  | (depth, c) :: commands, waiting, events =>
    ∃ middle before later, events = before ++ later ∧
      Prints false depth c.alignment waiting c.layouts middle before ∧
      Completes commands middle later

/-- The queued commands on top, one deeper than the document. -/
def onTop (queue : List (ℕ × Command)) : List (ℕ × Command) := queue.map fun d => (1, d.2)

theorem waitingIn_append (queue queue' : List (ℕ × Command)) :
    waitingIn (queue ++ queue') = waitingIn queue + waitingIn queue' := by
  induction queue with
  | nil => simp [waitingIn]
  | cons d queue ih =>
    simp only [List.cons_append, waitingIn, ih]
    cases d.2.pending d.1 with
    | none => rfl
    | some e => exact (Multiset.cons_add e _ _).symm

/-- Documents that are pushed alike are one list of layouts. -/
theorem Completes.of_docCommands {indentation : Indentation} {mode : Mode} {depth : ℕ}
    {commands : List (ℕ × Command)} (docs : List Document) :
    ∀ {waiting : Multiset Pending} {events : List Event},
      Completes ((docCommands indentation mode docs).map (Prod.mk depth) ++ commands) waiting
        events →
      ∃ middle before later, events = before ++ later ∧
        Prints false depth (indentation.alignment.getD []) waiting (Document.layouts docs) middle
          before ∧
        Completes commands middle later := by
  induction docs with
  | nil =>
    intro waiting events h
    exact ⟨waiting, [], events, rfl, .done, h⟩
  | cons doc docs ih =>
    intro waiting events h
    obtain ⟨middle, before, later, rfl, hdoc, hrest⟩ := h
    obtain ⟨middle', before', later', rfl, hdocs, hcommands⟩ := ih hrest
    refine ⟨middle', before ++ before', later', (List.append_assoc _ _ _).symm, ?_, hcommands⟩
    exact hdoc.append hdocs

/-- The queue is printed before the commands below it; until then its parts wait. -/
theorem Completes.of_onTop {commands : List (ℕ × Command)} (queue : List (ℕ × Command)) :
    ∀ {waiting : Multiset Pending} {events : List Event},
      (∀ d ∈ queue, d.2.isQueued = true) → (∀ e ∈ waiting, e.nested = true) →
      Completes (onTop queue ++ commands) waiting events →
      ∃ middle before later, events = before ++ later ∧ (∀ e ∈ middle, e.nested = true) ∧
        Completes commands middle later ∧
        ∀ depth alignment layouts waiting' more,
          Prints false depth alignment middle layouts waiting' more →
          Prints false depth alignment (waitingIn queue + waiting) layouts waiting'
            (before ++ more) := by
  induction queue with
  | nil =>
    intro waiting events _ hnested h
    refine ⟨waiting, [], events, rfl, hnested, h, ?_⟩
    intro depth alignment layouts waiting' more hmore
    simpa [waitingIn] using hmore
  | cons d queue ih =>
    intro waiting events hqueued hnested h
    obtain ⟨depth, indentation, mode, document⟩ := d
    obtain ⟨middle, before, later, rfl, htop, hrest⟩ := h
    obtain ⟨middle', before', later', rfl, hmiddle, hcommands, hdrain⟩ :=
      ih (fun d hd => hqueued d (List.mem_cons_of_mem _ hd)) (htop.nested (by omega) hnested) hrest
    refine ⟨middle', before ++ before', later', (List.append_assoc _ _ _).symm, hmiddle,
      hcommands, ?_⟩
    intro outer alignment layouts waiting' more hmore
    have hbelow := hdrain outer alignment layouts waiting' more hmore
    rw [List.append_assoc]
    cases document with
    | array docs =>
      have hpart := htop.frame (by omega) outer (waitingIn queue)
      rw [Multiset.add_comm middle] at hpart
      have hflush := Prints.flush (e := ⟨decide (0 < depth), indentation.alignment.getD [],
        Document.layouts docs⟩) hpart hbelow
      rw [Multiset.add_comm waiting, ← Multiset.cons_add] at hflush
      exact hflush
    | document doc =>
      have hend : doc = .rangeEnd := by
        have hqueue := hqueued (depth, ⟨indentation, mode, .document doc⟩) List.mem_cons_self
        unfold Command.isQueued at hqueue
        split at hqueue <;> simp_all
      subst hend
      have hnothing := (Prints.of_sequence_nil htop rfl).frame (by omega) 0 (waitingIn queue)
      rw [Multiset.add_comm middle] at hnothing
      rw [waitingIn, Command.pending, Multiset.add_comm]
      exact hnothing.absorb rfl hbelow

/-! ## A turn, backwards -/

namespace Printer

variable {unicodeWidth : Text → ℕ} {settings : FormatSettings} {p q : Printer}
  {events : List Event}

/-- The commands that are left print the events, whatever their depths are. -/
def Accounts (p : Printer) (events : List Event) : Prop :=
  ∀ commands queue : List (ℕ × Command), commands.map Prod.snd = p.commands →
    queue.map Prod.snd = p.lineSuffix → Completes commands (waitingIn queue) events

def QueueOk (p : Printer) : Prop := ∀ c ∈ p.lineSuffix, c.isQueued = true

theorem QueueOk.tagged (hp : QueueOk p) {queue : List (ℕ × Command)}
    (hqueue : queue.map Prod.snd = p.lineSuffix) : ∀ d ∈ queue, d.2.isQueued = true := by
  intro d hd
  exact hp d.2 (hqueue ▸ List.mem_map_of_mem hd)

theorem map_snd_onTop (queue : List (ℕ × Command)) :
    (onTop queue).map Prod.snd = queue.map Prod.snd := by
  simp [onTop]

theorem map_snd_mk (depth : ℕ) (commands : List Command) :
    (commands.map (Prod.mk depth)).map Prod.snd = commands := by
  simp [Function.comp_def]

theorem Accounts.of_flushAtEnd (hp : QueueOk p) (h : Accounts p.flushAtEnd events) :
    Accounts p events := by
  intro commands queue hcommands hqueue
  unfold flushAtEnd at h
  split at h
  case isTrue hempty =>
    have hnil : p.commands = [] := by simpa using hempty
    have hnone : commands = [] := by simpa [hnil] using hcommands
    subst hnone
    have htop := h (onTop queue ++ []) [] (by
      simp [map_snd_onTop, hqueue, flushLineSuffix, hnil]) rfl
    obtain ⟨middle, before, later, rfl, -, hrest, hdrain⟩ :=
      Completes.of_onTop queue (hp.tagged hqueue) (by simp [waitingIn]) htop
    have hall := hdrain 0 [] [] 0 later hrest
    simpa [waitingIn, Completes] using hall
  case isFalse => exact h commands queue hcommands hqueue

/-- What a top command prints, before the rest of the commands. -/
def PrintsFirst (p : Printer) (depth : ℕ) (alignment : Bytes) (layouts : List Layout)
    (emitted events : List Event) : Prop :=
  ∀ commands queue : List (ℕ × Command), commands.map Prod.snd = p.commands →
    queue.map Prod.snd = p.lineSuffix →
    ∃ middle before later, emitted ++ events = before ++ later ∧
      Prints false depth alignment (waitingIn queue) layouts middle before ∧
      Completes commands middle later

/-- A turn that leaves commands and queue alone. -/
theorem printsFirst_of_rest {depth : ℕ} {alignment : Bytes} {layouts : List Layout}
    {emitted : List Event} (h : Accounts q events) (hcommands : q.commands = p.commands)
    (hsuffix : q.lineSuffix = p.lineSuffix)
    (hprints : ∀ waiting, Prints false depth alignment waiting layouts waiting emitted) :
    PrintsFirst p depth alignment layouts emitted events := by
  intro commands queue hc hq
  exact ⟨waitingIn queue, emitted, events, rfl, hprints _,
    h commands queue (hc.trans hcommands.symm) (hq.trans hsuffix.symm)⟩

/-- A turn that pushes documents. -/
theorem printsFirst_of_docs {depth : ℕ} {alignment : Bytes} {layouts : List Layout}
    {indentation : Indentation} {mode : Mode} {docs : List Document} (h : Accounts q events)
    (hcommands : q.commands = docCommands indentation mode docs ++ p.commands)
    (hsuffix : q.lineSuffix = p.lineSuffix)
    (hprints : ∀ waiting middle before,
      Prints false depth (indentation.alignment.getD []) waiting (Document.layouts docs) middle
        before →
      Prints false depth alignment waiting layouts middle before) :
    PrintsFirst p depth alignment layouts [] events := by
  intro commands queue hc hq
  have hpushed := h ((docCommands indentation mode docs).map (Prod.mk depth) ++ commands) queue
    (by rw [List.map_append, map_snd_mk, hc, hcommands]) (hq.trans hsuffix.symm)
  obtain ⟨middle, before, later, rfl, hdocs, hrest⟩ := Completes.of_docCommands docs hpushed
  exact ⟨middle, before, later, rfl, hprints _ _ _ hdocs, hrest⟩

/-- A turn that pushes one command. -/
theorem printsFirst_of_command {depth : ℕ} {alignment : Bytes} {layouts : List Layout}
    {c : Command} (h : Accounts q events) (hcommands : q.commands = c :: p.commands)
    (hsuffix : q.lineSuffix = p.lineSuffix)
    (hprints : ∀ waiting middle before,
      Prints false depth c.alignment waiting c.layouts middle before →
      Prints false depth alignment waiting layouts middle before) :
    PrintsFirst p depth alignment layouts [] events := by
  intro commands queue hc hq
  have hpushed := h ((depth, c) :: commands) queue (by simp [hc, hcommands])
    (hq.trans hsuffix.symm)
  obtain ⟨middle, before, later, rfl, hc, hrest⟩ := hpushed
  exact ⟨middle, before, later, rfl, hprints _ _ _ hc, hrest⟩

/-- A turn that puts the queue on top of a command. -/
theorem printsFirst_of_flush {depth : ℕ} {alignment : Bytes} {layouts : List Layout}
    {c : Command} (hp : QueueOk p) (h : Accounts q events)
    (hcommands : q.commands = p.lineSuffix ++ c :: p.commands) (hsuffix : q.lineSuffix = [])
    (halignment : c.alignment = alignment)
    (hprints : ∀ waiting middle before, (∀ e ∈ waiting, e.nested = true) →
      Prints false depth alignment waiting c.layouts middle before →
      Prints false depth alignment waiting layouts middle before) :
    PrintsFirst p depth alignment layouts [] events := by
  intro commands queue hc hq
  have hpushed := h (onTop queue ++ (depth, c) :: commands) []
    (by simp [map_snd_onTop, hq, hc, hcommands]) (by simp [hsuffix])
  obtain ⟨middle, before, later, rfl, hnested, hrest, hdrain⟩ :=
    Completes.of_onTop queue (hp.tagged hq) (by simp [waitingIn]) hpushed
  obtain ⟨middle', before', later', rfl, hc, hrest'⟩ := hrest
  rw [halignment] at hc
  have hall := hdrain depth alignment layouts middle' before' (hprints _ _ _ hnested hc)
  refine ⟨middle', before ++ before', later', by simp, ?_, hrest'⟩
  simpa [waitingIn] using hall

theorem printsFirst_handleLine (hp : QueueOk p) {l : Line} {indentation : Indentation}
    {mode : Mode} {depth : ℕ}
    (h : Accounts (p.handleLine unicodeWidth settings l indentation mode) events) :
    PrintsFirst p depth (indentation.alignment.getD []) [.line l.hard l.literal]
      (p.emitsDocument indentation mode (.line l)) events := by
  by_cases hflat : mode = .flat ∧ l.hard = false
  · simp only [handleLine, hflat, and_self, if_true] at h
    simp only [emitsDocument, hflat, and_self, if_true]
    have hgap : Gap (if l.soft then [] else [.space]) := by
      unfold Gap
      split <;> simp
    refine printsFirst_of_rest h ?_ ?_ fun waiting => ?_
    · split <;> rfl
    · split <;> rfl
    · simpa using Prints.flat_one hgap
  · simp only [emitsDocument, hflat, if_false]
    cases hqueue : p.lineSuffix with
    | nil =>
      have hrest : (p.handleLine unicodeWidth settings l indentation mode).commands = p.commands ∧
          (p.handleLine unicodeWidth settings l indentation mode).lineSuffix = [] :=
        handleLine_commands hqueue l indentation mode
      refine fun commands queue hc hq => ?_
      have hnone : queue = [] := by simpa [hqueue] using hq
      subst hnone
      refine ⟨0, [.newline (if l.literal then [] else indentation.alignment.getD [])], events,
        by simp, .newline ?_ .done, h commands [] (hc.trans hrest.1.symm) (by simp [hrest.2])⟩
      cases depth with
      | zero => exact .inl ⟨rfl, by omega⟩
      | succ depth => exact .inr ⟨rfl, by omega⟩
    | cons c queue =>
      have hwaits : (!p.lineSuffix.isEmpty) = true := by simp [hqueue]
      simp only [handleLine, hflat, if_false, hwaits, if_true] at h
      simp only [List.isEmpty_cons, Bool.not_false, if_true]
      exact printsFirst_of_flush (c := ⟨indentation, mode, .document (.line l)⟩) hp h
        (by simp [flushLineSuffix, push]) rfl rfl fun waiting middle before _ hprints => hprints

theorem printsFirst_handleLineSuffixBoundary (hp : QueueOk p) {indentation : Indentation}
    {mode : Mode} {depth : ℕ} (h : Accounts (p.handleLineSuffixBoundary indentation mode) events) :
    PrintsFirst p depth (indentation.alignment.getD []) [.boundary] [] events := by
  unfold handleLineSuffixBoundary at h
  split at h
  case isTrue hwaits =>
    refine printsFirst_of_flush (c := ⟨indentation, mode, .document (.space ⟨false⟩)⟩) hp h
      (by simp [flushLineSuffix, push]) rfl rfl ?_
    intro waiting middle before hnested hprints
    exact hprints.boundary_of_blank rfl (.inr hnested)
  case isFalse hempty =>
    have hqueue : p.lineSuffix = [] := by simpa using hempty
    refine fun commands queue hc hq => ?_
    have hnone : queue = [] := by simpa [hqueue] using hq
    subst hnone
    exact ⟨0, [], events, rfl, .boundary (.inl rfl) (.inl rfl) .done,
      h commands [] hc (by simp [hqueue])⟩

theorem printsFirst_handleGroup {indentation : Indentation} {mode : Mode}
    {contents : List Document} {breakMode : BreakMode} {id : Option GroupIdentifier}
    {propagated : Bool} {depth : ℕ}
    (h : Accounts (p.handleGroup unicodeWidth settings indentation mode contents breakMode id
      propagated) events) :
    PrintsFirst p depth (indentation.alignment.getD [])
      [.sequence (Document.layouts contents)] [] events := by
  unfold handleGroup at h
  dsimp only at h
  split at h
  · exact printsFirst_of_docs h (by simp [pushDocs_commands]; rfl) (by simp [pushDocs, push])
      fun waiting middle before hdocs => hdocs.sequence_one
  · split at h
    · exact printsFirst_of_command
        (c := ⟨indentation, .flat, .document (.group contents breakMode id propagated)⟩) h
        (by simp [push_commands]) (by simp [push]) fun waiting middle before hgroup => hgroup
    · exact printsFirst_of_command (c := ⟨indentation, .Break, .array contents⟩) h
        (by simp [push_commands]) (by simp [push])
        fun waiting middle before hdocs => Prints.sequence_one hdocs

theorem firstFitting_mem {indentation : Indentation} {states : List Document} {c : Command}
    (h : p.firstFitting unicodeWidth settings indentation states = some c) :
    ∃ state ∈ states, c = ⟨indentation, .flat, .document state⟩ := by
  induction states with
  | nil => cases h
  | cons state states ih =>
    simp only [firstFitting] at h
    split at h
    · exact ⟨state, List.mem_cons_self, (Option.some.inj h).symm⟩
    · obtain ⟨state', hmem, hc⟩ := ih h
      exact ⟨state', List.mem_cons_of_mem _ hmem, hc⟩

theorem layout_mem_layouts {doc : Document} {docs : List Document} (h : doc ∈ docs) :
    doc.layout ∈ Document.layouts docs := by
  induction docs with
  | nil => cases h
  | cons first docs ih =>
    rcases List.mem_cons.mp h with rfl | h
    · exact List.mem_cons_self
    · exact List.mem_cons_of_mem _ (ih h)

theorem printsFirst_handleConditional {indentation : Indentation} {mode : Mode}
    {contents states : List Document} {mostExpanded : Document} {breakMode : BreakMode}
    {id : Option GroupIdentifier} {propagated : Bool} {depth : ℕ}
    (h : Accounts (p.handleConditional unicodeWidth settings indentation mode contents states
      mostExpanded breakMode id propagated) events) :
    PrintsFirst p depth (indentation.alignment.getD [])
      [(Document.conditional contents states mostExpanded breakMode id propagated).layout] []
      events := by
  have hmost : mostExpanded.layout ∈ .sequence (Document.layouts contents) ::
      mostExpanded.layout :: Document.layouts states := by simp
  unfold handleConditional at h
  dsimp only at h
  split at h
  · exact printsFirst_of_docs h (by simp [pushDocs_commands]; rfl) (by simp [pushDocs, push])
      fun waiting middle before hdocs => Prints.choice_one (by simp) hdocs.sequence_one
  split at h
  · exact printsFirst_of_command (c := ⟨indentation, .Break, .document mostExpanded⟩) h
      (by simp [push_commands]) (by simp [push])
      fun waiting middle before hstate => Prints.choice_one hmost hstate
  split at h
  · exact printsFirst_of_command (c := ⟨indentation, .flat,
        .document (.conditional contents states mostExpanded breakMode id propagated)⟩) h
      (by simp [push_commands]) (by simp [push]) fun waiting middle before hgroup => hgroup
  split at h
  case h_1 fitting hfitting =>
    obtain ⟨state, hmem, rfl⟩ := firstFitting_mem hfitting
    have hoption : state.layout ∈ .sequence (Document.layouts contents) ::
        mostExpanded.layout :: Document.layouts states :=
      List.mem_cons_of_mem _ (List.mem_cons_of_mem _ (layout_mem_layouts hmem))
    exact printsFirst_of_command (c := ⟨indentation, .flat, .document state⟩) h (by simp)
      (by simp [push]) fun waiting middle before hstate => Prints.choice_one hoption hstate
  case h_2 =>
    exact printsFirst_of_command (c := ⟨indentation, .Break, .document mostExpanded⟩) h (by simp)
      (by simp [push]) fun waiting middle before hstate => Prints.choice_one hmost hstate

/-- A queued command waits behind the ones before it. -/
theorem printsFirst_of_queued {depth : ℕ} {alignment : Bytes} {layouts : List Layout} {c : Command}
    (h : Accounts q events) (hcommands : q.commands = p.commands)
    (hsuffix : q.lineSuffix = p.lineSuffix ++ [c])
    (hprints : ∀ waiting,
      Prints false depth alignment waiting layouts (waiting + waitingIn [(depth, c)]) []) :
    PrintsFirst p depth alignment layouts [] events := by
  intro commands queue hc hq
  have hqueued := h commands (queue ++ [(depth, c)]) (hc.trans hcommands.symm)
    (by simp [hq, hsuffix])
  rw [waitingIn_append] at hqueued
  exact ⟨_, [], events, rfl, hprints _, hqueued⟩

theorem printsFirst_handleDocument (hp : QueueOk p) {indentation : Indentation} {mode : Mode}
    (depth : ℕ) :
    ∀ doc : Document,
      Accounts (p.handleDocument unicodeWidth settings indentation mode doc) events →
      PrintsFirst p depth (indentation.alignment.getD []) [doc.layout]
        (p.emitsDocument indentation mode doc) events
  | .string s, h => printsFirst_of_rest h rfl rfl fun _ => .text .done
  | .rangeStart, h => printsFirst_of_rest h rfl rfl fun _ => .sequence_one .done
  | .breakParent, h => printsFirst_of_rest h rfl rfl fun _ => .sequence_one .done
  | .trim t, h =>
    printsFirst_of_rest h (handleTrim_commands t) (handleTrim_lineSuffix t)
      fun _ => .sequence_one .done
  | .doNotTrim, h => printsFirst_of_rest h rfl rfl fun _ => .sequence_one .done
  | .rangeEnd, h => by
    simp only [Printer.handleDocument] at h
    split at h
    · exact printsFirst_of_rest h rfl rfl fun _ => .sequence_one .done
    · refine printsFirst_of_queued h rfl rfl fun waiting => ?_
      simp only [waitingIn, Command.pending, Multiset.add_zero]
      exact .sequence_one .done
  | .lineSuffix docs, h => by
    refine printsFirst_of_queued h rfl rfl fun waiting => ?_
    refine .deferred ?_
    rw [Multiset.add_comm]
    exact .done
  | .space s, h => by
    simp only [Printer.handleDocument, handleSpace] at h
    have hgap : Gap (p.emitsDocument indentation mode (.space s)) := by
      simp only [Gap, emitsDocument]
      split <;> simp
    refine printsFirst_of_rest h ?_ ?_ fun waiting => ?_
    · split <;> rfl
    · split <;> rfl
    · exact .blank_one hgap
  | .array docs, h | .indent docs, h =>
    printsFirst_of_docs h rfl rfl fun _ _ _ hdocs => hdocs.sequence_one
  | .align alignment docs, h =>
    printsFirst_of_docs h rfl rfl fun _ _ _ hdocs => hdocs.aligned_one
  | .indentIfBreak groupId docs, h => by
    simp only [Printer.handleDocument, handleIndentIfBreak] at h
    split at h
    · exact printsFirst_of_docs h rfl rfl fun _ _ _ hdocs => hdocs.sequence_one
    · exact printsFirst_of_docs h rfl rfl fun _ _ _ hdocs => hdocs.sequence_one
  | .group _ _ _ _, h => printsFirst_handleGroup h
  | .conditional _ _ _ _ _ _, h => printsFirst_handleConditional h
  | .line l, h => printsFirst_handleLine hp h
  | .lineSuffixBoundary, h => printsFirst_handleLineSuffixBoundary hp h
  | .ifBreak breakContents flatContent groupId, h => by
    simp only [Printer.handleDocument, handleIfBreak] at h
    split at h
    all_goals
      refine printsFirst_of_command h rfl rfl fun _ _ _ hcontents => ?_
      simp only [Command.layouts, Document.layout_cloneInArena] at hcontents
      exact .choice_one (by simp) hcontents

end Printer

end Mago.Printing
