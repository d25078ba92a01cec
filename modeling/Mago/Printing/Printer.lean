import Mago.Library.OrderedMap
import Mago.Printing.Document

/-!
# The printer

A loop over a stack of commands, each a document with an indentation and a mode, beside the
queue of line suffixes. The last command of the source's vector is the head of the list.
-/
namespace Mago.Printing
open Library

structure Indentation where
  depth : ℕ
  alignment : Option Bytes
  deriving DecidableEq, Repr

namespace Indentation

def root : Indentation := ⟨0, none⟩

def aligned (value : Bytes) : Indentation := ⟨0, some value⟩

def indented (i : Indentation) : Indentation := { i with depth := i.depth + 1 }

def isRoot (i : Indentation) : Bool := i.depth == 0 && i.alignment.isNone

end Indentation

inductive Mode
  | Break
  | flat
  deriving DecidableEq, Repr

inductive CommandDocument
  | document (doc : Document)
  | array (docs : List Document)

structure Command where
  indentation : Indentation
  mode : Mode
  document : CommandDocument

structure Printer where
  out : Bytes
  position : ℕ
  commands : List Command
  lineSuffix : List Command
  groupModeMap : OrderedMap GroupIdentifier Mode
  canTrim : Bool
  rangeStart : Option ℕ
  rangeEnd : Option ℕ
  shouldRemeasure : Bool

/-- The commands of documents that are laid out alike, the first on top. -/
def docCommands (indentation : Indentation) (mode : Mode) (docs : List Document) :
    List Command := docs.map fun doc => ⟨indentation, mode, .document doc⟩

/-- What a look ahead knows: the width that is left and whether a line suffix was seen. -/
structure FitsState where
  remainingWidth : ℤ
  hasLineSuffix : Bool
  deriving DecidableEq, Repr

/-- An error is the final answer of a look ahead. -/
def FitsState.check (st : FitsState) : Except Bool FitsState :=
  if st.remainingWidth < 0 then .error false else .ok st

def FitsState.spend (st : FitsState) (width : ℕ) : FitsState :=
  { st with remainingWidth := st.remainingWidth - width }

namespace Printer

variable (unicodeWidth : Text → ℕ) (settings : FormatSettings)

def new (doc : Document) : Printer where
  out := []
  position := 0
  commands := [⟨.root, .Break, .document doc⟩]
  lineSuffix := []
  groupModeMap := .empty
  canTrim := true
  rangeStart := none
  rangeEnd := none
  shouldRemeasure := false

def remainingWidth (p : Printer) : ℤ := (settings.printWidth : ℤ) - p.position

def push (p : Printer) (commands : List Command) : Printer :=
  { p with commands := commands ++ p.commands }

def pushDocs (p : Printer) (indentation : Indentation) (mode : Mode) (docs : List Document) :
    Printer := p.push (docCommands indentation mode docs)

/-! ## Fitting -/

mutual

/-- A document in a look ahead; compound documents are pushed on a stack in the source. -/
def fitsDocument (p : Printer) (mode : Mode) : Document → FitsState → Except Bool FitsState
  | .string s, st => (st.spend (stringWidth unicodeWidth s)).check
  | .space s, st =>
    if !s.soft || (p.out.getLast?.all fun c => !isSpace c) then (st.spend 1).check else st.check
  | .indentIfBreak _ contents, st => do
    let st ← st.check
    fitsDocuments p mode contents st
  | .indent contents, st => do
    let st ← st.check
    fitsDocuments p mode contents st
  | .align _ contents, st => do
    let st ← st.check
    fitsDocuments p mode contents st
  | .array contents, st => do
    let st ← st.check
    fitsDocuments p mode contents st
  | .group contents breakMode _ _, st =>
    if breakMode = .preserve ∧ mode = .flat then .error false
    else do
      let st ← st.check
      fitsDocuments p (if breakMode = .force then .Break else mode) contents st
  | .conditional contents _ mostExpanded breakMode _ _, st =>
    if breakMode = .preserve ∧ mode = .flat then .error false
    else do
      let st ← st.check
      if breakMode = .force ∨ mode = .Break then fitsDocument p .Break mostExpanded st
      else fitsDocuments p mode contents st
  | .ifBreak breakContents flatContent groupId, st => do
    let groupMode :=
      match groupId with
      | none => mode
      | some id => (p.groupModeMap.get? id).getD .flat
    let st ← st.check
    if groupMode = .Break then fitsDocument p mode breakContents st
    else fitsDocument p mode flatContent st
  | .line l, st =>
    if mode = .Break ∨ l.hard = true then .error true
    else if l.soft then st.check
    else (st.spend 1).check
  | .lineSuffix _, st => { st with hasLineSuffix := true }.check
  | .lineSuffixBoundary, st =>
    if st.hasLineSuffix || !p.lineSuffix.isEmpty then .error false else st.check
  | .breakParent, st => st.check
  | .trim _, st => st.check
  | .doNotTrim, st => st.check
  | .rangeStart, st => st.check
  | .rangeEnd, st => st.check

def fitsDocuments (p : Printer) (mode : Mode) : List Document → FitsState → Except Bool FitsState
  | [], st => .ok st
  | doc :: docs, st => do
    let st ← fitsDocument p mode doc st
    fitsDocuments p mode docs st

end

def fitsCommand (p : Printer) (c : Command) (st : FitsState) : Except Bool FitsState :=
  match c.document with
  | .document doc => p.fitsDocument unicodeWidth c.mode doc st
  | .array docs => do
    let st ← st.check
    p.fitsDocuments unicodeWidth c.mode docs st

/-- The pending commands are looked at up to a line suffix. -/
def fitsPending (p : Printer) : List Command → FitsState → Bool
  | [], _ => true
  | c :: commands, st =>
    if st.hasLineSuffix then true
    else
      match p.fitsCommand unicodeWidth c st with
      | .error answer => answer
      | .ok st => p.fitsPending commands st

def fits (p : Printer) (next : Command) (width : ℤ) : Bool :=
  match p.fitsCommand unicodeWidth next ⟨width, false⟩ with
  | .error answer => answer
  | .ok st => p.fitsPending unicodeWidth p.commands st

/-! ## Handling a command -/

def handleBytes (p : Printer) (s : Bytes) : Printer :=
  { p with out := p.out ++ s, position := p.position + stringWidth unicodeWidth s }

def handleSpace (p : Printer) (s : Space) : Printer :=
  if s.soft && p.out.getLast?.any isLineTerminatorOrSpace then p
  else { p with out := p.out ++ [32], position := p.position + 1 }

def shouldPop : Trim → UInt8 → Bool
  | .whitespace => isSpace
  | .newlines => isLineTerminatorOrSpace

def handleTrim (p : Printer) (t : Trim) : Printer :=
  if !p.canTrim then { p with canTrim := true }
  else
    let out := (p.out.reverse.dropWhile (shouldPop t)).reverse
    { p with
      out := out
      rangeStart := p.rangeStart.map fun offset => min offset out.length
      rangeEnd := p.rangeEnd.map fun offset => min offset out.length }

/-- The alignment is printed behind the indentation. -/
def addIndentation (p : Printer) (indentation : Indentation) : Printer :=
  let indentationWidth := indentation.depth * settings.tabWidth
  let indentationByte := if settings.useTabs then 9 else 32
  let indentationLength := if settings.useTabs then indentation.depth else indentationWidth
  let alignment := indentation.alignment.getD []
  { p with
    out := p.out ++ List.replicate indentationLength indentationByte ++ alignment
    position := indentationWidth +
      (indentation.alignment.map (stringWidth unicodeWidth)).getD 0 }

def setGroupModeFromLastCmd (p : Printer) (id : Option GroupIdentifier) : Printer :=
  match id, p.commands.head? with
  | some id, some c => { p with groupModeMap := p.groupModeMap.insert id c.mode }
  | _, _ => p

/-- The queued suffixes go on top, the first one first. -/
def flushLineSuffix (p : Printer) : Printer :=
  { p with commands := p.lineSuffix ++ p.commands, lineSuffix := [] }

/-- A group that is laid out flat is pushed again in flat mode. -/
def handleGroup (p : Printer) (indentation : Indentation) (mode : Mode)
    (contents : List Document) (breakMode : BreakMode) (id : Option GroupIdentifier)
    (propagated : Bool) : Printer :=
  if mode = .flat ∧ p.shouldRemeasure = false then
    (p.pushDocs indentation (if breakMode ≠ .auto then .Break else mode) contents)
      |>.setGroupModeFromLastCmd id
  else
    let cmd : Command := ⟨indentation, .flat, .document (.group contents breakMode id propagated)⟩
    if breakMode = .auto ∧ p.fits unicodeWidth cmd (p.remainingWidth settings) = true then
      ({ p with shouldRemeasure := false }.push [cmd]).setGroupModeFromLastCmd id
    else
      ({ p with shouldRemeasure := false }.push [⟨indentation, .Break, .array contents⟩])
        |>.setGroupModeFromLastCmd id

/-- The first expanded state that fits, in the order given. -/
def firstFitting (p : Printer) (indentation : Indentation) : List Document → Option Command
  | [] => none
  | state :: states =>
    let cmd : Command := ⟨indentation, .flat, .document state⟩
    if p.fits unicodeWidth cmd (p.remainingWidth settings) then some cmd
    else p.firstFitting indentation states

/-- A group with expanded states. The mode of its identifier is not recorded when one of the
states is chosen early. -/
def handleConditional (p : Printer) (indentation : Indentation) (mode : Mode)
    (contents expandedStates : List Document) (mostExpanded : Document) (breakMode : BreakMode)
    (id : Option GroupIdentifier) (propagated : Bool) : Printer :=
  if mode = .flat ∧ p.shouldRemeasure = false then
    (p.pushDocs indentation (if breakMode ≠ .auto then .Break else mode) contents)
      |>.setGroupModeFromLastCmd id
  else
    let cmd : Command := ⟨indentation, .flat,
      .document (.conditional contents expandedStates mostExpanded breakMode id propagated)⟩
    let expanded : Command := ⟨indentation, .Break, .document mostExpanded⟩
    let remeasured := { p with shouldRemeasure := false }
    if breakMode ≠ .auto then remeasured.push [expanded]
    else if p.fits unicodeWidth cmd (p.remainingWidth settings) then
      (remeasured.push [cmd]).setGroupModeFromLastCmd id
    else
      match p.firstFitting unicodeWidth settings indentation expandedStates with
      | some fitting => remeasured.push [fitting]
      | none => (remeasured.push [expanded]).setGroupModeFromLastCmd id

def handleIndentIfBreak (p : Printer) (indentation : Indentation) (mode : Mode)
    (groupId : GroupIdentifier) (contents : List Document) : Printer :=
  match (p.groupModeMap.get? groupId).getD mode with
  | .flat => p.pushDocs indentation mode contents
  | .Break => p.pushDocs indentation.indented mode contents

/-- A line that waits for queued suffixes is pushed again below them. -/
def handleLine (p : Printer) (l : Line) (indentation : Indentation) (mode : Mode) : Printer :=
  if mode = .flat ∧ l.hard = false then
    if l.soft then p else { p with out := p.out ++ [32], position := p.position + 1 }
  else
    let p := { p with shouldRemeasure := p.shouldRemeasure || decide (mode = Mode.flat) }
    if !p.lineSuffix.isEmpty then
      (p.push [⟨indentation, mode, .document (.line l)⟩]).flushLineSuffix
    else if l.literal then
      let p := { p with out := p.out ++ settings.endOfLine.asStr }
      if indentation.isRoot then p.addIndentation unicodeWidth settings indentation
      else { p with position := 0 }
    else
      let p := p.handleTrim .whitespace
      { p with out := p.out ++ settings.endOfLine.asStr }
        |>.addIndentation unicodeWidth settings indentation

/-- The boundary leaves a space below the suffixes. -/
def handleLineSuffixBoundary (p : Printer) (indentation : Indentation) (mode : Mode) : Printer :=
  if !p.lineSuffix.isEmpty then
    { (p.push [⟨indentation, mode, .document (.space ⟨false⟩)⟩]).flushLineSuffix with
      shouldRemeasure := true }
  else p

def handleIfBreak (p : Printer) (breakContents flatContent : Document)
    (groupId : Option GroupIdentifier) (indentation : Indentation) (mode : Mode) : Printer :=
  let groupMode :=
    match groupId with
    | none => mode
    | some id => (p.groupModeMap.get? id).getD mode
  match groupMode with
  | .flat => p.push [⟨indentation, .flat, .document flatContent.cloneInArena⟩]
  | .Break => p.push [⟨indentation, .Break, .document breakContents.cloneInArena⟩]

/-- A document behind the propagation of its breaks. -/
def handleDocument (p : Printer) (indentation : Indentation) (mode : Mode) :
    Document → Printer
  | .string s => p.handleBytes unicodeWidth s
  | .rangeStart => { p with rangeStart := some p.out.length }
  | .rangeEnd =>
    if p.lineSuffix.isEmpty then { p with rangeEnd := some p.out.length }
    else { p with lineSuffix := p.lineSuffix ++ [⟨indentation, mode, .document .rangeEnd⟩] }
  | .space s => p.handleSpace s
  | .array docs => p.pushDocs indentation mode docs
  | .indent docs => p.pushDocs indentation.indented mode docs
  | .align alignment contents => p.pushDocs (.aligned alignment) mode contents
  | .group contents breakMode id propagated =>
    p.handleGroup unicodeWidth settings indentation mode contents breakMode id propagated
  | .conditional contents states mostExpanded breakMode id propagated =>
    p.handleConditional unicodeWidth settings indentation mode contents states mostExpanded
      breakMode id propagated
  | .indentIfBreak groupId contents => p.handleIndentIfBreak indentation mode groupId contents
  | .line l => p.handleLine unicodeWidth settings l indentation mode
  | .lineSuffix docs =>
    { p with lineSuffix := p.lineSuffix ++ [⟨indentation, mode, .array docs⟩] }
  | .lineSuffixBoundary => p.handleLineSuffixBoundary indentation mode
  | .ifBreak breakContents flatContent groupId =>
    p.handleIfBreak breakContents flatContent groupId indentation mode
  | .breakParent => p
  | .trim t => p.handleTrim t
  | .doNotTrim => { p with canTrim := false }

def handleCommand (p : Printer) (c : Command) : Printer :=
  match c.document with
  | .array docs => p.pushDocs c.indentation c.mode (Document.propagateSliceBreaks docs).2
  | .document doc =>
    p.handleDocument unicodeWidth settings c.indentation c.mode doc.propagateBreaks.2

/-- Suffixes that are left when the commands run out are printed last. -/
def flushAtEnd (p : Printer) : Printer := if p.commands.isEmpty then p.flushLineSuffix else p

/-- One turn of the loop; `none` when the commands have run out. -/
def step (p : Printer) : Option Printer :=
  match p.commands with
  | [] => none
  | c :: commands =>
    some ({ p with commands := commands }.handleCommand unicodeWidth settings c).flushAtEnd

/-- The bytes printed in a number of turns, for documents that are done by then. -/
def printIn (turns : ℕ) (p : Printer) : Option Bytes :=
  match turns, p.step unicodeWidth settings with
  | _, none => some p.out
  | 0, some _ => none
  | turns + 1, some p => p.printIn turns

end Printer

end Mago.Printing
