import Mathlib.Logic.Relation
import Mago.Printing.Printer

/-!
# Traces

What a turn of the printer prints, and the events of a run. Trailing blanks that a newline
trims stay in the trace.
-/
namespace Mago.Printing
open Library

/-- A newline comes with the alignment that is printed behind it. -/
inductive Event
  | text (s : Bytes)
  | space
  | newline (alignment : Bytes)
  deriving DecidableEq, Repr

def Event.width (unicodeWidth : Text → ℕ) : Event → ℕ
  | text s => stringWidth unicodeWidth s
  | space => 1
  | newline _ => 0

/-- The line end and the indentation of a newline are left out. -/
def Event.bytes : Event → Bytes
  | text s => s
  | space => [32]
  | newline alignment => alignment

/-- The width up to the first newline. -/
def lineWidth (unicodeWidth : Text → ℕ) : List Event → ℕ
  | [] => 0
  | .newline _ :: _ => 0
  | event :: events => event.width unicodeWidth + lineWidth unicodeWidth events

namespace Printer

variable (unicodeWidth : Text → ℕ) (settings : FormatSettings)

/-- What a document prints when it is on top. -/
def emitsDocument (p : Printer) (indentation : Indentation) (mode : Mode) :
    Document → List Event
  | .string s => [.text s]
  | .space s =>
    if s.soft && p.out.getLast?.any isLineTerminatorOrSpace then [] else [.space]
  | .line l =>
    if mode = .flat ∧ l.hard = false then (if l.soft then [] else [.space])
    else if !p.lineSuffix.isEmpty then []
    else [.newline (if l.literal then [] else indentation.alignment.getD [])]
  | _ => []

def emits (p : Printer) : List Event :=
  match p.commands with
  | [] => []
  | c :: _ =>
    match c.document with
    | .array _ => []
    | .document doc => p.emitsDocument c.indentation c.mode doc

/-- The events of a number of turns, or of all that are left. -/
def trace (turns : ℕ) (p : Printer) : List Event :=
  match turns with
  | 0 => []
  | turns + 1 =>
    match p.step unicodeWidth settings with
    | none => []
    | some q => p.emits ++ q.trace turns

/-- The states of a run. -/
def Reaches : Printer → Printer → Prop :=
  Relation.ReflTransGen fun p q => p.step unicodeWidth settings = some q

variable {unicodeWidth settings} {p q : Printer}

theorem trace_of_none (h : p.step unicodeWidth settings = none) (turns : ℕ) :
    p.trace unicodeWidth settings turns = [] := by
  cases turns with
  | zero => rfl
  | succ turns => simp [trace, h]

theorem trace_of_some (h : p.step unicodeWidth settings = some q) (turns : ℕ) :
    p.trace unicodeWidth settings (turns + 1) =
      p.emits ++ q.trace unicodeWidth settings turns := by
  simp [trace, h]

/-! ## A turn, by its top command -/

theorem step_nil (h : p.commands = []) : p.step unicodeWidth settings = none := by
  simp [step, h]

theorem step_cons {c : Command} {rest : List Command} (h : p.commands = c :: rest) :
    p.step unicodeWidth settings =
      some ({ p with commands := rest }.handleCommand unicodeWidth settings c).flushAtEnd := by
  simp [step, h]

theorem flushAtEnd_of_lineSuffix (h : p.lineSuffix = []) : p.flushAtEnd = p := by
  cases p
  subst h
  simp [flushAtEnd, flushLineSuffix]

@[simp]
theorem push_commands (cs : List Command) : (p.push cs).commands = cs ++ p.commands := rfl

@[simp]
theorem pushDocs_commands (indentation : Indentation) (mode : Mode) (docs : List Document) :
    (p.pushDocs indentation mode docs).commands =
      docCommands indentation mode docs ++ p.commands := rfl

@[simp]
theorem setGroupModeFromLastCmd_commands (id : Option GroupIdentifier) :
    (p.setGroupModeFromLastCmd id).commands = p.commands := by
  unfold setGroupModeFromLastCmd
  split <;> rfl

@[simp]
theorem setGroupModeFromLastCmd_lineSuffix (id : Option GroupIdentifier) :
    (p.setGroupModeFromLastCmd id).lineSuffix = p.lineSuffix := by
  unfold setGroupModeFromLastCmd
  split <;> rfl

@[simp]
theorem setGroupModeFromLastCmd_out (id : Option GroupIdentifier) :
    (p.setGroupModeFromLastCmd id).out = p.out := by
  unfold setGroupModeFromLastCmd
  split <;> rfl

@[simp]
theorem setGroupModeFromLastCmd_position (id : Option GroupIdentifier) :
    (p.setGroupModeFromLastCmd id).position = p.position := by
  unfold setGroupModeFromLastCmd
  split <;> rfl

@[simp]
theorem setGroupModeFromLastCmd_shouldRemeasure (id : Option GroupIdentifier) :
    (p.setGroupModeFromLastCmd id).shouldRemeasure = p.shouldRemeasure := by
  unfold setGroupModeFromLastCmd
  split <;> rfl

@[simp]
theorem handleTrim_commands (t : Trim) : (p.handleTrim t).commands = p.commands := by
  unfold handleTrim
  split <;> rfl

@[simp]
theorem handleTrim_lineSuffix (t : Trim) : (p.handleTrim t).lineSuffix = p.lineSuffix := by
  unfold handleTrim
  split <;> rfl

@[simp]
theorem push_out (cs : List Command) : (p.push cs).out = p.out := rfl

@[simp]
theorem pushDocs_out (indentation : Indentation) (mode : Mode) (docs : List Document) :
    (p.pushDocs indentation mode docs).out = p.out := rfl

@[simp]
theorem flushLineSuffix_out : p.flushLineSuffix.out = p.out := rfl

@[simp]
theorem flushAtEnd_out : p.flushAtEnd.out = p.out := by
  unfold flushAtEnd
  split <;> rfl

@[simp]
theorem handleGroup_out (indentation : Indentation) (mode : Mode) (contents : List Document)
    (breakMode : BreakMode) (id : Option GroupIdentifier) (propagated : Bool) :
    (p.handleGroup unicodeWidth settings indentation mode contents breakMode id propagated).out =
      p.out := by
  unfold handleGroup
  dsimp only
  split
  · simp [pushDocs_out]
  · split <;> simp [push_out]

@[simp]
theorem handleConditional_out (indentation : Indentation) (mode : Mode)
    (contents states : List Document) (mostExpanded : Document) (breakMode : BreakMode)
    (id : Option GroupIdentifier) (propagated : Bool) :
    (p.handleConditional unicodeWidth settings indentation mode contents states mostExpanded
      breakMode id propagated).out = p.out := by
  unfold handleConditional
  dsimp only
  split
  · simp [pushDocs_out]
  split
  · simp [push_out]
  split
  · simp [push_out]
  split <;> simp [push_out]

@[simp]
theorem flushAtEnd_position : p.flushAtEnd.position = p.position := by
  unfold flushAtEnd
  split <;> rfl

@[simp]
theorem handleGroup_position (indentation : Indentation) (mode : Mode) (contents : List Document)
    (breakMode : BreakMode) (id : Option GroupIdentifier) (propagated : Bool) :
    (p.handleGroup unicodeWidth settings indentation mode contents breakMode id
      propagated).position = p.position := by
  unfold handleGroup
  dsimp only
  split
  · simp [pushDocs, push]
  · split <;> simp [push]

@[simp]
theorem handleConditional_position (indentation : Indentation) (mode : Mode)
    (contents states : List Document) (mostExpanded : Document) (breakMode : BreakMode)
    (id : Option GroupIdentifier) (propagated : Bool) :
    (p.handleConditional unicodeWidth settings indentation mode contents states mostExpanded
      breakMode id propagated).position = p.position := by
  unfold handleConditional
  dsimp only
  split
  · simp [pushDocs, push]
  split
  · simp [push]
  split
  · simp [push]
  split <;> simp [push]

/-- Without queued suffixes a line pushes nothing. -/
theorem handleLine_commands (h : p.lineSuffix = []) (l : Line) (indentation : Indentation)
    (mode : Mode) :
    (p.handleLine unicodeWidth settings l indentation mode).commands = p.commands ∧
      (p.handleLine unicodeWidth settings l indentation mode).lineSuffix = [] := by
  unfold handleLine
  split
  · split <;> exact ⟨rfl, h⟩
  · have hempty : (!({ p with
        shouldRemeasure := p.shouldRemeasure || decide (mode = .flat) } :
          Printer).lineSuffix.isEmpty) = false := by simp [h]
    simp only [hempty, Bool.false_eq_true, if_false]
    split
    · split <;> exact ⟨rfl, h⟩
    · simp [addIndentation, h]

/-- Propagation changes modes only. -/
theorem emitsDocument_propagateBreaks (p : Printer) (indentation : Indentation) (mode : Mode)
    (doc : Document) :
    p.emitsDocument indentation mode doc.propagateBreaks.2 =
      p.emitsDocument indentation mode doc := by
  cases doc with
  | group contents breakMode id propagated =>
    unfold Document.propagateBreaks
    split
    · rfl
    · split <;> rfl
  | conditional contents states mostExpanded breakMode id propagated =>
    unfold Document.propagateBreaks
    split
    · rfl
    · split <;> rfl
  | _ => simp [Document.propagateBreaks, emitsDocument]

theorem emits_of_document {indentation : Indentation} {mode : Mode} {doc : Document}
    {rest : List Command} (h : p.commands = ⟨indentation, mode, .document doc⟩ :: rest) :
    p.emits = p.emitsDocument indentation mode doc := by
  simp [emits, h]

theorem emits_of_array {indentation : Indentation} {mode : Mode} {docs : List Document}
    {rest : List Command} (h : p.commands = ⟨indentation, mode, .array docs⟩ :: rest) :
    p.emits = [] := by
  simp [emits, h]

end Printer

end Mago.Printing
