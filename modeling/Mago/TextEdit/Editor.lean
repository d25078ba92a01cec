import Mago.Library.PartitionPoint
import Mago.Library.Span

/-!
# The transactional text editor

Edits address byte offsets of the original text. `apply` inserts one edit, `applyBatch`
merges a batch into the sorted list of accepted edits and `applyUniqueBatch` first drops
the edits of the batch that are already accepted. Offsets are natural numbers; only the
recorded length of the text is truncated to 32 bits.
-/
namespace Mago.Editing
open Library

abbrev Bytes := List UInt8

/-- Ordered from most safe to least safe. -/
inductive Safety
  | safe
  | potentiallyUnsafe
  | Unsafe
  deriving DecidableEq, Repr

def Safety.rank : Safety → ℕ
  | .safe => 0
  | .potentiallyUnsafe => 1
  | .Unsafe => 2

structure TextRange where
  start : ℕ
  stop : ℕ
  deriving DecidableEq, Repr

namespace TextRange

def isEmpty (r : TextRange) : Bool := r.start == r.stop

def len (r : TextRange) : ℕ := r.stop - r.start

/-- Two ranges conflict only when they share byte positions. -/
def overlaps (r other : TextRange) : Bool :=
  match r.isEmpty, other.isEmpty with
  | true, true => false
  | true, false => decide (r.start > other.start) && decide (r.start < other.stop)
  | false, true => decide (other.start > r.start) && decide (other.start < r.stop)
  | false, false => decide (r.start < other.stop) && decide (other.start < r.stop)

/-- The comparison by start, then by end, used by every sort of the editor. -/
def le (r other : TextRange) : Bool :=
  decide (r.start < other.start) || (r.start == other.start && decide (r.stop ≤ other.stop))

def lt (r other : TextRange) : Bool :=
  decide (r.start < other.start) || (r.start == other.start && decide (r.stop < other.stop))

end TextRange

structure TextEdit where
  range : TextRange
  newText : Bytes
  safety : Safety
  deriving DecidableEq, Repr

def TextEdit.insert (offset : ℕ) (text : Bytes) : TextEdit := ⟨⟨offset, offset⟩, text, .safe⟩

def TextEdit.delete (range : TextRange) : TextEdit := ⟨range, [], .safe⟩

def TextEdit.replace (range : TextRange) (text : Bytes) : TextEdit := ⟨range, text, .safe⟩

inductive ApplyResult
  | applied
  | outOfBounds
  | overlap
  | rejected
  | Unsafe
  | potentiallyUnsafe
  deriving DecidableEq, Repr

structure TextEditor where
  originalText : Bytes
  originalLen : ℕ
  edits : List TextEdit
  safetyThreshold : Safety
  deriving DecidableEq, Repr

/-- Copy the original up to the edit, then emit the replacement. The state is the output
so far and the first original byte that is not yet processed. -/
def stitchEdit (original : Bytes) (state : Bytes × ℕ) (edit : TextEdit) : Bytes × ℕ :=
  let output :=
    if edit.range.start > state.2 then
      state.1 ++ (original.drop state.2).take (edit.range.start - state.2)
    else state.1
  (output ++ edit.newText, edit.range.stop)

def stitch (original : Bytes) (edits : List TextEdit) : Bytes :=
  let (output, lastProcessed) := edits.foldl (stitchEdit original) ([], 0)
  if lastProcessed < original.length then output ++ original.drop lastProcessed else output

/-- The simulation merges the two sorted lists on the fly; an accepted edit goes first
when both ranges are equal. -/
def stitchMerged (original : Bytes) (oldEdits newEdits : List TextEdit) : Bytes :=
  stitch original (oldEdits.merge newEdits fun o n => o.range.le n.range)

def stitchOne (original : Bytes) (existing : List TextEdit) (newEdit : TextEdit) : Bytes :=
  stitchMerged original existing [newEdit]

/-- A missing checker accepts every simulation. -/
def checkerRejects (checker : Option (Bytes → Bool)) (simulated : Bytes) : Bool :=
  match checker with
  | some check => !check simulated
  | none => false

/-- Bounds and adjacent overlaps of a sorted batch; `previous` is the edit checked before. -/
def checkBatch (originalLen : ℕ) : Option TextEdit → List TextEdit → Option ApplyResult
  | _, [] => none
  | previous, edit :: rest =>
    if edit.range.stop > originalLen ∨ edit.range.start > edit.range.stop then some .outOfBounds
    else if previous.any fun p => p.range.overlaps edit.range then some .overlap
    else checkBatch originalLen (some edit) rest

/-- The loop that compares a sorted batch with the accepted edits. -/
def overlapsAccepted (accepted batch : List TextEdit) : Bool :=
  sweep (fun old new => old.range.overlaps new.range)
    (fun old new => decide (old.range.start < new.range.start)) accepted batch

/-- A stable sort by start, then by end. -/
def sortEdits (edits : List TextEdit) : List TextEdit :=
  edits.insertionSort fun a b => a.range.le b.range = true

namespace TextEditor

def withSafety (text : Bytes) (threshold : Safety) : TextEditor :=
  ⟨text, text.length % 2 ^ 32, [], threshold⟩

def checkSafety (t : TextEditor) (editSafety : Safety) : Option ApplyResult :=
  if editSafety.rank > t.safetyThreshold.rank then
    some (match editSafety with
      | .Unsafe => .Unsafe
      | .potentiallyUnsafe => .potentiallyUnsafe
      | .safe => .Unsafe)
  else none

def apply (t : TextEditor) (edit : TextEdit) (checker : Option (Bytes → Bool)) :
    ApplyResult × TextEditor :=
  match t.checkSafety edit.safety with
  | some rejection => (rejection, t)
  | none =>
    if edit.range.stop > t.originalLen ∨ edit.range.start > edit.range.stop then
      (.outOfBounds, t)
    else
      let searchIdx := partitionPoint (fun e => decide (e.range.stop ≤ edit.range.start)) t.edits
      if t.edits[searchIdx]?.any fun existing => existing.range.overlaps edit.range then
        (.overlap, t)
      else if checkerRejects checker (stitchOne t.originalText t.edits edit) then (.rejected, t)
      else (.applied, { t with edits := t.edits.insertIdx searchIdx edit })

def applyBatch (t : TextEditor) (newEdits : List TextEdit) (checker : Option (Bytes → Bool)) :
    ApplyResult × TextEditor :=
  if newEdits.isEmpty then (.applied, t)
  else match newEdits.findSome? fun edit => t.checkSafety edit.safety with
  | some rejection => (rejection, t)
  | none =>
    let sorted := sortEdits newEdits
    match checkBatch t.originalLen none sorted with
    | some rejection => (rejection, t)
    | none =>
      if overlapsAccepted t.edits sorted then (.overlap, t)
      else if checkerRejects checker (stitchMerged t.originalText t.edits sorted) then
        (.rejected, t)
      else (.applied, { t with edits := sortEdits (t.edits ++ sorted) })

/-- Whether an exact copy of the edit is found among the accepted edits of its range. -/
def isAccepted (t : TextEditor) (edit : TextEdit) : Bool :=
  let start := partitionPoint (fun existing => existing.range.lt edit.range) t.edits
  ((t.edits.drop start).takeWhile fun existing => existing.range == edit.range).any
    fun existing => existing == edit

def applyUniqueBatch (t : TextEditor) (newEdits : List TextEdit)
    (checker : Option (Bytes → Bool)) : ApplyResult × TextEditor :=
  t.applyBatch (newEdits.filter fun edit => !t.isAccepted edit) checker

def finish (t : TextEditor) : Bytes := stitch t.originalText t.edits

end TextEditor

/-- The three ways a caller changes an editor. -/
inductive Operation
  | apply (edit : TextEdit) (checker : Option (Bytes → Bool))
  | applyBatch (newEdits : List TextEdit) (checker : Option (Bytes → Bool))
  | applyUniqueBatch (newEdits : List TextEdit) (checker : Option (Bytes → Bool))

def TextEditor.perform (t : TextEditor) : Operation → ApplyResult × TextEditor
  | .apply edit checker => t.apply edit checker
  | .applyBatch newEdits checker => t.applyBatch newEdits checker
  | .applyUniqueBatch newEdits checker => t.applyUniqueBatch newEdits checker

/-- The states of an editor on `text` after operations that all satisfy `ok` when they
are performed. -/
inductive Run (ok : TextEditor → Operation → Prop) (text : Bytes) (threshold : Safety) :
    TextEditor → Prop
  | start : Run ok text threshold (.withSafety text threshold)
  | perform {t : TextEditor} {op : Operation} (prior : Run ok text threshold t) (step : ok t op) :
      Run ok text threshold (t.perform op).2

end Mago.Editing
