import Mago.Library.Utf8

/-!
# Documents

The tree that the printer lays out. A break mode is a mutable cell in the source; every
subtree has one owner, so a change of modes is a function from documents to documents here.
The cache of groups without a forced break is keyed by the address of a group's first part
and becomes a flag of the group. Expanded states come with at least one state, the most
expanded one.
-/
namespace Mago.Printing
open Library

abbrev Bytes := List UInt8

abbrev GroupIdentifier := ℕ

inductive Trim
  | whitespace
  | newlines
  deriving DecidableEq, Repr

structure Line where
  hard : Bool
  soft : Bool
  literal : Bool
  deriving DecidableEq, Repr

structure Space where
  soft : Bool
  deriving DecidableEq, Repr

/-- Break if needed; always break, with the parents; always break, without them. -/
inductive BreakMode
  | auto
  | force
  | preserve
  deriving DecidableEq, Repr

inductive Document
  | string (s : Bytes)
  | rangeStart
  | rangeEnd
  | array (docs : List Document)
  | indent (docs : List Document)
  | indentIfBreak (groupId : GroupIdentifier) (contents : List Document)
  | group (contents : List Document) (breakMode : BreakMode) (id : Option GroupIdentifier)
      (propagated : Bool)
  | conditional (contents : List Document) (expandedStates : List Document)
      (mostExpanded : Document) (breakMode : BreakMode) (id : Option GroupIdentifier)
      (propagated : Bool)
  | line (l : Line)
  | lineSuffix (docs : List Document)
  | lineSuffixBoundary
  | ifBreak (breakContents flatContent : Document) (groupId : Option GroupIdentifier)
  | breakParent
  | align (alignment : Bytes) (contents : List Document)
  | trim (t : Trim)
  | doNotTrim
  | space (s : Space)

/-! ## Settings and widths -/

inductive EndOfLine
  | auto
  | lf
  | crlf
  | cr
  deriving DecidableEq, Repr

def EndOfLine.asStr : EndOfLine → Bytes
  | .crlf => [13, 10]
  | .cr => [13]
  | .lf => [10]
  | .auto => [10]

structure FormatSettings where
  printWidth : ℕ
  tabWidth : ℕ
  useTabs : Bool
  endOfLine : EndOfLine
  deriving DecidableEq, Repr

def isSpace (c : UInt8) : Bool := c == 32 || c == 9

def isLineTerminator (c : UInt8) : Bool := c == 10 || c == 13

def isLineTerminatorOrSpace (c : UInt8) : Bool := isLineTerminator c || isSpace c

def isPrintable (c : UInt8) : Bool := decide (32 ≤ c) && decide (c ≤ 126)

/-- The four letters that are rendered as one glyph, each replaced occurrence by one
underscore. -/
def replaceGlyph : Text → Text
  | a :: b :: c :: d :: rest =>
    if [a, b, c, d] = ['ا', 'ل', 'ل', 'ه'] then '_' :: replaceGlyph rest
    else a :: replaceGlyph (b :: c :: d :: rest)
  | text => text

/-- The width of the last line; `unicodeWidth` is the display width of a text. -/
def stringWidth (unicodeWidth : Text → ℕ) (s : Bytes) : ℕ :=
  if s.all isPrintable then s.length
  else
    let line := (s.reverse.takeWhile fun c => !isLineTerminator c).reverse
    if line.all isPrintable then line.length
    else unicodeWidth (replaceGlyph (fromUtf8Lossy line))

/-! ## Break propagation -/

namespace Document

mutual

/-- Whether a break reaches the parent, and the document with the modes that are now
forced. -/
def propagateBreaks : Document → Bool × Document
  | breakParent => (true, breakParent)
  | group contents mode id propagated =>
    if mode = .force then (true, group contents mode id propagated)
    else if !contents.isEmpty && propagated then (false, group contents mode id propagated)
    else
      let (shouldBreak, contents) := propagateSliceBreaks contents
      let mode := if shouldBreak ∧ mode ≠ .preserve then .force else mode
      (mode = .force,
        group contents mode id ((mode ≠ .force && !contents.isEmpty) || propagated))
  | conditional contents states mostExpanded mode id propagated =>
    if mode = .force then (true, conditional contents states mostExpanded mode id propagated)
    else if propagated then (false, conditional contents states mostExpanded mode id propagated)
    else
      let (last, mostExpanded) := propagateBreaks mostExpanded
      let states := if last then states else (propagateSliceBreaks states).2
      let contents := (propagateSliceBreaks contents).2
      (false, conditional contents states mostExpanded mode id true)
  | ifBreak breakContents flatContent groupId =>
    let (shouldBreak, breakContents) := propagateBreaks breakContents
    (shouldBreak, ifBreak breakContents flatContent groupId)
  | array docs =>
    let (shouldBreak, docs) := propagateSliceBreaks docs
    (shouldBreak, array docs)
  | indent docs =>
    let (shouldBreak, docs) := propagateSliceBreaks docs
    (shouldBreak, indent docs)
  | align alignment contents =>
    let (shouldBreak, contents) := propagateSliceBreaks contents
    (shouldBreak, align alignment contents)
  | indentIfBreak groupId contents =>
    let (shouldBreak, contents) := propagateSliceBreaks contents
    (shouldBreak, indentIfBreak groupId contents)
  | doc => (false, doc)

/-- From the last document on, up to the first one with a break. -/
def propagateSliceBreaks : List Document → Bool × List Document
  | [] => (false, [])
  | doc :: docs =>
    let (later, docs) := propagateSliceBreaks docs
    if later then (true, doc :: docs)
    else
      let (shouldBreak, doc) := propagateBreaks doc
      (shouldBreak, doc :: docs)

end

mutual

/-- A deep copy: the copies of groups have addresses of their own, so no cache entry. -/
def cloneInArena : Document → Document
  | group contents mode id _ => group (cloneVecInArena contents) mode id false
  | conditional contents states mostExpanded mode id _ =>
    conditional (cloneVecInArena contents) (cloneVecInArena states) (cloneInArena mostExpanded)
      mode id false
  | array docs => array (cloneVecInArena docs)
  | indent docs => indent (cloneVecInArena docs)
  | lineSuffix docs => lineSuffix (cloneVecInArena docs)
  | indentIfBreak groupId contents => indentIfBreak groupId (cloneVecInArena contents)
  | align alignment contents => align alignment (cloneVecInArena contents)
  | ifBreak breakContents flatContent groupId =>
    ifBreak (cloneInArena breakContents) (cloneInArena flatContent) groupId
  | doc => doc

def cloneVecInArena : List Document → List Document
  | [] => []
  | doc :: docs => cloneInArena doc :: cloneVecInArena docs

end

end Document

end Mago.Printing
