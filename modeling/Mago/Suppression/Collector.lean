import Mago.Suppression.Pragma
import Mago.Syntax.Input
import Mago.TextEdit.Editor

/-!
# The collector

Issues that are reported to a collector are suppressed by the nearest pragma that applies, or
kept. At the end every pragma that has not matched often enough becomes an issue itself, with
an edit that removes it. Reading outside of the file is a failure, shown as `none`.
-/
namespace Mago.Suppression
open Library Storage Syntax
open Reporting (Span AnnotationKind)
open Editing (TextEdit TextRange)

abbrev text (s : String) : Text := s.toList

def utf8 (t : Text) : List UInt8 := t.flatMap String.utf8EncodeChar

/-! ## Issues -/

inductive Level
  | note
  | help
  | warning
  | error
  deriving DecidableEq, Repr

structure Annotation where
  message : Option Text
  kind : AnnotationKind
  span : Span
  deriving DecidableEq, Repr

namespace Annotation

def primary (span : Span) : Annotation := ⟨none, .primary, span⟩

def secondary (span : Span) : Annotation := ⟨none, .secondary, span⟩

def withMessage (a : Annotation) (message : Text) : Annotation := { a with message := some message }

def isPrimary (a : Annotation) : Bool := a.kind == .primary

end Annotation

structure Issue where
  level : Level
  code : Option Text
  message : Text
  notes : List Text
  help : Option Text
  link : Option Text
  annotations : List Annotation
  edits : FileId → Option (List TextEdit)

namespace Issue

def new (level : Level) (message : Text) : Issue :=
  ⟨level, none, message, [], none, none, [], fun _ => none⟩

def withCode (issue : Issue) (code : Text) : Issue := { issue with code := some code }

def annotate (issue : Issue) (a : Annotation) : Issue :=
  { issue with annotations := issue.annotations ++ [a] }

def withNote (issue : Issue) (note : Text) : Issue := { issue with notes := issue.notes ++ [note] }

def withHelp (issue : Issue) (help : Text) : Issue := { issue with help := some help }

def withLink (issue : Issue) (link : Text) : Issue := { issue with link := some link }

def withEdit (issue : Issue) (fileId : FileId) (edit : TextEdit) : Issue :=
  { issue with
    edits := Function.update issue.edits fileId (some ((issue.edits fileId).getD [] ++ [edit])) }

end Issue

abbrev IssueCollection := List Issue

/-- Every occurrence of a pattern replaced, from the left; the characters that belong to the
last occurrence are skipped. -/
def replace (pattern new : Text) : ℕ → Text → Text
  | _, [] => []
  | 0, c :: rest =>
    if pattern.isPrefixOf (c :: rest) then new ++ replace pattern new (pattern.length - 1) rest
    else c :: replace pattern new 0 rest
  | skip + 1, _ :: rest => replace pattern new skip rest

example : replace (text "\x7bcode\x7d") (text "x") 0 (text "/\x7bcode\x7d/y") = text "/x/y" := by
  decide

/-! ## Reporting -/

structure Collector (π : Type*) where
  file : File π
  pragmas : List Pragma
  issues : IssueCollection
  /-- The innermost recording comes first. -/
  recordings : List IssueCollection
  disabledCodes : List Text
  activeCodes : Option (List Text)
  aliases : Text → Option Text
  linkTemplate : Option Text
  skipUnfulfilledExpect : Bool

variable {π : Type*}

namespace Collector

def isRecording (c : Collector π) : Bool := !c.recordings.isEmpty

/-- The issue as it is kept: without annotations of unknown files, with a link. -/
def prepare (c : Collector π) (issue : Issue) : Issue :=
  let issue := { issue with
    annotations := issue.annotations.filter fun a => decide (a.span.fileId ≠ 0) }
  match c.linkTemplate, issue.code with
  | some template, some code => issue.withLink (replace (text "\x7bcode\x7d") code 0 template)
  | _, _ => issue

def forceReport (c : Collector π) (issue : Issue) : Collector π :=
  match c.recordings with
  | recording :: outer => { c with recordings := (recording ++ [c.prepare issue]) :: outer }
  | [] => { c with issues := c.issues ++ [c.prepare issue] }

def resolve (c : Collector π) (code : Text) : Text := (c.aliases code).getD code

/-- Whether a pragma can suppress an issue. -/
def applies (c : Collector π) (issueSpan : Span) (kind : PragmaKind) (issueCode : Text)
    (p : Pragma) : Bool :=
  let code := c.resolve p.code
  let issueStartLine := c.file.lineNumber issueSpan.start
  p.kind == kind && (code == text "all" || code == issueCode) &&
    if p.isConsumed && code != text "all" then false
    else match p.scopeSpan with
      | some scope => contains scope issueSpan || contains issueSpan scope
      | none =>
        if contains p.triviaSpan issueSpan || contains issueSpan p.triviaSpan then true
        else if p.ownLine then decide (p.startLine < issueStartLine)
        else c.file.lineNumber p.span.start == issueStartLine

/-- An inline pragma is better than one on its own line, then the later line is. -/
def isBetter (p best : Pragma) : Bool :=
  if !best.ownLine && p.ownLine then false
  else if best.ownLine && !p.ownLine then true
  else decide (best.startLine < p.startLine)

def stepBest (c : Collector π) (issueSpan : Span) (kind : PragmaKind) (issueCode : Text)
    (best : Option ( Pragma × ℕ)) (entry : Pragma × ℕ) : Option ( Pragma × ℕ) :=
  if c.applies issueSpan kind issueCode entry.1 then
    match best with
    | none => some entry
    | some current => if isBetter entry.1 current.1 then some entry else some current
  else best

/-- The index of the nearest pragma that applies. -/
def findBestApplicablePragma (c : Collector π) (issueSpan : Span) (kind : PragmaKind)
    (issueCode : Text) : Option ℕ :=
  (c.pragmas.zipIdx.foldl (c.stepBest issueSpan kind issueCode) none).map Prod.snd

/-- Lets the nearest pragma of a kind absorb an issue. -/
def absorb (c : Collector π) (kind : PragmaKind) (issueSpan : Span) (issueCode : Text) :
    Bool × Collector π :=
  match c.findBestApplicablePragma issueSpan kind issueCode with
  | some i => (true, { c with pragmas := c.pragmas.modify i Pragma.countMatch })
  | none => (false, c)

def isIgnored (c : Collector π) : Span → Text → Bool × Collector π := c.absorb .ignore

def isExpected (c : Collector π) : Span → Text → Bool × Collector π := c.absorb .expect

/-- Whether an issue is ignored or else expected. -/
def suppress (c : Collector π) (issueSpan : Span) (issueCode : Text) : Bool × Collector π :=
  match c.isIgnored issueSpan issueCode with
  | (true, c) => (true, c)
  | (false, c) => c.isExpected issueSpan issueCode

def missingCodeIssue (primarySpan : Option Span) : Issue :=
  let issue := Issue.new .error (text "Internal: Diagnostic is missing a code.")
    |>.withCode (text "missing-code")
    |>.withNote (text ("This diagnostic was reported without a unique code, " ++
      "which is required by the collector."))
    |>.withHelp (text "Please report this issue to the Mago team.")
    |>.withLink (text "https://github.com/carthage-software/mago")
  match primarySpan with
  | some span => issue.annotate (( Annotation.primary span).withMessage
      (text "This diagnostic was reported without a unique code."))
  | none => issue

/-- Reports an issue, and whether it was kept. An issue without a code is replaced where debug
assertions are on. -/
def report (debugAssertions : Bool) (c : Collector π) (issue : Issue) : Bool × Collector π :=
  let primarySpan := (issue.annotations.find? Annotation.isPrimary).map Annotation.span
  match issue.code with
  | none =>
    if debugAssertions then (false, c.forceReport (missingCodeIssue primarySpan))
    else (true, c.forceReport issue)
  | some code =>
    if c.disabledCodes.contains code then (false, c)
    else match primarySpan with
      | none => (true, c.forceReport issue)
      | some span =>
        if c.isRecording then (true, c.forceReport issue)
        else match c.suppress span code with
          | (true, c) => (false, c)
          | (false, c) => (true, c.forceReport issue)

def extend (debugAssertions : Bool) (c : Collector π) (issues : List Issue) : Collector π :=
  issues.foldl (fun c issue => (c.report debugAssertions issue).2) c

/-! ## Edits that remove a pragma -/

def isBlank (b : UInt8) : Bool := b == byte ' ' || b == byte '\t'

/-- The comma right before a position, over blanks. -/
def commaBefore (contents : List UInt8) : ℕ → Option (Option ℕ)
  | 0 => some none
  | scan + 1 => do
    let b ← contents[scan]?
    if b == byte ',' then some (some scan)
    else if isBlank b then commaBefore contents scan
    else some none

/-- The position after the comma and the blanks that follow, with what comes there. -/
def afterComma : List UInt8 → ℕ → Option (ℕ × List UInt8)
  | [], _ => none
  | b :: rest, scan =>
    if b == byte ',' then
      some (scan + 1 + (rest.takeWhile isBlank).length, rest.dropWhile isBlank)
    else if isBlank b then afterComma rest (scan + 1)
    else none

def computeCodeDeletion (c : Collector π) (p : Pragma) : Option TextEdit := do
  match ← commaBefore c.file.contents p.codeSpan.start with
  | some comma => some (.delete ⟨comma, p.codeSpan.stop⟩)
  | none =>
    match afterComma (c.file.contents.drop p.codeSpan.stop) p.codeSpan.stop with
    | none => some (.delete ⟨p.codeSpan.start, p.codeSpan.stop⟩)
    | some (scan, rest) =>
      let nextCode := rest.takeWhile fun b => !(isAsciiWhitespace b || b == byte ',')
      let replacement := if nextCode.contains (byte ':') then [] else utf8 (p.category ++ [':'])
      some (.replace ⟨p.codeSpan.start, scan⟩ replacement)

/-- The start of the blanks right before a position. -/
def blanksBefore (contents : List UInt8) : ℕ → Option ℕ
  | 0 => some 0
  | start + 1 => do
    let b ← contents[start]?
    if isBlank b then blanksBefore contents start else some (start + 1)

def computeCommentDeletion (c : Collector π) (p : Pragma) : Option TextEdit :=
  if p.ownLine then
    let lineStart := (c.file.getLineStartOffset p.startLine).getD p.triviaSpan.start
    let deleteEnd := (c.file.getLineStartOffset (p.endLine + 1)).getD p.triviaSpan.stop
    some (.delete ⟨lineStart, deleteEnd⟩)
  else do
    let start ← blanksBefore c.file.contents p.triviaSpan.start
    some (.delete ⟨start, p.triviaSpan.stop⟩)

def computeDirectiveDeletion (c : Collector π) (p : Pragma) : TextEdit :=
  let pragmaLine := c.file.lineNumber p.span.start
  let lineStart := (c.file.getLineStartOffset pragmaLine).getD p.span.start
  let deleteEnd := (c.file.getLineStartOffset (pragmaLine + 1)).getD p.span.stop
  .delete ⟨lineStart, deleteEnd⟩

def trimAsciiStart (s : List UInt8) : List UInt8 := s.dropWhile isAsciiWhitespace

def trimAscii (s : List UInt8) : List UInt8 := (trimAsciiStart s).rdropWhile isAsciiWhitespace

def checkNonPragmaLine (line : List UInt8) : Bool :=
  let trimmed := trimAscii line
  let withoutMarker := trimAscii (trimmed.dropWhile fun b => b == byte '*')
  if withoutMarker.isEmpty then false
  else !((byteString "@mago-ignore").isPrefixOf withoutMarker ||
    (byteString "@mago-expect").isPrefixOf withoutMarker)

/-- The bytes of a span, which has to lie in the file. -/
def slice (contents : List UInt8) (span : Span) : Option (List UInt8) :=
  if span.start ≤ span.stop ∧ span.stop ≤ contents.length then
    some ((contents.take span.stop).drop span.start)
  else none

def stripPrefix (start : String) (s : List UInt8) : Option (List UInt8) :=
  if (byteString start).isPrefixOf s then some (s.drop (byteString start).length) else none

/-- Whether a comment has content beyond its pragmas. The last line counts like the others: an
empty one has no content. -/
def triviaHasNonPragmaContent (c : Collector π) (p : Pragma) : Option Bool := do
  let triviaText ← slice c.file.contents p.triviaSpan
  let inner := ((stripPrefix "/**" triviaText).or <| (stripPrefix "/*" triviaText).or <|
    (stripPrefix "//" triviaText).or <| stripPrefix "#" triviaText).getD triviaText
  let inner := if (byteString "*/").isSuffixOf inner then inner.take (inner.length - 2) else inner
  some ((inner.splitOn (byte '\n')).any checkNonPragmaLine)

/-! ## Finishing -/

/-- A pragma for a code that is not active is not reported. -/
def isPragmaSkipped (c : Collector π) (p : Pragma) : Bool :=
  p.kind == .expect && p.code != text "all" &&
    c.activeCodes.any fun codes => !codes.contains p.code

def hasMatch (c : Collector π) (p : Pragma) : Bool := decide (0 < p.matched) || c.isPragmaSkipped p

/-- Whether a span has a pragma that was used, by the span of the directive or of the comment. -/
def markUsed (c : Collector π) (key : Pragma → Span) (used : Span → Option Bool) (p : Pragma) :
    Span → Option Bool :=
  let entry := (used (key p)).getD false
  Function.update used (key p) (some (if c.hasMatch p then true else entry))

def hasUsed (c : Collector π) (key : Pragma → Span) (span : Span) : Bool :=
  (c.pragmas.foldl (c.markUsed key) (fun _ => none) span).getD false

/-- Lowers the count of a pragma that matched some but not all of its issues. -/
def partialCountEdit (p : Pragma) : Option TextEdit :=
  if 0 < p.matched ∧ 1 < p.expectedMatches then
    p.countSpan.map fun count => .replace ⟨count.start, count.stop⟩
      (if p.matched = 1 then [] else byteString s!"({p.matched.toNat})")
  else none

structure Handled where
  directives : List Span
  trivias : List Span

/-- The edit that removes an unused pragma; a comment or a directive is removed once. -/
def removal (c : Collector π) (p : Pragma) (handled : Handled) :
    Option ( Option TextEdit × Handled) := do
  match partialCountEdit p with
  | some edit => some (some edit, handled)
  | none =>
    if c.hasUsed Pragma.span p.span then
      some (some (← c.computeCodeDeletion p), handled)
    else
      let wholeComment ←
        if !c.hasUsed Pragma.triviaSpan p.triviaSpan && !handled.trivias.contains p.triviaSpan then
          (c.triviaHasNonPragmaContent p).map fun other => !other
        else some false
      if wholeComment then
        some (some (← c.computeCommentDeletion p),
          ⟨p.span :: handled.directives, p.triviaSpan :: handled.trivias⟩)
      else if !handled.directives.contains p.span && !handled.trivias.contains p.triviaSpan then
        some (some (c.computeDirectiveDeletion p),
          { handled with directives := p.span :: handled.directives })
      else some (none, handled)

def primaryMessage (p : Pragma) : Text :=
  if 1 < p.expectedMatches then
    text (s!"This expect pragma was fulfilled {p.matched.toNat} of " ++
      s!"{p.expectedMatches.toNat} times.")
  else match p.kind with
    | .ignore => text "This ignore pragma does not match any reported issue."
    | .expect => text "This expect pragma was not fulfilled."

def annotatePragma (issue : Issue) (p : Pragma) : Issue :=
  issue.annotate (( Annotation.primary p.span).withMessage (primaryMessage p))
    |>.annotate (( Annotation.secondary p.codeSpan).withMessage (text "...for this code"))
    |>.annotate
      (( Annotation.secondary p.triviaSpan).withMessage (text "...within this comment."))

def pragmaIssue (p : Pragma) : Issue :=
  match p.kind with
  | .ignore =>
    annotatePragma ((Issue.new .note
      (text "This pragma was not used and may be removed.")).withCode (text "unused-pragma")) p
  | .expect =>
    let title := if 1 < p.expectedMatches then "This expect pragma was only partially fulfilled."
      else "This pragma was not used and may be removed."
    annotatePragma ((Issue.new .warning (text title)).withCode (text "unfulfilled-expect")) p

/-- The issues of the pragmas that were not fulfilled, in their order. -/
def unfulfilled (hash : Storage.Bytes → FileId) (c : Collector π) :
    List Pragma → Handled → Option IssueCollection
  | [], _ => some []
  | p :: rest, handled =>
    if p.isFulfilled || c.isPragmaSkipped p then unfulfilled hash c rest handled
    else do
      let (edit, handled) ← c.removal p handled
      let issue := match edit with
        | some edit => (pragmaIssue p).withEdit (c.file.id hash) edit
        | none => pragmaIssue p
      let issues ← unfulfilled hash c rest handled
      some (issue :: issues)

def finish (hash : Storage.Bytes → FileId) (c : Collector π) : Option IssueCollection :=
  if c.skipUnfulfilledExpect then some c.issues
  else (c.unfulfilled hash c.pragmas ⟨[], []⟩).map fun issues => c.issues ++ issues

end Collector

end Mago.Suppression
