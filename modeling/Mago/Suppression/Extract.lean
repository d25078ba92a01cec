import Mago.Library.Slice
import Mago.Suppression.Collector

/-!
# Pragmas in comments

A comment is cut into lines, a line into a category, codes and a description, the codes at their
commas. The offsets of the codes are found by subtracting the addresses of slices, of which
only the low 32 bits are kept, with an addition that saturates.
-/
namespace Mago.Suppression
open Library Storage Syntax
open Reporting (Span)
open Collector (trimAscii)

/-! ## Comments -/

inductive TriviaKind
  | whiteSpace
  | singleLineComment
  | multiLineComment
  | hashComment
  | docBlockComment
  deriving DecidableEq, Repr

namespace TriviaKind

def isBlockComment : TriviaKind → Bool
  | multiLineComment | docBlockComment => true
  | _ => false

/-- Where the content of a comment starts and ends. -/
def contentOffsets (length : ℕ) : TriviaKind → Option ( ℕ × ℕ)
  | multiLineComment => some (2, length - 2)
  | docBlockComment => some (3, length - 2)
  | singleLineComment => some (2, length)
  | hashComment => some (1, length)
  | whiteSpace => none

end TriviaKind

structure Trivia where
  kind : TriviaKind
  span : Span
  value : List UInt8
  deriving DecidableEq, Repr

def withoutCarriageReturn (line : Slice UInt8) : Slice UInt8 :=
  if line.elems.getLast? = some (byte '\r') then line.take (line.length - 1) else line

/-- The pieces between line feeds as lines. The last one has no line feed: it keeps a carriage
return and is no line when it is empty. -/
def linesOfPieces : List (Slice UInt8) → List (Slice UInt8)
  | [] => []
  | [last] => if last.isEmpty then [] else [last]
  | line :: rest => withoutCarriageReturn line :: linesOfPieces rest

def byteLines (input : Slice UInt8) : List (Slice UInt8) :=
  linesOfPieces (input.pieces fun b => b == byte '\n')

def trimStart (s : Slice UInt8) : Slice UInt8 := s.dropWhile isAsciiWhitespace

/-- A line of a block comment without the star it starts with. -/
def cleanLine (kind : TriviaKind) (line : Slice UInt8) : Slice UInt8 :=
  if kind.isBlockComment then
    let trimmed := trimStart line
    if trimmed.elems.head? = some (byte '*') then trimStart (trimmed.drop 1) else line
  else line

/-- The lines of a comment, with their offsets. -/
def commentLines (trivia : Trivia) : List (ℕ × Slice UInt8) :=
  match trivia.kind.contentOffsets trivia.value.length with
  | none => []
  | some (start, stop) =>
    if stop ≤ start then []
    else
      let content := ((Slice.whole trivia.value).take stop).drop start
      (byteLines content).map fun line =>
        let cleaned := cleanLine trivia.kind line
        (start + (line.start - content.start) + (cleaned.start - line.start), cleaned)

/-! ## Texts -/

/-- The text that bytes encode, if they do. -/
def decodeUtf8 (bytes : List UInt8) : Option Text :=
  if utf8 (fromUtf8Lossy bytes) = bytes then some (fromUtf8Lossy bytes) else none

/-- The characters with the Unicode property. -/
def isWhitespace (c : Char) : Bool :=
  let n := c.toNat
  decide (9 ≤ n ∧ n ≤ 13) || decide (0x2000 ≤ n ∧ n ≤ 0x200A) ||
    [0x20, 0x85, 0xA0, 0x1680, 0x2028, 0x2029, 0x202F, 0x205F, 0x3000].contains n

def isAsciiWhitespaceChar (c : Char) : Bool := [9, 10, 12, 13, 32].contains c.toNat

def trimText (t : Text) : Text := (t.dropWhile isWhitespace).rdropWhile isWhitespace

def splitOnce (c : Char) : Text → Option ( Text × Text)
  | [] => none
  | x :: xs =>
    if x = c then some ([], xs) else (splitOnce c xs).map fun parts => (x :: parts.1, parts.2)

/-- The parts around the last occurrence of a character. -/
def rsplitOnce (c : Char) : Text → Option ( Text × Text)
  | [] => none
  | x :: xs =>
    match rsplitOnce c xs with
    | some parts => some (x :: parts.1, parts.2)
    | none => if x = c then some ([], xs) else none

/-- A decimal number of 16 bits, with or without a plus sign. -/
def parseU16 (t : Text) : Option UInt16 :=
  let digits := if t.head? = some '+' then t.tail else t
  if !digits.isEmpty && digits.all Char.isDigit then
    let value := digits.foldl (fun value c => 10 * value + (c.toNat - 48)) 0
    if value < 2 ^ 16 then some (UInt16.ofNat value) else none
  else none

/-- The code without its count, the count and the offset of the count. -/
def parseCountSuffix (code : Text) : Option ( Text × UInt16 × ℕ) :=
  if code.getLast? ≠ some ')' then none
  else match rsplitOnce '(' code with
    | none => none
    | some (before, after) =>
      if before.isEmpty then none
      else
        let base := before.rdropWhile isWhitespace
        if base.isEmpty then none
        else match parseU16 (trimText after.dropLast) with
          | none => none
          | some count => if count = 0 then none else some (base, count, (utf8 before).length)

/-! ## Lines -/

def splitOnceByte (s : Slice UInt8) (b : UInt8) : Option ( Slice UInt8 × Slice UInt8) :=
  (s.elems.findIdx? fun x => x == b).map fun i => (s.take i, s.drop (i + 1))

def splitnWhitespace2 (s : Slice UInt8) : Slice UInt8 × Slice UInt8 :=
  match s.elems.findIdx? isAsciiWhitespace with
  | some i => (s.take i, s.drop (i + 1))
  | none => (s, s.drop s.length)

/-- The end of the codes: the first whitespace that neither follows a comma or a colon nor
precedes a comma. -/
def codesEnd (s : List UInt8) : ℕ → ℕ → Option ℕ
  | 0, _ => none
  | fuel + 1, cursor =>
    match (s.drop cursor).findIdx? isAsciiWhitespace with
    | none => none
    | some offset =>
      let stop := cursor + offset
      let rest := (s.drop stop).dropWhile isAsciiWhitespace
      let last := (s.take stop).getLast?
      if last = some (byte ',') ∨ last = some (byte ':') ∨ rest.head? = some (byte ',') then
        codesEnd s fuel (s.length - rest.length)
      else some stop

def splitCodesAndDescription (s : Slice UInt8) : Slice UInt8 × Slice UInt8 :=
  match codesEnd s.elems (s.length + 1) 0 with
  | some stop => (s.take stop, trimStart (s.drop stop))
  | none => (s, s.drop s.length)

def pragmaPrefix (s : List UInt8) : Option ( PragmaKind × List UInt8) :=
  if (byteString "@mago-ignore").isPrefixOf s then some (.ignore, byteString "@mago-ignore")
  else if (byteString "@mago-expect").isPrefixOf s then some (.expect, byteString "@mago-expect")
  else none

def saturatingAdd (a b : ℕ) : ℕ := min (a + b) (2 ^ 32 - 1)

def low32 (address : ℕ) : ℕ := address % 2 ^ 32

variable {π : Type*} (hash : Storage.Bytes → FileId) (file : File π) (trivia : Trivia)
  (categories : List Text) (address : ℕ)

/-- Whether only whitespace stands around the comment on its lines. -/
def isOwnLine : Bool :=
  let startLine := file.lineNumber trivia.span.start
  let endLine := file.lineNumber trivia.span.stop
  let lineStartOffset := (file.getLineStartOffset startLine).getD 0
  let lineEndOffset := (file.getLineEndOffset endLine).getD file.contents.length
  (trimAscii (Slice.between file.contents lineStartOffset trivia.span.start)).isEmpty &&
    (trimAscii (Slice.between file.contents trivia.span.stop lineEndOffset)).isEmpty

/-- What the pragmas of one line have in common. -/
structure LineHead where
  kind : PragmaKind
  /-- The offset of the line in the file. -/
  lineStart : ℕ
  line : Slice UInt8
  /-- The span of the directive. -/
  start : ℕ
  stop : ℕ
  /-- What follows the directive, without whitespace. -/
  content : Slice UInt8

def LineHead.pragma (head : LineHead) (category code description : Text) (codeSpan : Span)
    (countSpan : Option Span) (expectedMatches : UInt16) : Pragma where
  kind := head.kind
  span := ⟨file.id hash, head.start, head.stop⟩
  triviaSpan := trivia.span
  scopeSpan := none
  startLine := file.lineNumber trivia.span.start
  endLine := file.lineNumber trivia.span.stop
  ownLine := isOwnLine file trivia
  category := category
  code := code
  codeSpan := codeSpan
  countSpan := countSpan
  expectedMatches := expectedMatches
  matched := 0
  description := description

/-- The beginning of a line that starts with a directive. -/
def parseHead (lineOffset : ℕ) (line : Slice UInt8) : Option LineHead :=
  let lineStart := trivia.span.start + lineOffset
  let trimmed := trimStart line
  let start := lineStart + (line.length - trimmed.length)
  match pragmaPrefix trimmed.elems with
  | none => none
  | some (kind, directive) =>
    let contentWithLeadingSpace := trimmed.drop directive.length
    some {
      kind := kind
      lineStart := lineStart
      line := line
      start := start
      stop := start + directive.length + contentWithLeadingSpace.length
      content := trimStart contentWithLeadingSpace }

/-- A directive without a category is one for all codes of the first category. -/
def parseAll (head : LineHead) : Option Pragma :=
  let (codePart, rest) := splitnWhitespace2 head.content
  if codePart.elems ≠ byteString "all" then none
  else match decodeUtf8 (trimAscii rest.elems), categories.head? with
    | some description, some category =>
      let codeStart := head.lineStart + (head.content.start - head.line.start)
      some (head.pragma hash file trivia category (text "all") description
        ⟨file.id hash, codeStart, codeStart + (text "all").length⟩ none 1)
    | _, _ => none

/-- A code without a category of its own. -/
def withoutCategory (code : Text) : Text :=
  match splitOnce ':' code with
  | some (category, rest) =>
    if categories.contains category then rest.dropWhile isAsciiWhitespaceChar else code
  | none => code

/-- The pragma of one piece of the codes. -/
def parseChunk (head : LineHead) (category description : Text)
    (categoryBytes codesPart : Slice UInt8) (codesStartOffset : ℕ) (chunk : Slice UInt8) :
    Option Pragma :=
  let codeBytes := chunk.trim isAsciiWhitespace
  if codeBytes.isEmpty then none
  else match decodeUtf8 codeBytes.elems with
    | none => none
    | some chunkText =>
      let chunkStart := chunk.start - codesPart.start
      let codeStartInCodesPart := chunkStart + (chunk.length - (trimStart chunk).length)
      let codeStartOffset := codesStartOffset + codeStartInCodesPart
      let entryStartOffset :=
        if chunkStart = 0 then head.lineStart + (categoryBytes.start - head.line.start)
        else codeStartOffset
      let codeEnd := codeStartOffset + (utf8 chunkText).length
      let codeSpan : Span := ⟨file.id hash, entryStartOffset, codeEnd⟩
      let code := withoutCategory categories chunkText
      match parseCountSuffix code with
      | some (base, count, countStartInCode) =>
        let countStart := codeEnd - ((utf8 code).length - countStartInCode)
        some (head.pragma hash file trivia category base description codeSpan
          (some ⟨file.id hash, countStart, codeEnd⟩) count)
      | none => some (head.pragma hash file trivia category code description codeSpan none 1)

/-- The offset of the codes, by the addresses of the codes and of their line. -/
def codesOffset (head : LineHead) (codesPart : Slice UInt8) : ℕ :=
  saturatingAdd head.lineStart (low32 (address + codesPart.start)) -
    low32 (address + head.line.start)

/-- The pragmas of a line with a category. -/
def parseCodes (head : LineHead) (categoryBytes rest : Slice UInt8) : List Pragma :=
  if categoryBytes.elems.any isAsciiWhitespace then []
  else match decodeUtf8 categoryBytes.elems with
    | none => []
    | some category =>
      if !categories.contains category then []
      else
        let (codesPart, afterCodes) := splitCodesAndDescription (trimStart rest)
        if codesPart.isEmpty then []
        else match decodeUtf8 (trimAscii afterCodes.elems) with
          | none => []
          | some description =>
            (codesPart.pieces fun b => b == byte ',').filterMap
              (parseChunk hash file trivia categories head category description categoryBytes
                codesPart (codesOffset address head codesPart))

def parseLine (lineOffset : ℕ) (line : Slice UInt8) : List Pragma :=
  match parseHead trivia lineOffset line with
  | none => []
  | some head =>
    match splitOnceByte head.content (byte ':') with
    | none => (parseAll hash file trivia categories head).toList
    | some (categoryBytes, rest) =>
      parseCodes hash file trivia categories address head categoryBytes rest

/-- The pragmas of a comment that is stored at an address. -/
def parsePragmasInTrivia : List Pragma :=
  (commentLines trivia).flatMap fun entry =>
    parseLine hash file trivia categories address entry.1 entry.2

end Mago.Suppression
