import Mago.Twig.Token

/-!
# The Twig lexer

A state machine over the bytes of a template. Offsets are absolute; a step returns a token or an
error and the lexer after it.
-/
namespace Mago.Twig
open Mago.Syntax

inductive VerbatimKind
  | verbatim | raw
  deriving DecidableEq, Repr

inductive VerbatimStage
  | entering | emitted | body | endingOpened | endOpened | ended
  deriving DecidableEq, Repr

inductive LexerMode
  | data | block | variable | doubleQuoted | interpolation
  | verbatim (kind : VerbatimKind) (stage : VerbatimStage)
  deriving DecidableEq, Repr

def VerbatimKind.openKeyword : VerbatimKind → List UInt8
  | .verbatim => byteString "verbatim"
  | .raw => byteString "raw"

def VerbatimKind.endKeyword : VerbatimKind → List UInt8
  | .verbatim => byteString "endverbatim"
  | .raw => byteString "endraw"

def LexerMode.tagName : LexerMode → String
  | .block => "block tag"
  | .variable => "variable tag"
  | .doubleQuoted => "string"
  | .interpolation => "interpolation"
  | .data => "tag"
  | .verbatim _ _ => "verbatim tag"

structure Bracket where
  opener : UInt8
  position : ℕ
  deriving DecidableEq, Repr

/-- A stack of bounded depth, the top first. -/
structure BoundedStack (α : Type) (bound : ℕ) where
  items : List α
  le : items.length ≤ bound

namespace BoundedStack

variable {α : Type} {bound : ℕ}

def empty : BoundedStack α bound := ⟨[], Nat.zero_le _⟩

/-- A full stack stays as it is. -/
def push (x : α) (stack : BoundedStack α bound) : BoundedStack α bound :=
  if h : stack.items.length < bound then ⟨x :: stack.items, h⟩ else stack

def pop (stack : BoundedStack α bound) : BoundedStack α bound :=
  ⟨stack.items.tail, by rw [List.length_tail]; exact Nat.le_trans (Nat.sub_le _ _) stack.le⟩

def last (stack : BoundedStack α bound) : Option α := stack.items.head?

def isEmpty (stack : BoundedStack α bound) : Bool := stack.items.isEmpty

end BoundedStack

def maxModeDepth : ℕ := 64

def maxBracketDepth : ℕ := 128

structure TwigLexer where
  input : Input
  mode : LexerMode
  modeStack : BoundedStack LexerMode maxModeDepth
  brackets : BoundedStack Bracket maxBracketDepth
  eofEmitted : Bool
  lastSignificant : Option UInt8

/-- What a step returns, and the lexer after it. -/
abbrev Step := Except SyntaxError TwigToken × TwigLexer

namespace TwigLexer

def new (input : Input) : TwigLexer := ⟨input, .data, .empty, .empty, false, none⟩

variable (lexer : TwigLexer)

def cursor : ℕ := lexer.input.offset

def totalLen : ℕ := lexer.input.length

def jumpForwardTo (pos : ℕ) : TwigLexer :=
  { lexer with input := lexer.input.skip (pos - lexer.cursor) }

def byteOpt (offset : ℕ) : Option UInt8 := lexer.input.bytes[offset]?

def sliceBytes (start stop : ℕ) : List UInt8 := lexer.input.sliceInRange start stop

/-- Whether the text stands at an offset. -/
def isAt (offset : ℕ) (text : List UInt8) : Bool :=
  decide (offset + text.length ≤ lexer.totalLen ∧
    lexer.sliceBytes offset (offset + text.length) = text)

def fail (error : SyntaxError) : Step := (.error error, lexer)

/-- The token from the cursor to `stop`; the cursor moves there. -/
def emit (kind : TwigTokenKind) (stop : ℕ) : Step :=
  (.ok ⟨kind, lexer.sliceBytes lexer.cursor stop, lexer.cursor⟩, lexer.jumpForwardTo stop)

def emitWhitespace : Step :=
  let consumed := lexer.input.consumeWhitespaces
  (.ok ⟨.whitespace, consumed.1, lexer.cursor⟩, { lexer with input := consumed.2 })

def setMode (mode : LexerMode) : TwigLexer := { lexer with mode }

/-- The mode is saved and replaced. -/
def enter (saved mode : LexerMode) : TwigLexer :=
  { lexer with mode, modeStack := lexer.modeStack.push saved }

/-- Back to the mode saved last. -/
def leave : TwigLexer :=
  { lexer with mode := lexer.modeStack.last.getD .data, modeStack := lexer.modeStack.pop }

def pushBracket (opener : UInt8) (position : ℕ) : TwigLexer :=
  { lexer with brackets := lexer.brackets.push ⟨opener, position⟩ }

def popBracket : TwigLexer := { lexer with brackets := lexer.brackets.pop }

/-- The bytes from the cursor on. -/
def remaining : List UInt8 := lexer.input.readRemaining

/-- The bytes from an offset on. -/
def tailFrom (offset : ℕ) : List UInt8 := lexer.input.bytes.drop offset

end TwigLexer

def isTrim (b : UInt8) : Bool := decide (b = byte '-' ∨ b = byte '~')

/-- Where the next of the three introducers is, and its second byte. -/
def findNextIntroducer : List UInt8 → Option (ℕ × UInt8)
  | [] => none
  | b :: rest =>
    match rest.head? with
    | some next =>
      if b = byte '\x7b' ∧ next ∈ [byte '%', byte '\x7b', byte '#'] then some (0, next)
      else (findNextIntroducer rest).map fun found => (found.1 + 1, found.2)
    | none => none

/-- Where a text is first found. -/
def findText (text : List UInt8) : List UInt8 → Option ℕ
  | [] => if text = [] then some 0 else none
  | b :: rest =>
    if (b :: rest).take text.length = text then some 0 else (findText text rest).map (· + 1)

/-- Whether what follows `{%` closes the verbatim region. -/
def isVerbatimClose (endKeyword tail : List UInt8) : Bool :=
  let trimmed := if tail.head?.any isTrim then tail.drop 1 else tail
  let keyword := trimmed.dropWhile isWhitespaceByte
  decide (keyword.take endKeyword.length = endKeyword) &&
    (keyword[endKeyword.length]?).all fun b => !isWordByte b

def findVerbatimClose (endKeyword : List UInt8) : List UInt8 → Option ℕ
  | [] => none
  | [_] => none
  | b :: c :: rest =>
    if b = byte '\x7b' ∧ c = byte '%' then
      if isVerbatimClose endKeyword rest then some 0
      else (findVerbatimClose endKeyword rest).map (· + 2)
    else (findVerbatimClose endKeyword (c :: rest)).map (· + 1)

/-- Digits, with single separators between them. -/
def digitRun (lastWasDigit : Bool) : List UInt8 → ℕ
  | [] => 0
  | c :: rest =>
    if isAsciiDigit c then digitRun true rest + 1
    else if c = byte '_' ∧ lastWasDigit ∧ rest.head?.any isAsciiDigit then digitRun false rest + 1
    else 0

/-- The end of a number from its digits on. -/
def numberEnd (remaining : List UInt8) : ℕ :=
  let integer := digitRun false remaining
  let fraction :=
    if remaining[integer]? = some (byte '.') ∧ (remaining[integer + 1]?).any isAsciiDigit then
      integer + 1 + digitRun false (remaining.drop (integer + 1))
    else integer
  if (remaining[fraction]?).any (fun b => decide (b = byte 'e' ∨ b = byte 'E')) then
    let exponent :=
      if (remaining[fraction + 1]?).any (fun b => decide (b = byte '+' ∨ b = byte '-')) then
        fraction + 2
      else fraction + 1
    if (remaining[exponent]?).any isAsciiDigit then
      exponent + 1 + ((remaining.drop (exponent + 1)).takeWhile isAsciiDigit).length
    else fraction
  else fraction

/-- The length up to and with the closing quote. -/
def singleQuotedEnd : List UInt8 → Option ℕ
  | [] => none
  | [b] => if b = byte '\'' then some 1 else none
  | b :: c :: rest =>
    if b = byte '\\' then (singleQuotedEnd rest).map (· + 2)
    else if b = byte '\'' then some 1
    else (singleQuotedEnd (c :: rest)).map (· + 1)

/-- How a double-quoted string goes on. -/
inductive DoubleQuotedScan
  | closed (length : ℕ)
  | interpolated
  | unclosed
  deriving DecidableEq, Repr

def DoubleQuotedScan.shift (count : ℕ) : DoubleQuotedScan → DoubleQuotedScan
  | closed length => closed (length + count)
  | scan => scan

def scanDoubleQuoted : List UInt8 → DoubleQuotedScan
  | [] => .unclosed
  | [b] => if b = byte '"' then .closed 1 else .unclosed
  | b :: c :: rest =>
    if b = byte '\\' then (scanDoubleQuoted rest).shift 2
    else if b = byte '"' then .closed 1
    else if b = byte '#' ∧ c = byte '\x7b' then .interpolated
    else (scanDoubleQuoted (c :: rest)).shift 1

def isStringStop (b : UInt8) : Bool := decide (b = byte '\\' ∨ b = byte '#' ∨ b = byte '"')

/-- The length of a string part, up to a quote, an interpolation or, after an escape or a `#`, the
end; nothing when no such byte is found or an escape is cut off. -/
def stringPartEnd (bytes : List UInt8) : Option ℕ :=
  if bytes = [] then some 0
  else
    match hstop : bytes.findIdx? isStringStop with
    | none => none
    | some rel =>
      if bytes[rel]? = some (byte '\\') then
        if rel + 1 < bytes.length then
          (stringPartEnd (bytes.drop (rel + 2))).map (rel + 2 + ·)
        else none
      else if bytes[rel]? = some (byte '#') then
        if bytes[rel + 1]? = some (byte '\x7b') then some rel
        else (stringPartEnd (bytes.drop (rel + 1))).map (rel + 1 + ·)
      else some rel
termination_by bytes.length
decreasing_by
  all_goals
    have hlt := (List.findIdx?_eq_some_iff_findIdx_eq.mp hstop).1
    rw [List.length_drop]
    omega

namespace TwigLexer

variable (lexer : TwigLexer)

/-- Whether the tag that was just opened is a verbatim one. -/
def peekVerbatimOpen : Option VerbatimKind :=
  let tail := lexer.remaining.dropWhile isWhitespaceByte
  let stands (keyword : List UInt8) : Bool :=
    decide (tail.take keyword.length = keyword) &&
      (tail[keyword.length]?).all fun b => !isWordByte b
  if stands (byteString "verbatim") then some .verbatim
  else if stands (byteString "raw") then some .raw
  else none

def lexCommentBody (introducerStart searchFrom : ℕ) : Step :=
  match findText (byteString "#\x7d") (lexer.tailFrom searchFrom) with
  | none => (lexer.jumpForwardTo searchFrom).fail (.unclosedComment introducerStart)
  | some rel =>
    let closeStart := searchFrom + rel
    -- a trim marker belongs to the closer, unless it is the opener's
    let trimLen :=
      if searchFrom < closeStart ∧ (lexer.byteOpt (closeStart - 1)).any isTrim then 1 else 0
    lexer.emit .comment (closeStart - trimLen + 2 + trimLen)

/-- The kind for the trim marker that follows. -/
def trimmedKind (trimByte : Option UInt8) (dashKind tildeKind plainKind : TwigTokenKind) :
    TwigTokenKind :=
  if trimByte = some (byte '-') then dashKind
  else if trimByte = some (byte '~') then tildeKind
  else plainKind

/-- The end of an introducer at the cursor, with its trim marker. -/
def introducerEnd : ℕ :=
  lexer.cursor + if (lexer.byteOpt (lexer.cursor + 2)).any isTrim then 3 else 2

def lexData : Step :=
  match findNextIntroducer lexer.remaining with
  | none => lexer.emit .rawText lexer.totalLen
  | some (0, kindByte) =>
    let trimByte := lexer.byteOpt (lexer.cursor + 2)
    let stop := lexer.introducerEnd
    if kindByte = byte '%' then
      let kind := trimmedKind trimByte .openBlockDash .openBlockTilde .openBlock
      let emitted := lexer.emit kind stop
      match emitted.2.peekVerbatimOpen with
      | some verbatimKind =>
        (emitted.1, emitted.2.enter .data (.verbatim verbatimKind .entering))
      | none => (emitted.1, emitted.2.enter .data .block)
    else if kindByte = byte '\x7b' then
      let kind := trimmedKind trimByte .openVariableDash .openVariableTilde .openVariable
      let emitted := lexer.emit kind stop
      (emitted.1, emitted.2.enter .data .variable)
    else lexer.lexCommentBody lexer.cursor stop
  | some (at' + 1, _) => lexer.emit .rawText (lexer.cursor + (at' + 1))

/-- Whether the cursor is at whitespace. -/
def atWhitespace : Bool := (lexer.byteOpt lexer.cursor).any isWhitespaceByte

def lexVerbatimKeyword (kind : VerbatimKind) (expected : List UInt8) (nextStage : VerbatimStage) :
    Step :=
  if lexer.atWhitespace then lexer.emitWhitespace
  else
    let stop := lexer.cursor + expected.length
    if lexer.isAt lexer.cursor expected && !(lexer.byteOpt stop).any isWordByte then
      let emitted := lexer.emit .name stop
      (emitted.1, emitted.2.setMode (.verbatim kind nextStage))
    else
      lexer.fail (.unexpectedCharacter ((lexer.byteOpt lexer.cursor).getD 0) lexer.cursor)

/-- The `%}` at the cursor, with an optional trim marker. -/
def closeMarker : Option (TwigTokenKind × ℕ) :=
  let close := byteString "%\x7d"
  if lexer.byteOpt lexer.cursor = some (byte '-') ∧ lexer.isAt (lexer.cursor + 1) close then
    some (.closeBlockDash, 3)
  else if lexer.byteOpt lexer.cursor = some (byte '~') ∧ lexer.isAt (lexer.cursor + 1) close then
    some (.closeBlockTilde, 3)
  else if lexer.isAt lexer.cursor close then some (.closeBlock, 2)
  else none

/-- Whitespace or the closing marker, after which the lexer changes. -/
def lexVerbatimClose (after : TwigLexer → TwigLexer) : Step :=
  if lexer.atWhitespace then lexer.emitWhitespace
  else
    match lexer.closeMarker with
    | some (kind, length) =>
      let emitted := lexer.emit kind (lexer.cursor + length)
      (emitted.1, after emitted.2)
    | none => lexer.fail (.unclosedTag "verbatim tag" lexer.cursor)

def lexVerbatimCloseMarker (kind : VerbatimKind) (nextStage : VerbatimStage) : Step :=
  lexer.lexVerbatimClose fun lexer => lexer.setMode (.verbatim kind nextStage)

def lexVerbatimFinalClose : Step := lexer.lexVerbatimClose leave

def lexVerbatimOpenMarker (kind : VerbatimKind) (nextStage : VerbatimStage) : Step :=
  if lexer.isAt lexer.cursor (byteString "\x7b%") then
    let trimByte := lexer.byteOpt (lexer.cursor + 2)
    let openKind := trimmedKind trimByte .openBlockDash .openBlockTilde .openBlock
    let emitted := lexer.emit openKind lexer.introducerEnd
    (emitted.1, emitted.2.setMode (.verbatim kind nextStage))
  else lexer.fail (.unclosedVerbatim lexer.cursor)

def lexVerbatimBody (kind : VerbatimKind) : Step :=
  match findVerbatimClose kind.endKeyword lexer.remaining with
  | none => lexer.fail (.unclosedVerbatim lexer.cursor)
  | some 0 => lexer.lexVerbatimOpenMarker kind .endOpened
  | some (rel + 1) =>
    let emitted := lexer.emit .verbatimText (lexer.cursor + (rel + 1))
    (emitted.1, emitted.2.setMode (.verbatim kind .endingOpened))

def lexVerbatim (kind : VerbatimKind) (stage : VerbatimStage) : Step :=
  match stage with
  | .entering => lexer.lexVerbatimKeyword kind kind.openKeyword .emitted
  | .emitted => lexer.lexVerbatimCloseMarker kind .body
  | .body => lexer.lexVerbatimBody kind
  | .endingOpened => lexer.lexVerbatimOpenMarker kind .endOpened
  | .endOpened => lexer.lexVerbatimKeyword kind kind.endKeyword .ended
  | .ended => lexer.lexVerbatimFinalClose

/-- The closer of a tag at the cursor. -/
def tagCloser (closerByte : UInt8) : Option (TwigTokenKind × ℕ) :=
  let c0 := lexer.byteOpt lexer.cursor
  let c1 := lexer.byteOpt (lexer.cursor + 1)
  let c2 := lexer.byteOpt (lexer.cursor + 2)
  let block := decide (closerByte = byte '%')
  if c0 = some closerByte ∧ c1 = some (byte '\x7d') then
    some (if block then .closeBlock else .closeVariable, 2)
  else if c0 = some (byte '-') ∧ c1 = some closerByte ∧ c2 = some (byte '\x7d') then
    some (if block then .closeBlockDash else .closeVariableDash, 3)
  else if c0 = some (byte '~') ∧ c1 = some closerByte ∧ c2 = some (byte '\x7d') then
    some (if block then .closeBlockTilde else .closeVariableTilde, 3)
  else none

def tryCloseTag (closerByte : UInt8) : Option Step :=
  (lexer.tagCloser closerByte).map fun closer =>
    let emitted := lexer.emit closer.1 (lexer.cursor + closer.2)
    (emitted.1, emitted.2.leave)

def readNumber : Step := lexer.emit .number (lexer.cursor + numberEnd lexer.remaining)

def readSingleQuotedString : Step :=
  match singleQuotedEnd (lexer.tailFrom (lexer.cursor + 1)) with
  | some length => lexer.emit .stringSingleQuoted (lexer.cursor + 1 + length)
  | none => lexer.fail (.unclosedString lexer.cursor)

def readDoubleQuotedStringStart : Step :=
  match scanDoubleQuoted (lexer.tailFrom (lexer.cursor + 1)) with
  | .closed length => lexer.emit .stringDoubleQuoted (lexer.cursor + 1 + length)
  | .unclosed => lexer.fail (.unclosedString lexer.cursor)
  | .interpolated =>
    let emitted := lexer.emit .doubleQuoteStart (lexer.cursor + 1)
    (emitted.1,
      (emitted.2.pushBracket (byte '"') lexer.cursor).enter lexer.mode .doubleQuoted)

def lexInsideDqString : Step :=
  if lexer.isAt lexer.cursor (byteString "#\x7b") then
    let emitted := lexer.emit .interpolationStart (lexer.cursor + 2)
    (emitted.1,
      (emitted.2.pushBracket (byte '#') lexer.cursor).enter lexer.mode .interpolation)
  else if lexer.byteOpt lexer.cursor = some (byte '"') then
    let emitted := lexer.emit .doubleQuoteEnd (lexer.cursor + 1)
    if lexer.brackets.last.any fun b => decide (b.opener = byte '"') then
      (emitted.1, emitted.2.popBracket.leave)
    else emitted.2.fail (.unmatchedBracket (byte '"') lexer.cursor)
  else
    match stringPartEnd lexer.remaining with
    | none => lexer.fail (.unclosedString lexer.cursor)
    | some 0 => lexer.fail (.unclosedString lexer.cursor)
    | some (length + 1) => lexer.emit .stringPart (lexer.cursor + (length + 1))

/-- After whitespace comes the word, and no identifier goes on behind it. -/
def tryExtendWord (afterFirst : ℕ) (word : List UInt8) : Option ℕ :=
  let tail := lexer.tailFrom afterFirst
  let spaces := (tail.takeWhile isWhitespaceByte).length
  let rest := tail.drop spaces
  if spaces ≠ 0 ∧ rest.take word.length = word ∧
      (rest[word.length]?).all (fun b => !isPartOfIdentifier b) then
    some (afterFirst + spaces + word.length)
  else none

def tryExtendWordMulti (afterFirst : ℕ) :
    List (List UInt8 × TwigTokenKind) → Option (ℕ × TwigTokenKind)
  | [] => none
  | (word, kind) :: continuations =>
    match lexer.tryExtendWord afterFirst word with
    | some stop => some (stop, kind)
    | none => tryExtendWordMulti afterFirst continuations

/-- The end of `b-and`, `b-or` or `b-xor`, after its first letter. -/
def bitwiseWord (stop : ℕ) : Option (ℕ × TwigTokenKind) :=
  [(byteString "-and", TwigTokenKind.bAnd), (byteString "-or", .bOr),
    (byteString "-xor", .bXor)].findSome? fun suffix =>
    let after := stop + suffix.1.length
    if lexer.isAt stop suffix.1 ∧ (lexer.byteOpt after).all (fun b => !isPartOfIdentifier b) then
      some (after, suffix.2)
    else none

def readNameOrWordOperator : Step :=
  let stop := lexer.cursor + 1 +
    ((lexer.tailFrom (lexer.cursor + 1)).takeWhile isWordByte).length
  let bitwise :=
    if stop = lexer.cursor + 1 ∧ lexer.byteOpt lexer.cursor = some (byte 'b') ∧
        lexer.byteOpt stop = some (byte '-') then lexer.bitwiseWord stop
    else none
  match bitwise with
  | some (after, kind) => lexer.emit kind after
  | none =>
    let name := lexer.sliceBytes lexer.cursor stop
    -- behind a dot or a pipe a word is a name
    let mayBeWordOp :=
      lexer.lastSignificant ≠ some (byte '.') && lexer.lastSignificant ≠ some (byte '|')
    let multi :=
      if mayBeWordOp then
        (continuationWordsFor name).bind (lexer.tryExtendWordMulti stop)
      else none
    match multi with
    | some (newEnd, kind) => lexer.emit kind newEnd
    | none =>
      match (if mayBeWordOp then singleWordOperatorKind name else none) with
      | some kind => lexer.emit kind stop
      | none => lexer.emit .name stop

def readOperatorOrPunctuation (b0 : UInt8) : Step :=
  let b1 := lexer.byteOpt (lexer.cursor + 1)
  let b2 := lexer.byteOpt (lexer.cursor + 2)
  match threeByteOperator b0 b1 b2 with
  | some (kind, length) => lexer.emit kind (lexer.cursor + length)
  | none =>
    match twoByteOperator b0 b1 with
    | some (kind, length) => lexer.emit kind (lexer.cursor + length)
    | none =>
      match openerKind b0 with
      | some kind =>
        let emitted := lexer.emit kind (lexer.cursor + 1)
        (emitted.1, emitted.2.pushBracket b0 lexer.cursor)
      | none =>
        match closerKind b0 with
        | some kind =>
          if lexer.brackets.last.any fun b => decide (matchingCloser b.opener = b0) then
            let emitted := lexer.emit kind (lexer.cursor + 1)
            (emitted.1, emitted.2.popBracket)
          else lexer.fail (.unmatchedBracket b0 lexer.cursor)
        | none =>
          match singleByteSymbol b0 with
          | some kind => lexer.emit kind (lexer.cursor + 1)
          | none => lexer.fail (.unexpectedCharacter b0 lexer.cursor)

/-- `b` is the byte at the cursor. -/
def lexExpression (b : UInt8) : Step :=
  match byteClass b with
  | .whitespace => lexer.emitWhitespace
  | .hash =>
    let length := (lexer.remaining.takeWhile fun b => decide (b ≠ byte '\n')).length
    lexer.emit .inlineComment (lexer.cursor + length)
  | .singleQuote => lexer.readSingleQuotedString
  | .doubleQuote => lexer.readDoubleQuotedStringStart
  | .digit => lexer.readNumber
  | .identifierStart => lexer.readNameOrWordOperator
  | .other => lexer.readOperatorOrPunctuation b

/-- Inside a tag: its closer, when no bracket is open, or an expression token. -/
def lexInsideTag (closerByte b : UInt8) : Step :=
  match (if lexer.brackets.isEmpty then lexer.tryCloseTag closerByte else none) with
  | some closed => closed
  | none => lexer.lexExpression b

def lexInsideBlock (b : UInt8) : Step := lexer.lexInsideTag (byte '%') b

def lexInsideVariable (b : UInt8) : Step := lexer.lexInsideTag (byte '\x7d') b

def lexInsideInterpolation (b : UInt8) : Step :=
  if (lexer.brackets.last.any fun bracket => decide (bracket.opener = byte '#')) ∧
      b = byte '\x7d' then
    let emitted := lexer.emit .interpolationEnd (lexer.cursor + 1)
    (emitted.1, emitted.2.popBracket.leave)
  else lexer.lexExpression b

/-- The step of the mode; `b` is the byte at the cursor. -/
def lexMode (b : UInt8) : Step :=
  match lexer.mode with
  | .data => lexer.lexData
  | .block => lexer.lexInsideBlock b
  | .variable => lexer.lexInsideVariable b
  | .doubleQuoted => lexer.lexInsideDqString
  | .interpolation => lexer.lexInsideInterpolation b
  | .verbatim kind stage => lexer.lexVerbatim kind stage

/-- The last byte of the last token that is no trivia. -/
def significant (token : TwigToken) : TwigLexer :=
  if token.kind.isTrivia then lexer
  else { lexer with lastSignificant := token.value.getLast?.or lexer.lastSignificant }

/-- The error at the end of the input, when something is open. -/
def endOfInput : Option SyntaxError :=
  match lexer.brackets.last with
  | some b => some (.unclosedBracket b.opener b.position)
  | none =>
    if lexer.modeStack.isEmpty ∧ lexer.mode = .data then none
    else some (.unclosedTag lexer.mode.tagName lexer.input.currentPosition)

def advance : Option (Except SyntaxError TwigToken) × TwigLexer :=
  if lexer.eofEmitted then (none, lexer)
  else
    match lexer.remaining with
    | [] => (lexer.endOfInput.map .error, { lexer with eofEmitted := true })
    | b :: _ =>
      match lexer.lexMode b with
      | (.ok token, next) => (some (.ok token), next.significant token)
      | (.error error, next) => (some (.error error), next)

end TwigLexer

end Mago.Twig
