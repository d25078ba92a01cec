import Mago.Syntax.Input

/-!
# The docblock lexer

Tokens of a docblock comment. A reader looks at the remaining bytes and gives a kind and a
length; inside inline code, between backtick runs of one length, slashes and quotes are text.
-/
namespace Mago.Phpdoc
open Mago.Syntax

inductive TokenKind
  | openingMarker | closingMarker | tag | whitespace | lineComment | pipe | ampersand | question
  | bang | leftParenthesis | rightParenthesis | leftAngleBracket | rightAngleBracket
  | leftBracket | rightBracket | leftBrace | rightBrace | comma | colon | colonColon | arrow
  | doubleArrow | equals | minus | plus | ellipsis | asterisk | backtick | literalInteger
  | literalFloat | singleQuotedString | doubleQuotedString | partialString | identifier
  | variable | thisVariable | other
  deriving DecidableEq, Repr

structure Token where
  kind : TokenKind
  value : List UInt8
  start : ℕ
  deriving DecidableEq, Repr

structure DocblockLexer where
  input : Input
  inlineCode : Option ℕ

namespace DocblockLexer

def new (input : Input) : DocblockLexer := ⟨input, none⟩

def tagTable (b : UInt8) : Bool :=
  isAsciiAlphabetic b || isAsciiDigit b || decide (b ∈ byteString "_-\\")

def isIdentifierStart (b : UInt8) : Bool := isStartOfIdentifier b || decide (0x80 ≤ b)

def starRun (bytes : List UInt8) : ℕ := (bytes.takeWhile fun b => decide (b = byte '*')).length

def isClosingMarker (bytes : List UInt8) : Bool := decide (bytes[starRun bytes]? = some (byte '/'))

def readAsterisk (remaining : List UInt8) : TokenKind × ℕ :=
  if remaining[starRun remaining]? = some (byte '/') then
    (.closingMarker, starRun remaining + 1)
  else (.asterisk, 1)

/-- Where a closing marker is first found. -/
def findMarker : List UInt8 → Option ℕ
  | [] => none
  | b :: rest =>
    if b = byte '*' ∧ rest.head? = some (byte '/') then some 0 else (findMarker rest).map (· + 1)

/-- The stars before a marker belong to it. -/
def beforeStars (bytes : List UInt8) : ℕ → ℕ
  | 0 => 0
  | m + 1 => if bytes[m]? = some (byte '*') then beforeStars bytes m else m + 1

def findNewline (bytes : List UInt8) : Option ℕ := bytes.findIdx? isNewline

/-- A `//` opens a comment at the start of the input and after whitespace. -/
def atLineCommentBoundary (lexer : DocblockLexer) : Bool :=
  decide (lexer.input.offset = 0) ||
    (lexer.input.bytes[lexer.input.offset - 1]?).any isAsciiWhitespace

def readLineComment (remaining : List UInt8) : TokenKind × ℕ :=
  let tail := remaining.drop 2
  let newline := findNewline tail
  let marker := (findMarker tail).map (beforeStars tail)
  let stop :=
    match newline, marker with
    | some newline, some marker => min newline marker
    | some stop, none => stop
    | none, some stop => stop
    | none, none => tail.length
  (.lineComment, 2 + stop)

/-- Text goes on up to whitespace, a brace, a backtick or a closing marker. -/
def otherLength : List UInt8 → ℕ
  | [] => 0
  | b :: rest =>
    if isAsciiWhitespace b ∨ b = byte '\x7b' ∨ b = byte '\x7d' ∨ b = byte '\x60' then 0
    else if b = byte '*' ∧ isClosingMarker (b :: rest) then 0
    else otherLength rest + 1

def readOther (remaining : List UInt8) : TokenKind × ℕ := (.other, max (otherLength remaining) 1)

def readSlash (lexer : DocblockLexer) (remaining : List UInt8) : TokenKind × ℕ :=
  if remaining[1]? = some (byte '/') ∧ lexer.atLineCommentBoundary then readLineComment remaining
  else if remaining.take 3 = byteString "/**" ∧ (remaining[3]?).any isAsciiWhitespace then
    (.openingMarker, if remaining[3]? = some (byte ' ') then 4 else 3)
  else readOther remaining

/-- The hyphens at the front that are not the start of an arrow. -/
def hyphenRun : List UInt8 → ℕ
  | [] => 0
  | b :: rest =>
    if b = byte '-' ∧ rest.head? ≠ some (byte '>') then hyphenRun rest + 1 else 0

/-- Identifier segments, joined by namespace separators and hyphens. -/
def readIdentifier (remaining : List UInt8) : ℕ :=
  let segment := scanIdentifier remaining
  if hsep : segment.2 then segment.1 + 1 + readIdentifier (remaining.drop (segment.1 + 1))
  else
    let hyphens := hyphenRun (remaining.drop segment.1)
    if _hgo : 0 < hyphens ∧ (remaining[segment.1 + hyphens]?).any isPartOfIdentifier then
      segment.1 + hyphens + readIdentifier (remaining.drop (segment.1 + hyphens))
    else segment.1 + hyphens
termination_by remaining.length
decreasing_by
  · cases remaining with
    | nil => exact absurd hsep (by simp [segment, scanIdentifier])
    | cons b rest =>
      rw [List.length_drop, List.length_cons]
      omega
  · cases remaining with
    | nil => exact absurd _hgo.1 (by simp [hyphens, hyphenRun])
    | cons b rest =>
      have : 0 < hyphens := _hgo.1
      show (List.drop (segment.1 + hyphens) (b :: rest)).length < (b :: rest).length
      rw [List.length_drop, List.length_cons]
      omega

def readVariable (remaining : List UInt8) : Option (TokenKind × ℕ) :=
  if remaining.take 5 = byteString "$this" ∧ (remaining[5]?).all (fun b => !isPartOfIdentifier b) then
    some (.thisVariable, 5)
  else if (remaining[1]?).any isIdentifierStart then
    some (.variable, 1 + (scanIdentifier (remaining.drop 1)).1)
  else none

def readTag (remaining : List UInt8) : Option (TokenKind × ℕ) :=
  if (remaining[1]?).any isAsciiAlphabetic then
    let length := 1 + scanWhile tagTable (remaining.drop 1)
    if remaining[length]? = some (byte ':') ∧ (remaining[length + 1]?).any isAsciiAlphabetic then
      some (.tag, length + (1 + scanWhile tagTable (remaining.drop (length + 1))))
    else some (.tag, length)
  else none

/-- The length up to and with the closing quote; nothing when the line ends before it. -/
def stringLength (quote : UInt8) (tail : List UInt8) : Option ℕ :=
  match hstop : tail.findIdx? (fun b => decide (b = quote ∨ b = byte '\\')) with
  | none => none
  | some stop =>
    if (findNewline tail).any (fun newline => decide (newline < stop)) then none
    else if tail[stop]? = some quote then some (stop + 1)
    else if (tail[stop + 1]?).all isNewline then none
    else (stringLength quote (tail.drop (stop + 2))).map (stop + 2 + ·)
termination_by tail.length
decreasing_by
  have hlt := (List.findIdx?_eq_some_iff_findIdx_eq.mp hstop).1
  rw [List.length_drop]
  omega

def readString (quote : UInt8) (remaining : List UInt8) : TokenKind × ℕ :=
  match stringLength quote (remaining.drop 1) with
  | some length =>
    (if quote = byte '\'' then .singleQuotedString else .doubleQuotedString, 1 + length)
  | none =>
    let rest := remaining.drop 1
    let stop := match findNewline rest with
      | some newline => min rest.length newline
      | none => rest.length
    let stop := match findMarker rest with
      | some marker => min stop (beforeStars rest marker)
      | none => stop
    (.partialString, 1 + stop)

/-- The base a prefix after a zero stands for. -/
def basePrefix (remaining : List UInt8) : Option ℕ :=
  if remaining[0]? = some (byte '0') then
    (remaining[1]?).bind fun b =>
      if b ∈ byteString "bB" then some 2
      else if b ∈ byteString "oO" then some 8
      else if b ∈ byteString "xX" then some 16
      else none
  else none

/-- The length with a fraction, when there is one. -/
def fractionEnd (remaining : List UInt8) (length : ℕ) : ℕ :=
  if remaining[length]? = some (byte '.') ∧ (remaining[length + 1]?).any isAsciiDigit then
    length + 1 + readDigitsOfBase 10 (remaining.drop (length + 1))
  else length

/-- The length with an exponent, when there is one. -/
def exponentEnd (remaining : List UInt8) (length : ℕ) : ℕ :=
  if (remaining[length]?).any (fun b => decide (b ∈ byteString "eE")) then
    let exponent :=
      if (remaining[length + 1]?).any (fun b => decide (b ∈ byteString "+-")) then length + 2
      else length + 1
    if (remaining[exponent]?).any isAsciiDigit then
      exponent + readDigitsOfBase 10 (remaining.drop exponent)
    else length
  else length

def readDecimal (remaining : List UInt8) : TokenKind × ℕ :=
  let length := readDigitsOfBase 10 remaining
  let fraction := fractionEnd remaining length
  let exponent := exponentEnd remaining fraction
  -- a fraction and an exponent make the literal longer
  (if exponent ≠ length then .literalFloat else .literalInteger, exponent)

def readNumber (remaining : List UInt8) : TokenKind × ℕ :=
  match basePrefix remaining with
  | some base =>
    let digits := readDigitsOfBase base (remaining.drop 2)
    if 0 < digits then (.literalInteger, 2 + digits) else readDecimal remaining
  | none => readDecimal remaining

/-- The kind and the length of the token the remaining bytes start with. -/
def readToken (lexer : DocblockLexer) (first : UInt8) (remaining : List UInt8) :
    TokenKind × ℕ :=
  let second := remaining[1]?
  match char first with
  | '|' => (.pipe, 1)
  | '&' => (.ampersand, 1)
  | '?' => (.question, 1)
  | '!' => (.bang, 1)
  | '(' => (.leftParenthesis, 1)
  | ')' => (.rightParenthesis, 1)
  | '<' => (.leftAngleBracket, 1)
  | '>' => (.rightAngleBracket, 1)
  | '[' => (.leftBracket, 1)
  | ']' => (.rightBracket, 1)
  | '\x7b' => (.leftBrace, 1)
  | '\x7d' => (.rightBrace, 1)
  | ',' => (.comma, 1)
  | ':' => if second = some (byte ':') then (.colonColon, 2) else (.colon, 1)
  | '=' => if second = some (byte '>') then (.doubleArrow, 2) else (.equals, 1)
  | '*' => readAsterisk remaining
  | '.' =>
    if remaining.take 3 = byteString "..." then (.ellipsis, 3)
    else if second.any isAsciiDigit then readNumber remaining
    else readOther remaining
  | '-' => if second = some (byte '>') then (.arrow, 2) else (.minus, 1)
  | '+' => (.plus, 1)
  | '\x60' => (.backtick, scanWhile (fun b => decide (b = byte '\x60')) remaining)
  | '/' => if lexer.inlineCode.isNone then lexer.readSlash remaining else readOther remaining
  | '\'' => if lexer.inlineCode.isNone then readString first remaining else readOther remaining
  | '"' => if lexer.inlineCode.isNone then readString first remaining else readOther remaining
  | '$' => (readVariable remaining).getD (readOther remaining)
  | '@' => (readTag remaining).getD (readOther remaining)
  | '\\' =>
    if second.any isIdentifierStart then (.identifier, readIdentifier remaining)
    else readOther remaining
  | _ =>
    if isAsciiDigit first then readNumber remaining
    else if isIdentifierStart first then (.identifier, readIdentifier remaining)
    else readOther remaining

/-- A backtick run opens inline code, and a run of the same length closes it. -/
def inlineCodeAfter (inlineCode : Option ℕ) (kind : TokenKind) (length : ℕ) : Option ℕ :=
  if kind = .backtick then
    match inlineCode with
    | none => some length
    | some opened => if opened = length then none else some opened
  else inlineCode

def advance (lexer : DocblockLexer) : Option Token × DocblockLexer :=
  if lexer.input.hasReachedEof then (none, lexer)
  else
    let start := lexer.input.currentPosition
    let whitespaces := lexer.input.consumeWhitespaces
    if whitespaces.1 ≠ [] then
      (some ⟨.whitespace, whitespaces.1, start⟩,
        ⟨whitespaces.2, if whitespaces.1.any isNewline then none else lexer.inlineCode⟩)
    else
      match lexer.input.readRemaining with
      | [] => (none, lexer)
      | first :: rest =>
        let token := lexer.readToken first (first :: rest)
        let value := lexer.input.consume token.2
        (some ⟨token.1, value.1, start⟩,
          ⟨value.2, inlineCodeAfter lexer.inlineCode token.1 token.2⟩)

end DocblockLexer

end Mago.Phpdoc
