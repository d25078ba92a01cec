import Mago.Syntax.Input

/-!
# Twig tokens

The kinds of tokens and the tables the lexer looks operators and words up in.
-/
namespace Mago.Twig
open Mago.Syntax

inductive TwigTokenKind
  | rawText | verbatimText | openBlock | openBlockDash | openBlockTilde | closeBlock
  | closeBlockDash | closeBlockTilde | openVariable | openVariableDash | openVariableTilde
  | closeVariable | closeVariableDash | closeVariableTilde | comment | inlineComment | name
  | number | stringSingleQuoted | stringDoubleQuoted | doubleQuoteStart | doubleQuoteEnd
  | stringPart | interpolationStart | interpolationEnd | whitespace | leftParen | rightParen
  | leftBracket | rightBracket | leftBrace | rightBrace | comma | colon | dot | question | pipe
  | equal | fatArrow | plus | minus | asterisk | slash | percent | asteriskAsterisk | slashSlash
  | equalEqual | bangEqual | equalEqualEqual | bangEqualEqual | lessThan | greaterThan
  | lessThanEqual | greaterThanEqual | spaceship | tilde | dotDot | dotDotDot | questionQuestion
  | questionColon | questionDot | and | or | xor | bAnd | bOr | bXor | «in» | notIn | is | not
  | matches | startsWith | endsWith | hasSome | hasEvery | sameAs | divisibleBy
  deriving DecidableEq, Repr

def TwigTokenKind.isTrivia : TwigTokenKind → Bool
  | whitespace | inlineComment | comment => true
  | _ => false

structure TwigToken where
  kind : TwigTokenKind
  value : List UInt8
  start : ℕ
  deriving DecidableEq, Repr

/-- The errors, each with its position. -/
inductive SyntaxError
  | unexpectedCharacter (character : UInt8) (position : ℕ)
  | unclosedVerbatim (position : ℕ)
  | unclosedComment (position : ℕ)
  | unclosedString (position : ℕ)
  | unclosedBracket (opener : UInt8) (position : ℕ)
  | unmatchedBracket (closer : UInt8) (position : ℕ)
  | unclosedTag (tagName : String) (position : ℕ)
  deriving DecidableEq, Repr

inductive ByteClass
  | other | whitespace | digit | identifierStart | singleQuote | doubleQuote | hash
  deriving DecidableEq, Repr

def isWhitespaceByte (b : UInt8) : Bool := decide (b ∈ [0x20, 0x09, 0x0D, 0x0A, 0x0B, 0x0C])

/-- Whether a byte may continue an identifier. -/
def isWordByte (b : UInt8) : Bool :=
  isAsciiAlphabetic b || isAsciiDigit b || b == byte '_' || decide (0x80 ≤ b)

def byteClass (b : UInt8) : ByteClass :=
  if isWhitespaceByte b then .whitespace
  else if isAsciiDigit b then .digit
  else if isAsciiAlphabetic b || b == byte '_' || decide (0x80 ≤ b) then .identifierStart
  else if b = byte '\'' then .singleQuote
  else if b = byte '"' then .doubleQuote
  else if b = byte '#' then .hash
  else .other

/-- Zero for a byte that opens no bracket. -/
def matchingCloser (opener : UInt8) : UInt8 :=
  match char opener with
  | '(' => byte ')'
  | '[' => byte ']'
  | '\x7b' => byte '\x7d'
  | _ => 0

def threeByteOperator (b0 : UInt8) (b1 b2 : Option UInt8) : Option (TwigTokenKind × ℕ) :=
  match char b0, b1.map char, b2.map char with
  | '<', some '=', some '>' => some (.spaceship, 3)
  | '=', some '=', some '=' => some (.equalEqualEqual, 3)
  | '!', some '=', some '=' => some (.bangEqualEqual, 3)
  | '.', some '.', some '.' => some (.dotDotDot, 3)
  | _, _, _ => none

def twoByteOperator (b0 : UInt8) (b1 : Option UInt8) : Option (TwigTokenKind × ℕ) :=
  match char b0, b1.map char with
  | '=', some '=' => some (.equalEqual, 2)
  | '!', some '=' => some (.bangEqual, 2)
  | '<', some '=' => some (.lessThanEqual, 2)
  | '>', some '=' => some (.greaterThanEqual, 2)
  | '*', some '*' => some (.asteriskAsterisk, 2)
  | '/', some '/' => some (.slashSlash, 2)
  | '?', some '?' => some (.questionQuestion, 2)
  | '?', some ':' => some (.questionColon, 2)
  | '?', some '.' => some (.questionDot, 2)
  | '.', some '.' => some (.dotDot, 2)
  | '=', some '>' => some (.fatArrow, 2)
  | _, _ => none

def openerKind (b : UInt8) : Option TwigTokenKind :=
  match char b with
  | '(' => some .leftParen
  | '[' => some .leftBracket
  | '\x7b' => some .leftBrace
  | _ => none

def closerKind (b : UInt8) : Option TwigTokenKind :=
  match char b with
  | ')' => some .rightParen
  | ']' => some .rightBracket
  | '\x7d' => some .rightBrace
  | _ => none

def singleByteSymbol (b : UInt8) : Option TwigTokenKind :=
  match char b with
  | ',' => some .comma
  | ':' => some .colon
  | '.' => some .dot
  | '?' => some .question
  | '|' => some .pipe
  | '=' => some .equal
  | '+' => some .plus
  | '-' => some .minus
  | '*' => some .asterisk
  | '/' => some .slash
  | '%' => some .percent
  | '~' => some .tilde
  | '<' => some .lessThan
  | '>' => some .greaterThan
  | _ => none

/-- The first words of operators of two words, each with its second words. -/
def multiWordOpeners : List (List UInt8 × List (List UInt8 × TwigTokenKind)) :=
  [(byteString "not", [(byteString "in", .notIn)]),
    (byteString "starts", [(byteString "with", .startsWith)]),
    (byteString "ends", [(byteString "with", .endsWith)]),
    (byteString "has", [(byteString "some", .hasSome), (byteString "every", .hasEvery)]),
    (byteString "same", [(byteString "as", .sameAs)]),
    (byteString "divisible", [(byteString "by", .divisibleBy)])]

def continuationWordsFor (first : List UInt8) : Option (List (List UInt8 × TwigTokenKind)) :=
  multiWordOpeners.lookup first

def singleWordOperatorKind (name : List UInt8) : Option TwigTokenKind :=
  [(byteString "and", TwigTokenKind.and), (byteString "or", .or), (byteString "xor", .xor),
    (byteString "not", .not), (byteString "in", .in), (byteString "is", .is),
    (byteString "matches", .matches)].lookup name

theorem threeByteOperator_length {b0 : UInt8} {b1 b2 : Option UInt8} {kind : TwigTokenKind}
    {length : ℕ} (h : threeByteOperator b0 b1 b2 = some (kind, length)) :
    length = 3 ∧ b1.isSome ∧ b2.isSome := by
  unfold threeByteOperator at h
  split at h <;> cases b1 <;> cases b2 <;> simp_all

theorem twoByteOperator_length {b0 : UInt8} {b1 : Option UInt8} {kind : TwigTokenKind}
    {length : ℕ} (h : twoByteOperator b0 b1 = some (kind, length)) :
    length = 2 ∧ b1.isSome := by
  unfold twoByteOperator at h
  split at h <;> cases b1 <;> simp_all

end Mago.Twig
