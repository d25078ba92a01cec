import Mago.Twig.Expression
import Mago.Library.Consumption

/-!
# The Twig expression parser

The parser of expressions by precedence climbing, over the significant tokens. It notes what stands
before each `=>` that it takes. The fuel bounds the nested calls and the turns of each loop.
-/
namespace Mago.Twig
open Mago.Syntax (byteString isAsciiAlphabetic isAsciiDigit byte)

/-! ## The token stream -/

inductive Message
  | text (message : String)
  | expectedOneOf (kinds : List TwigTokenKind)
  | unexpectedToken (kind : TwigTokenKind) (value : List UInt8)
  | invalidHashKey (kind : TwigTokenKind) (value : List UInt8)
  | unexpectedInString (kind : TwigTokenKind)
  deriving DecidableEq, Repr

inductive ParseError
  | unexpectedToken (message : Message) (token : TwigToken)
  | unexpectedExpression (message : Message) (expression : Expression)
  | unexpectedEof (message : Message) (position : ℕ)
  | recursionLimitExceeded (position : ℕ)

/-- What stands before a `=>`: an expression without parentheses around it, or one with. -/
inductive Arrow
  | bare (left : Expression)
  | grouped (inner : Expression)

abbrev Parser := Library.Parser TwigToken ParseError Arrow

open Library.Parser (lookahead position advance fail record recover note outOfFuel)

def TwigToken.stop (token : TwigToken) : ℕ := token.start + token.value.length

def expectedMessage (expected : List TwigTokenKind) : Message :=
  if expected.isEmpty then .text "unexpected token" else .expectedOneOf expected

def failUnexpected {α : Type} (found : Option TwigToken) (expected : List TwigTokenKind) :
    Parser α := do
  let position ← position
  match found with
  | some token => fail (.unexpectedToken (expectedMessage expected) token)
  | none => fail (.unexpectedEof (expectedMessage expected) position)

def consume : Parser TwigToken := do
  let token ← advance TwigToken.stop
  match token with
  | some token => pure token
  | none => failUnexpected none []

def eat (kind : TwigTokenKind) : Parser TwigToken := do
  let token ← lookahead 0
  match token with
  | some token => if token.kind = kind then consume else failUnexpected (some token) [kind]
  | none => failUnexpected none [kind]

def peekKind (n : ℕ) : Parser (Option TwigTokenKind) := do
  let token ← lookahead n
  pure (token.map TwigToken.kind)

def isAt (kind : TwigTokenKind) : Parser Bool := do
  let next ← peekKind 0
  pure (next == some kind)

/-- The next token if it is one of these. -/
def consumeIf (accepts : TwigToken → Bool) : Parser (Option TwigToken) := do
  let token ← lookahead 0
  match token with
  | some token =>
    if accepts token then do
      let token ← consume
      pure (some token)
    else pure none
  | none => pure none

def tryConsume (kind : TwigTokenKind) : Parser (Option TwigToken) :=
  consumeIf fun token => token.kind == kind

/-- Fails with its own message. -/
def expectThat (accepts : TwigTokenKind → Bool) (what : String) : Parser TwigToken := do
  let token ← lookahead 0
  match token with
  | some token =>
    if accepts token.kind then consume else fail (.unexpectedToken (.text what) token)
  | none => do
    let position ← position
    fail (.unexpectedEof (.text what) position)

def expectKind (kind : TwigTokenKind) (what : String) : Parser TwigToken :=
  expectThat (fun found => found == kind) what

def looksLikeIdentifier : List UInt8 → Bool
  | [] => false
  | c :: chars =>
    (isAsciiAlphabetic c || c == byte '_') &&
      chars.all fun c => isAsciiAlphabetic c || isAsciiDigit c || c == byte '_'

def isKeywordUsableAsName : TwigTokenKind → Bool
  | .and | .or | .xor | .in | .notIn | .is | .not | .matches | .startsWith | .endsWith | .hasSome
  | .hasEvery | .sameAs | .divisibleBy | .bAnd | .bOr | .bXor => true
  | _ => false

def isStartOfPrimary : TwigTokenKind → Bool
  | .name | .number | .stringSingleQuoted | .stringDoubleQuoted | .doubleQuoteStart | .plus | .minus
  | .not | .dotDotDot | .leftBracket | .leftParen | .leftBrace => true
  | _ => false

def expectIdentifier (what : String) : Parser TwigToken := expectKind .name what

def expectFlexibleIdentifier (what : String) : Parser TwigToken :=
  expectThat (fun kind => kind == .name || isKeywordUsableAsName kind) what

/-- A parser of expressions from a least precedence on. -/
abbrev ExpressionParser := ℕ → Parser Expression

/-! ## Delimited sequences -/

structure DelimitedSequence (α : Type) where
  opening : TwigToken
  nodes : List α
  separators : List TwigToken
  closing : TwigToken

section Sequences

variable {α : Type} (closeKind separatorKind : TwigTokenKind) (parseElement : Parser α)

def sequenceLoop : ℕ → List α → List TwigToken → Parser (List α × List TwigToken)
  | 0, _, _ => outOfFuel
  | fuel + 1, elements, separators => do
    let next ← lookahead 0
    match next with
    | none => failUnexpected none [closeKind]
    | some next =>
      if next.kind = closeKind then pure (elements, separators)
      else do
        let element ← recover parseElement
        let separator ← tryConsume separatorKind
        match separator with
        | some separator =>
          sequenceLoop fuel (elements ++ element.toList) (separators ++ [separator])
        | none => pure (elements ++ element.toList, separators)

def parseTokenSeparatedSequence (openKind : TwigTokenKind) (fuel : ℕ) :
    Parser (DelimitedSequence α) := do
  let opening ← eat openKind
  let sequence ← sequenceLoop closeKind separatorKind parseElement fuel [] []
  let current ← lookahead 0
  match current with
  | none => failUnexpected none [closeKind]
  | some current =>
    if current.kind = closeKind then do
      let _ ← consume
      pure ⟨opening, sequence.1, sequence.2, current⟩
    else do
      record (.unexpectedToken (expectedMessage [closeKind]) current)
      pure ⟨opening, sequence.1, sequence.2, current⟩

def parseCommaSeparatedSequence (openKind closeKind : TwigTokenKind) (parseElement : Parser α)
    (fuel : ℕ) : Parser (DelimitedSequence α) :=
  parseTokenSeparatedSequence closeKind .comma parseElement openKind fuel

end Sequences

section Parts

variable (parseWithPrecedence : ExpressionParser) (fuel : ℕ)

/-! ## Arguments and postfix forms -/

def parseArgument : Parser Argument := do
  let first ← peekKind 0
  let second ← peekKind 1
  if first = some .name ∧ (second = some .equal ∨ second = some .colon) then do
    let name ← consume
    let separator ← consume
    let value ← parseWithPrecedence 0
    pure (.named name separator value)
  else do
    let ellipsis ← tryConsume .dotDotDot
    let value ← parseWithPrecedence 0
    pure (.positional ellipsis value)

def parseArgumentList : Parser ArgumentList := do
  let result ← parseCommaSeparatedSequence .leftParen .rightParen
    (parseArgument parseWithPrecedence) fuel
  pure (.mk result.opening result.nodes result.separators result.closing)

def parseOptionalArgumentList : Parser (Option ArgumentList) := do
  let atParenthesis ← isAt .leftParen
  if atParenthesis then do
    let argumentList ← parseArgumentList parseWithPrecedence fuel
    pure (some argumentList)
  else pure none

def parseFilter (operand : Expression) (pipe : TwigToken) : Parser Expression := do
  let name ← expectIdentifier "expected filter name after `|`"
  let argumentList ← parseOptionalArgumentList parseWithPrecedence fuel
  pure (.filter operand pipe name argumentList)

def isFloatText (value : List UInt8) : Bool := value.contains (byte '.')

/-- The attribute after a dot, and the method where it can be one. -/
def parseAttribute : Parser (Expression × Option TwigToken) := do
  let token ← lookahead 0
  match token with
  | none => failUnexpected none [.name, .number]
  | some token =>
    if token.kind = .leftParen then do
      let _ ← consume
      let inner ← parseWithPrecedence 0
      let _ ← expectKind .rightParen "expected `)`"
      pure (inner, none)
    else if token.kind = .name then do
      let _ ← consume
      pure (.name token, some token)
    else if token.kind = .number then do
      let _ ← consume
      pure (.number token (isFloatText token.value), none)
    else if isKeywordUsableAsName token.kind && looksLikeIdentifier token.value then do
      let _ ← consume
      pure (.name token, some token)
    else fail (.unexpectedToken (.text "expected attribute name or number after `.`") token)

def parseDotAccess (object : Expression) (dot : TwigToken) (nullSafe : Bool) :
    Parser Expression := do
  let member ← parseAttribute parseWithPrecedence
  let atParenthesis ← isAt .leftParen
  if atParenthesis then do
    let argumentList ← parseArgumentList parseWithPrecedence fuel
    match member.2 with
    | some method => pure (.methodCall object dot nullSafe method argumentList)
    | none => pure (.call (.getAttribute object dot nullSafe member.1) argumentList)
  else pure (.getAttribute object dot nullSafe member.1)

def parseOptionalExpressionUntil (terminator : TwigTokenKind) : Parser (Option Expression) := do
  let atTerminator ← isAt terminator
  if atTerminator then pure none
  else do
    let expression ← parseWithPrecedence 0
    pure (some expression)

def parseBracketAccess (object : Expression) : Parser Expression := do
  let leftBracket ← consume
  let colon ← tryConsume .colon
  match colon with
  | some colon => do
    let length ← parseOptionalExpressionUntil parseWithPrecedence .rightBracket
    let rightBracket ← expectKind .rightBracket "expected `]`"
    pure (.slice object leftBracket none colon length rightBracket)
  | none => do
    let first ← parseWithPrecedence 0
    let colon ← tryConsume .colon
    match colon with
    | some colon => do
      let length ← parseOptionalExpressionUntil parseWithPrecedence .rightBracket
      let rightBracket ← expectKind .rightBracket "expected `]`"
      pure (.slice object leftBracket (some first) colon length rightBracket)
    | none => do
      let rightBracket ← expectKind .rightBracket "expected `]`"
      pure (.getItem object leftBracket first rightBracket)

def parseConditional (condition : Expression) : Parser Expression := do
  let questionMark ← consume
  let colon ← tryConsume .colon
  match colon with
  | some colon => do
    let elseBranch ← parseWithPrecedence 0
    pure (.conditional condition questionMark none (some colon) (some elseBranch))
  | none => do
    let thenBranch ← parseWithPrecedence 0
    let colon ← tryConsume .colon
    match colon with
    | some colon => do
      let elseBranch ← parseWithPrecedence 0
      pure (.conditional condition questionMark (some thenBranch) (some colon) (some elseBranch))
    | none => pure (.conditional condition questionMark (some thenBranch) none none)

def parseElvis (condition : Expression) : Parser Expression := do
  let questionColon ← consume
  let elseBranch ← parseWithPrecedence 0
  pure (.conditional condition questionColon none (some questionColon) (some elseBranch))

def parseTestArguments : Parser TestArguments := do
  let argumentList ← parseOptionalArgumentList parseWithPrecedence fuel
  match argumentList with
  | some argumentList => pure (.parenthesised argumentList)
  | none => do
    let next ← peekKind 0
    if next.any isStartOfPrimary then do
      let value ← parseWithPrecedence 100
      pure (.bare value)
    else pure .none

def isNotKeyword (token : TwigToken) : Bool :=
  (token.kind == .not || token.kind == .name) && token.value == byteString "not"

def isSecondWord (token : TwigToken) : Bool :=
  token.kind == .name && token.value != byteString "and" && token.value != byteString "or" &&
    token.value != byteString "xor"

def parseTest (operand : Expression) (isKeyword : TwigToken) : Parser Expression := do
  let notKeyword ← consumeIf isNotKeyword
  let name ← expectFlexibleIdentifier "expected test name"
  let secondWord ← consumeIf isSecondWord
  let arguments ← parseTestArguments parseWithPrecedence fuel
  pure (.test operand isKeyword notKeyword name secondWord arguments)

/-! ## Collections, strings and groups -/

def parseArrayElement : Parser ArrayElement := do
  let next ← lookahead 0
  match next with
  | some next =>
    if next.kind = .dotDotDot then do
      let ellipsis ← consume
      let value ← parseWithPrecedence 0
      pure (.variadic ellipsis value)
    else if next.kind = .comma then pure (.missing next)
    else do
      let value ← parseWithPrecedence 0
      pure (.value value)
  | none => do
    let value ← parseWithPrecedence 0
    pure (.value value)

def parseArray : Parser Expression := do
  let result ← parseCommaSeparatedSequence .leftBracket .rightBracket
    (parseArrayElement parseWithPrecedence) fuel
  pure (.array result.opening result.nodes result.separators result.closing)

def parseHashMapKey (token : TwigToken) : Parser Expression :=
  if token.kind = .name ∨ token.kind = .stringSingleQuoted ∨
      token.kind = .stringDoubleQuoted then do
    let _ ← consume
    pure (.string token)
  else if token.kind = .number then do
    let _ ← consume
    pure (.number token (isFloatText token.value))
  else if token.kind = .leftParen then do
    let leftParenthesis ← consume
    let inner ← parseWithPrecedence 0
    let rightParenthesis ← expectKind .rightParen "expected `)`"
    pure (.parenthesized leftParenthesis inner rightParenthesis)
  else fail (.unexpectedToken (.invalidHashKey token.kind token.value) token)

def endsShorthand : Option TwigTokenKind → Bool
  | none | some .comma | some .rightBrace => true
  | _ => false

def parseHashMapEntry : Parser HashMapEntry := do
  let ellipsis ← tryConsume .dotDotDot
  match ellipsis with
  | some ellipsis => do
    let value ← parseWithPrecedence 0
    pure (.mk (some ellipsis) none none value)
  | none => do
    let token ← lookahead 0
    match token with
    | none => failUnexpected none [.name]
    | some token => do
      let next ← peekKind 1
      if token.kind = .name ∧ endsShorthand next = true then do
        let _ ← consume
        pure (.mk none (some (.string token)) none (.name token))
      else do
        let key ← parseHashMapKey parseWithPrecedence token
        let colon ← expectKind .colon "expected `:`"
        let value ← parseWithPrecedence 0
        pure (.mk none (some key) (some colon) value)

def parseHashMap : Parser Expression := do
  let result ← parseCommaSeparatedSequence .leftBrace .rightBrace
    (parseHashMapEntry parseWithPrecedence) fuel
  pure (.hashMap result.opening result.nodes result.separators result.closing)

def interpolatedLoop (openQuote : TwigToken) : ℕ → List StringPart → Parser Expression
  | 0, _ => outOfFuel
  | fuel + 1, parts => do
    let token ← lookahead 0
    match token with
    | none => failUnexpected none [.doubleQuoteEnd]
    | some token =>
      if token.kind = .stringPart then do
        let _ ← consume
        interpolatedLoop openQuote fuel (parts ++ [.literal token])
      else if token.kind = .interpolationStart then do
        let openBrace ← consume
        let inner ← parseWithPrecedence 0
        let closeBrace ← expectKind .interpolationEnd "expected `\x7d` closing `#\x7b`"
        interpolatedLoop openQuote fuel (parts ++ [.interpolation openBrace inner closeBrace])
      else if token.kind = .doubleQuoteEnd then do
        let closeQuote ← consume
        pure (.interpolatedString openQuote parts closeQuote)
      else fail (.unexpectedToken (.unexpectedInString token.kind) token)

def parseInterpolatedString : Parser Expression := do
  let openQuote ← consume
  interpolatedLoop parseWithPrecedence openQuote fuel []

def maybeExtendString : ℕ → Expression → Parser Expression
  | 0, _ => outOfFuel
  | turns + 1, left => do
    let token ← lookahead 0
    match token with
    | some token =>
      if token.kind = .stringSingleQuoted ∨ token.kind = .stringDoubleQuoted then do
        let _ ← consume
        maybeExtendString turns (.binary ⟨.stringConcat, token⟩ left (.string token))
      else if token.kind = .doubleQuoteStart then do
        let rhs ← parseInterpolatedString parseWithPrecedence fuel
        maybeExtendString turns (.binary ⟨.stringConcat, token⟩ left rhs)
      else pure left
    | none => pure left

/-- The names after the first, each after its comma. -/
def parametersLoop : ℕ → List TwigToken → List TwigToken → Parser (List TwigToken × List TwigToken)
  | 0, _, _ => outOfFuel
  | fuel + 1, parameters, commas => do
    let comma ← tryConsume .comma
    match comma with
    | none => pure (parameters, commas)
    | some comma => do
      let atParenthesis ← isAt .rightParen
      if atParenthesis then pure (parameters, commas ++ [comma])
      else do
        let name ← expectKind .name "expected parameter name"
        parametersLoop fuel (parameters ++ [name]) (commas ++ [comma])

def finishArrowParameters (leftParenthesis : TwigToken) (inner : Expression) :
    Parser Expression :=
  match inner with
  | .name first => do
    let parameters ← parametersLoop fuel [first] []
    let rightParenthesis ← expectKind .rightParen "expected `)`"
    let fatArrow ← tryConsume .fatArrow
    match fatArrow with
    | some fatArrow => do
      let body ← parseWithPrecedence 0
      pure (.arrowFunction (some leftParenthesis) parameters.1 parameters.2
        (some rightParenthesis) fatArrow body)
    | none => do
      let next ← lookahead 0
      failUnexpected next [.fatArrow]
  | inner =>
    fail (.unexpectedExpression (.text "arrow function parameters must be simple names") inner)

def parseGroup : Parser Expression := do
  let leftParenthesis ← consume
  let atParenthesis ← isAt .rightParen
  if atParenthesis then do
    let rightParenthesis ← consume
    let fatArrow ← tryConsume .fatArrow
    match fatArrow with
    | some fatArrow => do
      let body ← parseWithPrecedence 0
      pure (.arrowFunction (some leftParenthesis) [] [] (some rightParenthesis) fatArrow body)
    | none => do
      let next ← lookahead 0
      failUnexpected next []
  else do
    let inner ← parseWithPrecedence 0
    let atComma ← isAt .comma
    if atComma then finishArrowParameters parseWithPrecedence fuel leftParenthesis inner
    else do
      let rightParenthesis ← expectKind .rightParen "expected `)`"
      let fatArrow ← tryConsume .fatArrow
      match fatArrow with
      | some fatArrow => do
        note (.grouped inner)
        match inner with
        | .name parameter => do
          let body ← parseWithPrecedence 0
          pure (.arrowFunction (some leftParenthesis) [parameter] [] (some rightParenthesis)
            fatArrow body)
        | inner => pure (.parenthesized leftParenthesis inner rightParenthesis)
      | none => pure (.parenthesized leftParenthesis inner rightParenthesis)

def arrowParametersFrom : Expression → List TwigToken
  | .name token => [token]
  | .parenthesized _ (.name token) _ => [token]
  | _ => []

/-! ## Precedence climbing -/

def isTrue (value : List UInt8) : Bool := value == byteString "true" || value == byteString "TRUE"

def isFalse (value : List UInt8) : Bool :=
  value == byteString "false" || value == byteString "FALSE"

def isNull (value : List UInt8) : Bool :=
  value == byteString "null" || value == byteString "NULL" || value == byteString "none" ||
    value == byteString "NONE"

def isFloatLiteral (value : List UInt8) : Bool :=
  value.contains (byte '.') || value.contains (byte 'e') || value.contains (byte 'E')

/-- A word without quotes: a literal or a name. -/
def nameExpression (token : TwigToken) : Expression :=
  if isTrue token.value then .bool true token
  else if isFalse token.value then .bool false token
  else if isNull token.value then .null token
  else .name token

def parsePrimary : Parser Expression := do
  let token ← lookahead 0
  match token with
  | none => failUnexpected none []
  | some token =>
    if token.kind = .number then do
      let _ ← consume
      pure (.number token (isFloatLiteral token.value))
    else if token.kind = .stringSingleQuoted ∨ token.kind = .stringDoubleQuoted then do
      let _ ← consume
      maybeExtendString parseWithPrecedence fuel fuel (.string token)
    else if token.kind = .doubleQuoteStart then do
      let expression ← parseInterpolatedString parseWithPrecedence fuel
      maybeExtendString parseWithPrecedence fuel fuel expression
    else if token.kind = .name then do
      let _ ← consume
      pure (nameExpression token)
    else if token.kind = .leftBracket then parseArray parseWithPrecedence fuel
    else if token.kind = .leftParen then parseGroup parseWithPrecedence fuel
    else if token.kind = .leftBrace then parseHashMap parseWithPrecedence fuel
    else if isKeywordUsableAsName token.kind && looksLikeIdentifier token.value then do
      let _ ← consume
      pure (.name token)
    else fail (.unexpectedToken (.unexpectedToken token.kind token.value) token)

def unaryOperator (kind : TwigTokenKind) : Option (UnaryOperatorKind × ℕ) :=
  match kind with
  | .minus => some (.minusSign, 500)
  | .plus => some (.plusSign, 500)
  | .not => some (.not, 50)
  | _ => none

def parsePrefix : Parser Expression := do
  let token ← lookahead 0
  match token with
  | none => failUnexpected none []
  | some token =>
    match unaryOperator token.kind with
    | some (operator, precedence) => do
      let _ ← consume
      let operand ← parseWithPrecedence precedence
      pure (.unary ⟨operator, token⟩ operand)
    | none => parsePrimary parseWithPrecedence fuel

/-- The operator, its precedence and whether it groups to the right. -/
def classifyBinaryOperator (kind : TwigTokenKind) : Option (BinaryOperatorKind × ℕ × Bool) :=
  match kind with
  | .or => some (.or, 10, false)
  | .xor => some (.xor, 12, false)
  | .and => some (.and, 15, false)
  | .bOr => some (.bitwiseOr, 16, false)
  | .bXor => some (.bitwiseXor, 17, false)
  | .bAnd => some (.bitwiseAnd, 18, false)
  | .equalEqual => some (.equal, 20, false)
  | .bangEqual => some (.notEqual, 20, false)
  | .spaceship => some (.spaceship, 20, false)
  | .lessThan => some (.lessThan, 20, false)
  | .greaterThan => some (.greaterThan, 20, false)
  | .lessThanEqual => some (.lessThanOrEqual, 20, false)
  | .greaterThanEqual => some (.greaterThanOrEqual, 20, false)
  | .equalEqualEqual => some (.identical, 20, false)
  | .bangEqualEqual => some (.notIdentical, 20, false)
  | .in => some (.in, 20, false)
  | .notIn => some (.notIn, 20, false)
  | .matches => some (.matches, 20, false)
  | .startsWith => some (.startsWith, 20, false)
  | .endsWith => some (.endsWith, 20, false)
  | .hasSome => some (.hasSome, 20, false)
  | .hasEvery => some (.hasEvery, 20, false)
  | .dotDot => some (.range, 25, false)
  | .plus => some (.addition, 30, false)
  | .minus => some (.subtraction, 30, false)
  | .tilde => some (.stringConcat, 40, false)
  | .asterisk => some (.multiplication, 60, false)
  | .slash => some (.division, 60, false)
  | .slashSlash => some (.floorDivision, 60, false)
  | .percent => some (.modulo, 60, false)
  | .asteriskAsterisk => some (.exponentiation, 200, true)
  | .questionQuestion => some (.nullCoalesce, 300, true)
  | _ => none

def canCall : Expression → Bool
  | .name _ | .getAttribute _ _ _ _ | .getItem _ _ _ _ | .parenthesized _ _ _ | .bool _ _
  | .null _ => true
  | _ => false

/-- One turn of the loop: the expression extended, or none where the loop breaks. -/
def extend (minPrecedence : ℕ) (left : Expression) (token : TwigToken) :
    Parser (Option Expression) :=
  if minPrecedence = 0 ∧ token.kind = .equal then do
    let operator ← consume
    let rhs ← parseWithPrecedence 0
    pure (some (.binary ⟨.assignment, operator⟩ left rhs))
  else
    match classifyBinaryOperator token.kind with
    | some (operator, precedence, rightAssociative) =>
      if precedence < minPrecedence then pure none
      else do
        let _ ← consume
        let rhs ← parseWithPrecedence (if rightAssociative then precedence else precedence + 1)
        pure (some (.binary ⟨operator, token⟩ left rhs))
    | none =>
      if token.kind = .question ∧ minPrecedence ≤ 3 then do
        let expression ← parseConditional parseWithPrecedence left
        pure (some expression)
      else if token.kind = .questionColon ∧ minPrecedence ≤ 3 then do
        let expression ← parseElvis parseWithPrecedence left
        pure (some expression)
      else if token.kind = .pipe then do
        let pipe ← consume
        let expression ← parseFilter parseWithPrecedence fuel left pipe
        pure (some expression)
      else if token.kind = .dot then do
        let dot ← consume
        let expression ← parseDotAccess parseWithPrecedence fuel left dot false
        pure (some expression)
      else if token.kind = .questionDot then do
        let dot ← consume
        let expression ← parseDotAccess parseWithPrecedence fuel left dot true
        pure (some expression)
      else if token.kind = .leftBracket then do
        let expression ← parseBracketAccess parseWithPrecedence left
        pure (some expression)
      else if token.kind = .leftParen ∧ canCall left = true then do
        let argumentList ← parseArgumentList parseWithPrecedence fuel
        pure (some (.call left argumentList))
      else if token.kind = .is then do
        let isKeyword ← consume
        let expression ← parseTest parseWithPrecedence fuel left isKeyword
        pure (some expression)
      else if token.kind = .fatArrow then do
        let fatArrow ← consume
        note (.bare left)
        let body ← parseWithPrecedence 0
        pure (some (.arrowFunction none (arrowParametersFrom left) [] none fatArrow body))
      else pure none

def expressionLoop (minPrecedence : ℕ) : ℕ → Expression → Parser Expression
  | 0, _ => outOfFuel
  | turns + 1, left => do
    let token ← lookahead 0
    match token with
    | none => pure left
    | some token => do
      let extended ← extend parseWithPrecedence fuel minPrecedence left token
      match extended with
      | some left => expressionLoop minPrecedence turns left
      | none => pure left

end Parts

def maxRecursionDepth : ℕ := 512

/-- The depth is that of the calls around this one. -/
def parseExpressionWithPrecedence : ℕ → ℕ → ExpressionParser
  | 0, _, _ => outOfFuel
  | fuel + 1, depth, minPrecedence =>
    if maxRecursionDepth < depth + 1 then do
      let position ← position
      fail (.recursionLimitExceeded position)
    else do
      let left ← parsePrefix (parseExpressionWithPrecedence fuel (depth + 1)) fuel
      expressionLoop (parseExpressionWithPrecedence fuel (depth + 1)) fuel minPrecedence fuel left

def parseExpression (fuel depth : ℕ) : Parser Expression :=
  parseExpressionWithPrecedence fuel depth 0

end Mago.Twig
