import Mago.Twig.Token

/-!
# Twig expressions

The tree of an expression. A node has the tokens of which the source keeps the text or the place;
the commas of a list are kept beside its elements.
-/
namespace Mago.Twig

inductive UnaryOperatorKind
  | minusSign | plusSign | not
  deriving DecidableEq, Repr

structure UnaryOperator where
  kind : UnaryOperatorKind
  token : TwigToken
  deriving DecidableEq, Repr

inductive BinaryOperatorKind
  | addition | subtraction | multiplication | division | floorDivision | modulo | exponentiation
  | stringConcat | range | equal | notEqual | lessThan | lessThanOrEqual | greaterThan
  | greaterThanOrEqual | spaceship | identical | notIdentical | and | or | xor | bitwiseAnd
  | bitwiseOr | bitwiseXor | nullCoalesce | «in» | notIn | matches | startsWith | endsWith
  | hasSome | hasEvery | assignment
  deriving DecidableEq, Repr

/-- A concatenation without an operator has the first token of its right side. -/
structure BinaryOperator where
  kind : BinaryOperatorKind
  token : TwigToken
  deriving DecidableEq, Repr

mutual

inductive Expression
  | name (token : TwigToken)
  | number (token : TwigToken) (isFloat : Bool)
  | string (token : TwigToken)
  | bool (value : Bool) (token : TwigToken)
  | null (token : TwigToken)
  | interpolatedString (openQuote : TwigToken) (parts : List StringPart) (closeQuote : TwigToken)
  | array (leftBracket : TwigToken) (elements : List ArrayElement) (commas : List TwigToken)
      (rightBracket : TwigToken)
  | hashMap (leftBrace : TwigToken) (entries : List HashMapEntry) (commas : List TwigToken)
      (rightBrace : TwigToken)
  | parenthesized (leftParenthesis : TwigToken) (inner : Expression)
      (rightParenthesis : TwigToken)
  | unary (operator : UnaryOperator) (operand : Expression)
  | binary (operator : BinaryOperator) (lhs rhs : Expression)
  | conditional (condition : Expression) (questionMark : TwigToken) (thenBranch : Option Expression)
      (colon : Option TwigToken) (elseBranch : Option Expression)
  | filter (operand : Expression) (pipe name : TwigToken) (argumentList : Option ArgumentList)
  | getAttribute (object : Expression) (dot : TwigToken) (nullSafe : Bool)
      (member : Expression)
  | getItem (object : Expression) (leftBracket : TwigToken) (index : Expression)
      (rightBracket : TwigToken)
  | slice (object : Expression) (leftBracket : TwigToken) (start : Option Expression)
      (colon : TwigToken) (length : Option Expression) (rightBracket : TwigToken)
  | methodCall (object : Expression) (dot : TwigToken) (nullSafe : Bool) (method : TwigToken)
      (argumentList : ArgumentList)
  | call (callee : Expression) (argumentList : ArgumentList)
  | test (operand : Expression) (isKeyword : TwigToken) (notKeyword : Option TwigToken)
      (name : TwigToken) (secondWord : Option TwigToken) (arguments : TestArguments)
  | arrowFunction (leftParenthesis : Option TwigToken) (parameters commas : List TwigToken)
      (rightParenthesis : Option TwigToken) (fatArrow : TwigToken) (body : Expression)

inductive StringPart
  | literal (token : TwigToken)
  | interpolation (openBrace : TwigToken) (expression : Expression) (closeBrace : TwigToken)

inductive ArrayElement
  | value (value : Expression)
  | variadic (ellipsis : TwigToken) (value : Expression)
  | missing (comma : TwigToken)

inductive HashMapEntry
  | mk (ellipsis : Option TwigToken) (key : Option Expression) (colon : Option TwigToken)
      (value : Expression)

inductive Argument
  | positional (ellipsis : Option TwigToken) (value : Expression)
  | named (name separator : TwigToken) (value : Expression)

inductive ArgumentList
  | mk (leftParenthesis : TwigToken) (arguments : List Argument) (commas : List TwigToken)
      (rightParenthesis : TwigToken)

inductive TestArguments
  | none
  | parenthesised (argumentList : ArgumentList)
  | bare (value : Expression)

end

/-! ## The tokens of a tree -/

/-- All tokens but brackets, commas and dots. -/
def TwigTokenKind.isHeld : TwigTokenKind → Bool
  | leftParen | rightParen | leftBracket | rightBracket | leftBrace | rightBrace
  | interpolationStart | interpolationEnd | comma | dot => false
  | _ => true

def heldOf (tokens : List TwigToken) : List TwigToken :=
  tokens.filter fun token => token.kind.isHeld

/-- No operator stands between strings that follow each other. -/
def BinaryOperator.held (operator : BinaryOperator) : List TwigToken :=
  match operator.token.kind with
  | .stringSingleQuoted | .stringDoubleQuoted | .doubleQuoteStart => []
  | _ => [operator.token]

/-- Both halves of `?:` are one token. -/
def colonHeld (questionMark : TwigToken) (colon : Option TwigToken) : List TwigToken :=
  if questionMark.kind = .questionColon then [] else colon.toList

mutual

/-- The tokens of a tree in their order, without brackets, commas and dots. -/
def Expression.held : Expression → List TwigToken
  | .name token => [token]
  | .number token _ => [token]
  | .string token => [token]
  | .bool _ token => [token]
  | .null token => [token]
  | .interpolatedString openQuote parts closeQuote =>
    openQuote :: (heldParts parts ++ [closeQuote])
  | .array _ elements _ _ => heldElements elements
  | .hashMap _ entries _ _ => heldEntries entries
  | .parenthesized _ inner _ => inner.held
  | .unary operator operand => operator.token :: operand.held
  | .binary operator lhs rhs => lhs.held ++ (operator.held ++ rhs.held)
  | .conditional condition questionMark thenBranch colon elseBranch =>
    condition.held ++ (questionMark ::
      (heldOption thenBranch ++ (colonHeld questionMark colon ++ heldOption elseBranch)))
  | .filter operand pipe name argumentList =>
    operand.held ++ (pipe :: name :: heldArgumentList argumentList)
  | .getAttribute object dot _ member => object.held ++ (heldOf [dot] ++ member.held)
  | .getItem object _ index _ => object.held ++ index.held
  | .slice object _ start colon length _ =>
    object.held ++ (heldOption start ++ (colon :: heldOption length))
  | .methodCall object dot _ method argumentList =>
    object.held ++ (heldOf [dot] ++ (method :: argumentList.held))
  | .call callee argumentList => callee.held ++ argumentList.held
  | .test operand isKeyword notKeyword name secondWord arguments =>
    operand.held ++ (isKeyword ::
      (notKeyword.toList ++ (name :: (secondWord.toList ++ arguments.held))))
  | .arrowFunction _ parameters _ _ fatArrow body => parameters ++ (fatArrow :: body.held)

def heldOption : Option Expression → List TwigToken
  | none => []
  | some expression => expression.held

def StringPart.held : StringPart → List TwigToken
  | .literal token => [token]
  | .interpolation _ expression _ => expression.held

def heldParts : List StringPart → List TwigToken
  | [] => []
  | part :: parts => part.held ++ heldParts parts

def ArrayElement.held : ArrayElement → List TwigToken
  | .value value => value.held
  | .variadic ellipsis value => ellipsis :: value.held
  | .missing _ => []

def heldElements : List ArrayElement → List TwigToken
  | [] => []
  | element :: elements => element.held ++ heldElements elements

/-- A shorthand has one token for its key and its value. -/
def HashMapEntry.held : HashMapEntry → List TwigToken
  | .mk ellipsis key colon value =>
    ellipsis.toList ++
      ((if colon.isSome then heldOption key else []) ++ (colon.toList ++ value.held))

def heldEntries : List HashMapEntry → List TwigToken
  | [] => []
  | entry :: entries => entry.held ++ heldEntries entries

def Argument.held : Argument → List TwigToken
  | .positional ellipsis value => ellipsis.toList ++ value.held
  | .named name separator value => name :: separator :: value.held

def heldArguments : List Argument → List TwigToken
  | [] => []
  | argument :: arguments => argument.held ++ heldArguments arguments

def ArgumentList.held : ArgumentList → List TwigToken
  | .mk _ arguments _ _ => heldArguments arguments

def heldArgumentList : Option ArgumentList → List TwigToken
  | none => []
  | some argumentList => argumentList.held

def TestArguments.held : TestArguments → List TwigToken
  | .none => []
  | .parenthesised argumentList => argumentList.held
  | .bare value => value.held

end

theorem heldOf_append (tokens tokens' : List TwigToken) :
    heldOf (tokens ++ tokens') = heldOf tokens ++ heldOf tokens' := List.filter_append ..

theorem heldOf_held {token : TwigToken} (h : token.kind.isHeld = true) :
    heldOf [token] = [token] := by
  simp [heldOf, h]

theorem heldOf_skipped {token : TwigToken} (h : token.kind.isHeld = false) :
    heldOf [token] = [] := by
  simp [heldOf, h]

theorem heldParts_eq (parts : List StringPart) :
    heldParts parts = parts.flatMap StringPart.held := by
  induction parts with
  | nil => rfl
  | cons part parts ih => rw [heldParts, ih, List.flatMap_cons]

theorem heldElements_eq (elements : List ArrayElement) :
    heldElements elements = elements.flatMap ArrayElement.held := by
  induction elements with
  | nil => rfl
  | cons element elements ih => rw [heldElements, ih, List.flatMap_cons]

theorem heldEntries_eq (entries : List HashMapEntry) :
    heldEntries entries = entries.flatMap HashMapEntry.held := by
  induction entries with
  | nil => rfl
  | cons entry entries ih => rw [heldEntries, ih, List.flatMap_cons]

theorem heldArguments_eq (arguments : List Argument) :
    heldArguments arguments = arguments.flatMap Argument.held := by
  induction arguments with
  | nil => rfl
  | cons argument arguments ih => rw [heldArguments, ih, List.flatMap_cons]

theorem held_call (callee : Expression) (argumentList : ArgumentList) :
    (Expression.call callee argumentList).held = callee.held ++ argumentList.held := by
  simp only [Expression.held]

/-- A plain name. -/
def Expression.isName : Expression → Bool
  | .name _ => true
  | _ => false

end Mago.Twig
