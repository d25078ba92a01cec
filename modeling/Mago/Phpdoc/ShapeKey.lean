import Mago.Phpdoc.Stream
import Mago.Syntax.IntegerLiteral

/-!
# Keys of shapes

The key of a field of a shape is a string, an integer with an optional sign, or a class
constant. An integer whose magnitude is no signed one becomes zero.
-/
namespace Mago.Phpdoc

open Mago.Syntax
open Mago.Syntax.Literal (parseLiteralInteger IntegerLiteral u64Max)

structure Identifier where
  span : Span
  value : List UInt8
  deriving DecidableEq

def Identifier.fromToken (token : Token) : Identifier := ⟨token.spanFor, token.value⟩

inductive ShapeKey
  | string (value : List UInt8) (span : Span)
  | integer (value : ℤ) (span : Span)
  | classLikeConstant (className : Identifier) (doubleColon : Span) (constantName : Identifier)
      (span : Span)
  deriving DecidableEq

def i64Max : ℤ := 9223372036854775807

def i64Min : ℤ := -9223372036854775808

/-- A number that is no signed integer is taken for zero. -/
def i64TryFrom (n : ℕ) : ℤ := if (n : ℤ) ≤ i64Max then n else 0

/-- There is no opposite of the least integer. -/
def checkedNeg (n : ℤ) : Option ℤ := if n = i64Min then none else some (-n)

def magnitude (raw : List UInt8) : ℤ := i64TryFrom ((parseLiteralInteger raw).getD 0)

namespace TokenStream

def isAtMemberIdentifierAt (s : TokenStream) (offset : ℕ) : Bool :=
  (s.lookahead offset).any fun token => token.kind == .identifier

def eatMemberIdentifier : Parser Token := eat .identifier

/-- A sign, and the number behind it. -/
def parseSignedKey : Parser ShapeKey := do
  let signToken ← consume
  let isNegative := signToken.kind == .minus
  let token ← consume
  let span : Span := ⟨signToken.start, token.stop⟩
  if token.kind = .literalInteger then
    let magnitude := magnitude token.value
    let value := if isNegative then (checkedNeg magnitude).getD 0 else magnitude
    return .integer value span
  else
    let s ← get
    return .string (s.rawBetween signToken.start token.stop) span

def parseConstantKey : Parser ShapeKey := do
  let classToken ← consume
  let className := Identifier.fromToken classToken
  let doubleColon ← eatSpan .colonColon
  let constantToken ← eatMemberIdentifier
  let constantName := Identifier.fromToken constantToken
  return .classLikeConstant className doubleColon constantName
    (className.span.join constantName.span)

def parseShapeFieldKey : Parser ShapeKey := do
  let s ← get
  if s.isAt .singleQuotedString || s.isAt .doubleQuotedString then
    let token ← consume
    return .string ((token.value.take (token.value.length - 1)).drop 1) token.spanFor
  else if s.isAt .literalInteger then
    let token ← consume
    return .integer (magnitude token.value) token.spanFor
  else if s.isAt .literalFloat then
    let token ← consume
    return .string token.value token.spanFor
  else if (s.isAt .minus || s.isAt .plus) &&
      ((s.lookahead 1).any fun t => t.kind == .literalInteger || t.kind == .literalFloat) then
    parseSignedKey
  else if s.isAt .identifier && ((s.lookahead 1).any fun t => t.kind == .colonColon) &&
      s.isAtMemberIdentifierAt 2 then
    parseConstantKey
  else
    let token ← eat .identifier
    return .string token.value token.spanFor

end TokenStream

/-! ## Integer keys -/

inductive Sign
  | none
  | plus
  | minus
  deriving DecidableEq

/-- A literal with an optional sign, as it is written for a key. -/
structure IntegerSpelling where
  sign : Sign
  literal : IntegerLiteral

namespace IntegerSpelling

variable (k : IntegerSpelling)

def value : ℤ := if k.sign = .minus then -k.literal.value else k.literal.value

/-- The tokens of a spelling, wherever they stand. -/
def Tokens (tokens : List Token) : Prop :=
  ∃ start, match k.sign with
    | .none => tokens = [⟨.literalInteger, k.literal.raw, start⟩]
    | .plus => ∃ signStart, tokens =
        [⟨.plus, byteString "+", signStart⟩, ⟨.literalInteger, k.literal.raw, start⟩]
    | .minus => ∃ signStart, tokens =
        [⟨.minus, byteString "-", signStart⟩, ⟨.literalInteger, k.literal.raw, start⟩]

/-- The integer that the key becomes. -/
def read : ℤ := if -i64Max ≤ k.value ∧ k.value ≤ i64Max then k.value else 0

end IntegerSpelling

theorem magnitude_raw (l : IntegerLiteral) :
    magnitude l.raw = if (l.value : ℤ) ≤ i64Max then (l.value : ℤ) else 0 := by
  rw [magnitude, l.parseLiteralInteger_raw, Option.getD_some, i64TryFrom]
  have hmax : i64Max < (u64Max : ℤ) := by decide
  by_cases h : (l.value : ℤ) ≤ i64Max
  · have hmin : min l.value u64Max = l.value := by omega
    rw [hmin]
  · rw [if_neg h, if_neg]
    rw [Nat.cast_min]
    omega

namespace TokenStream

variable {s : TokenStream} {token signToken : Token} {rest : List Token}

theorem isAt_cons (h : s.tokens = token :: rest) (kind : TokenKind) :
    s.isAt kind = (token.kind == kind) := by
  simp [isAt, peekKind, lookahead, h]

theorem parseShapeFieldKey_integer (h : s.tokens = token :: rest)
    (hkind : token.kind = .literalInteger) :
    parseShapeFieldKey s =
      .ok (.integer (magnitude token.value) token.spanFor, s.behind token rest) := by
  have hat := isAt_cons h
  simp only [hkind] at hat
  simp [parseShapeFieldKey, hat, consume_cons h, bind, StateT.bind, get, getThe,
    MonadStateOf.get, StateT.get, pure, StateT.pure, Except.pure, Except.bind]

theorem parseShapeFieldKey_signed (h : s.tokens = signToken :: token :: rest)
    (hsign : signToken.kind = .minus ∨ signToken.kind = .plus)
    (hkind : token.kind = .literalInteger) :
    parseShapeFieldKey s =
      .ok (.integer (if signToken.kind = .minus then (checkedNeg (magnitude token.value)).getD 0
        else magnitude token.value) ⟨signToken.start, token.stop⟩,
        (s.behind signToken (token :: rest)).behind token rest) := by
  have hat := isAt_cons h
  have hnext : s.lookahead 1 = some token := by
    rw [lookahead, h]
    rfl
  have hsigned : parseShapeFieldKey s = parseSignedKey s := by
    obtain hsign | hsign := hsign
    · simp only [hsign] at hat
      simp [parseShapeFieldKey, hat, hnext, hkind, bind, StateT.bind, get, getThe,
        MonadStateOf.get, StateT.get, pure, Except.pure, Except.bind]
    · simp only [hsign] at hat
      simp [parseShapeFieldKey, hat, hnext, hkind, bind, StateT.bind, get, getThe,
        MonadStateOf.get, StateT.get, pure, Except.pure, Except.bind]
  have hrest : (s.behind signToken (token :: rest)).tokens = token :: rest := rfl
  rw [hsigned]
  simp [parseSignedKey, consume_cons h, consume_cons hrest, hkind, bind, StateT.bind,
    pure, StateT.pure, Except.pure, Except.bind]

end TokenStream

namespace IntegerSpelling

open TokenStream

variable {k k' : IntegerSpelling} {s s' : TokenStream}

/-- The integer that a parsed key is. -/
def integerOf : Except ParseError (ShapeKey × TokenStream) → Option ℤ
  | .ok (.integer value _, _) => some value
  | _ => none

/-- The stream starts with the tokens of the spelling. -/
def Starts (k : IntegerSpelling) (s : TokenStream) : Prop :=
  ∃ tokens rest, k.Tokens tokens ∧ s.tokens = tokens ++ rest

theorem checkedNeg_magnitude (l : IntegerLiteral) :
    (checkedNeg (magnitude l.raw)).getD 0 = -magnitude l.raw := by
  have hmin : i64Min < 0 := by decide
  have hne : magnitude l.raw ≠ i64Min := by
    rw [magnitude_raw]
    split
    · omega
    · omega
  rw [checkedNeg, if_neg hne, Option.getD_some]

/-- The key is the number where its magnitude is a signed integer, and zero elsewhere. -/
theorem integerOf_parseShapeFieldKey (h : k.Starts s) :
    integerOf (parseShapeFieldKey s) = some k.read := by
  obtain ⟨tokens, rest, htokens, hs⟩ := h
  obtain ⟨sign, l⟩ := k
  have hmax : 0 < i64Max := by decide
  obtain ⟨start, htokens⟩ := htokens
  cases sign with
  | none =>
    simp only [] at htokens
    have hvalue : value ⟨.none, l⟩ = l.value := rfl
    rw [htokens] at hs
    rw [parseShapeFieldKey_integer hs rfl, integerOf, read, hvalue, magnitude_raw]
    split
    · rw [if_pos ⟨by omega, by assumption⟩]
    · rw [if_neg (by omega)]
  | plus =>
    simp only [] at htokens
    have hvalue : value ⟨.plus, l⟩ = l.value := rfl
    obtain ⟨signStart, htokens⟩ := htokens
    rw [htokens] at hs
    rw [parseShapeFieldKey_signed hs (Or.inr rfl) rfl, if_neg (by simp), integerOf, read, hvalue,
      magnitude_raw]
    split
    · rw [if_pos ⟨by omega, by assumption⟩]
    · rw [if_neg (by omega)]
  | minus =>
    simp only [] at htokens
    have hvalue : value ⟨.minus, l⟩ = -l.value := rfl
    obtain ⟨signStart, htokens⟩ := htokens
    rw [htokens] at hs
    rw [parseShapeFieldKey_signed hs (Or.inl rfl) rfl, if_pos rfl, checkedNeg_magnitude, integerOf,
      read, hvalue, magnitude_raw]
    split
    · rw [if_pos (by omega)]
    · rw [if_neg (by omega), neg_zero]

/-- A key that is zero for its value, or for its size. -/
def Collapses (k : IntegerSpelling) : Prop :=
  k.value = 0 ∨ ¬ (-i64Max ≤ k.value ∧ k.value ≤ i64Max)

theorem read_eq_zero_iff : k.read = 0 ↔ k.Collapses := by
  rw [read, Collapses]
  split
  · tauto
  · tauto

theorem read_eq_iff : k.read = k'.read ↔ k.value = k'.value ∨ k.Collapses ∧ k'.Collapses := by
  rw [← read_eq_zero_iff, ← read_eq_zero_iff, read, read]
  split
  · split
    · omega
    · have hne : k.value ≠ k'.value := by
        intro heq
        omega
      omega
  · split
    · have hne : k.value ≠ k'.value := by
        intro heq
        omega
      omega
    · simp

/-- A spelling of a 64-bit integer becomes that integer unless it is the least one, and spellings
of different numbers become different keys unless both are taken for zero. -/
theorem parseShapeFieldKey_exact_iff (k k' : IntegerSpelling) (s s' : TokenStream)
    (hs : k.Starts s) (hs' : k'.Starts s') :
    ((i64Min ≤ k.value ∧ k.value ≤ i64Max →
        integerOf (parseShapeFieldKey s) = some k.value) ↔ k.value ≠ i64Min) ∧
      ((k.value ≠ k'.value →
          integerOf (parseShapeFieldKey s) ≠ integerOf (parseShapeFieldKey s')) ↔
        ¬ (k.value ≠ k'.value ∧ k.Collapses ∧ k'.Collapses)) := by
  have hmin : i64Min = -i64Max - 1 := by decide
  have hmax : 0 < i64Max := by decide
  rw [integerOf_parseShapeFieldKey hs, integerOf_parseShapeFieldKey hs']
  simp only [Option.some.injEq, Ne, read_eq_iff]
  refine ⟨?_, by tauto⟩
  rw [read]
  constructor
  · intro h heq
    have hread := h (by omega)
    rw [if_neg (by omega)] at hread
    omega
  · rintro hne ⟨hlow, hup⟩
    rw [if_pos (by omega)]

/-- A number in decimal digits. -/
def ofDigits (sign : Sign) (body : List UInt8) (hbody : Literal.IsBody 10 body)
    (hlead : body.head? ≠ some (byte '0')) : IntegerSpelling where
  sign := sign
  literal :=
    { base := .decimal
      lead := []
      body := body
      lead_mem := List.mem_singleton_self []
      isBody := hbody
      not_legacyOctal := by
        rintro - ⟨rest, rfl, -⟩
        exact hlead rfl }

/-- `9223372036854775808` behind a sign. -/
def beyondMax (sign : Sign) : IntegerSpelling :=
  ofDigits sign (byteString "9223372036854775808")
    (Literal.isBody_of_digits (by decide) (by decide)) (by decide)

def zero : IntegerSpelling where
  sign := .none
  literal :=
    { base := .decimal
      lead := []
      body := [byte '0']
      lead_mem := List.mem_singleton_self []
      isBody := Literal.isBody_of_digits (by decide) (by decide)
      not_legacyOctal := by
        rintro - ⟨rest, h, hne, -⟩
        exact hne (List.cons.inj h).2.symm }

/-- A stream of the tokens of a spelling. -/
def stream (k : IntegerSpelling) : TokenStream where
  tokens := match k.sign with
    | .none => [⟨.literalInteger, k.literal.raw, 0⟩]
    | .plus => [⟨.plus, byteString "+", 0⟩, ⟨.literalInteger, k.literal.raw, 1⟩]
    | .minus => [⟨.minus, byteString "-", 0⟩, ⟨.literalInteger, k.literal.raw, 1⟩]
  source := []
  base := 0
  position := 0

theorem starts_stream (k : IntegerSpelling) : k.Starts k.stream := by
  obtain ⟨sign, l⟩ := k
  refine ⟨_, [], ?_, (List.append_nil _).symm⟩
  cases sign with
  | none => exact ⟨0, rfl⟩
  | plus => exact ⟨1, 0, rfl⟩
  | minus => exact ⟨1, 0, rfl⟩

theorem parseShapeFieldKey_exact_iff_zero :
    ((i64Min ≤ zero.value ∧ zero.value ≤ i64Max →
        integerOf (parseShapeFieldKey zero.stream) = some zero.value) ↔ zero.value ≠ i64Min) ∧
      ((zero.value ≠ (beyondMax .none).value →
          integerOf (parseShapeFieldKey zero.stream) ≠
            integerOf (parseShapeFieldKey (beyondMax .none).stream)) ↔
        ¬ (zero.value ≠ (beyondMax .none).value ∧ zero.Collapses ∧ (beyondMax .none).Collapses)) :=
  parseShapeFieldKey_exact_iff zero (beyondMax .none) zero.stream (beyondMax .none).stream
    (starts_stream zero) (starts_stream (beyondMax .none))

/-- The least 64-bit integer becomes the key of zero. -/
theorem parseShapeFieldKey_least :
    (beyondMax .minus).Starts (beyondMax .minus).stream ∧ zero.Starts zero.stream ∧
      (beyondMax .minus).value = i64Min ∧ zero.value = 0 ∧
      integerOf (parseShapeFieldKey (beyondMax .minus).stream) = some 0 ∧
      integerOf (parseShapeFieldKey zero.stream) = some 0 :=
  ⟨starts_stream _, starts_stream _, by decide, by decide, by decide, by decide⟩

end IntegerSpelling

end Mago.Phpdoc
