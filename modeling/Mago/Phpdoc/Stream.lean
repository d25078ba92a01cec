import Mago.Phpdoc.Lexer

/-!
# The token stream of the docblock parser

The tokens that are left, without whitespace, comments and markers, with the source they were
read from. Nothing is taken off the stream when an expected token is not there.
-/
namespace Mago.Phpdoc

structure Span where
  start : ℕ
  stop : ℕ
  deriving DecidableEq

namespace Span

/-- From the start of the first to the end of the second. -/
def join (first second : Span) : Span := ⟨first.start, second.stop⟩

end Span

inductive ParseError
  | unexpectedToken (span : Span)
  | unexpectedEndOfInput (span : Span)
  deriving DecidableEq

def Token.stop (token : Token) : ℕ := token.start + token.value.length

def Token.spanFor (token : Token) : Span := ⟨token.start, token.stop⟩

structure TokenStream where
  tokens : List Token
  source : List UInt8
  base : ℕ
  position : ℕ

/-- What a parser leaves behind an error is not looked at. -/
abbrev Parser := StateT TokenStream (Except ParseError)

namespace TokenStream

def lookahead (s : TokenStream) (n : ℕ) : Option Token := s.tokens[n]?

def peekKind (s : TokenStream) (n : ℕ) : Option TokenKind := (s.lookahead n).map Token.kind

def isAt (s : TokenStream) (kind : TokenKind) : Bool := s.peekKind 0 == some kind

def zeroSpan (s : TokenStream) : Span := ⟨s.position, s.position⟩

/-- The bytes of the source between two positions. -/
def rawBetween (s : TokenStream) (start stop : ℕ) : List UInt8 :=
  let length := s.source.length
  let start := min (start - s.base) length
  let stop := max (min (stop - s.base) length) start
  (s.source.take stop).drop start

def consume : Parser Token := fun s =>
  match s.tokens with
  | token :: rest => .ok (token, { s with tokens := rest, position := token.stop })
  | [] => .error (.unexpectedEndOfInput s.zeroSpan)

def eat (kind : TokenKind) : Parser Token := fun s =>
  match s.tokens with
  | token :: _ => if token.kind = kind then consume s else .error (.unexpectedToken token.spanFor)
  | [] => .error (.unexpectedEndOfInput s.zeroSpan)

def eatSpan (kind : TokenKind) : Parser Span := do
  let token ← eat kind
  return token.spanFor

/-- The stream behind its first token. -/
def behind (s : TokenStream) (token : Token) (rest : List Token) : TokenStream :=
  { s with tokens := rest, position := token.stop }

variable {s : TokenStream} {token : Token} {rest : List Token}

theorem consume_cons (h : s.tokens = token :: rest) : consume s = .ok (token, s.behind token rest) := by
  rw [consume, h]
  rfl

end TokenStream

end Mago.Phpdoc
