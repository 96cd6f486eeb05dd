import LambdaCalculus.Source.Token

/-!
# Errors in the text of a term

One error is reported, the first.  An error says what is wrong and where; the rest follows from that: the place in the
text, what was found there, and which symbols could have stood there instead.
-/

namespace LambdaCalculus.Source

/-- What an error can name as possible.  Identifiers are never named. -/
inductive Symbol where
  | lparen
  | rparen
  | dot
  | backslash
  | endOfInput
  | lambda
  deriving DecidableEq, Repr

def Symbol.text : Symbol → String
  | .lparen => "("
  | .rparen => ")"
  | .dot => "."
  | .backslash => "\\"
  | .endOfInput => "end of the input"
  | .lambda => "λ"

/-- A place between two tokens of a term. -/
inductive Place where
  /-- A term has to begin. -/
  | termStart
  /-- The term can end, and the input with it. -/
  | termEnd
  /-- The term can end with the parenthesis that encloses it. -/
  | closing
  /-- Behind a lambda. -/
  | param
  /-- Behind the name that a lambda binds. -/
  | dot
  deriving DecidableEq, Repr

/-- The symbols that can stand at a place, in the order of their texts. -/
def Place.symbols : Place → List Symbol
  | .termStart => [.lparen, .lambda]
  | .termEnd => [.lparen, .endOfInput, .lambda]
  | .closing => [.lparen, .rparen, .lambda]
  | .param => []
  | .dot => [.dot]

/-- The name of the construct to which a place belongs. -/
def Place.label : Place → String
  | .termStart | .termEnd | .closing => "term"
  | .param => "variable"
  | .dot => "abstraction"

inductive SyntaxError where
  /-- No token begins with the character.  The input can end there unless only white space comes before. -/
  | strayChar (offset : Nat) (char : Char) (canEnd : Bool)
  /-- A text of the given length consists of white space. -/
  | blank (length : Nat)
  | unexpectedToken (lexeme : Lexeme) (place : Place)
  /-- A text of the given length ends too early. -/
  | unexpectedEnd (length : Nat) (place : Place)
  deriving DecidableEq, Repr

namespace SyntaxError

def span : SyntaxError → Span
  | strayChar offset .. => ⟨offset, offset + 1⟩
  | blank length => ⟨length, length⟩
  | unexpectedToken lexeme _ => lexeme.span
  | unexpectedEnd length _ => ⟨length, length + 1⟩

/-- The text of what stands at the place of the error, or nothing at the end of the input. -/
def found : SyntaxError → Option String
  | strayChar _ char _ => some char.toString
  | blank _ => none
  | unexpectedToken lexeme _ => some lexeme.token.text
  | unexpectedEnd .. => none

/-- The symbols that could have stood there, in the order of their texts. -/
def expected : SyntaxError → List Symbol
  | strayChar _ _ true => [.lparen, .rparen, .dot, .backslash, .endOfInput, .lambda]
  | strayChar _ _ false => [.lparen, .rparen, .dot, .backslash, .lambda]
  | blank _ => [.lparen, .rparen, .dot, .backslash, .lambda]
  | unexpectedToken _ place => place.symbols
  | unexpectedEnd _ place => place.symbols

/-- The name of the construct in which the error is, once there are tokens. -/
def label : SyntaxError → Option String
  | strayChar .. => none
  | blank _ => none
  | unexpectedToken _ place => some place.label
  | unexpectedEnd _ place => some place.label

def message (e : SyntaxError) : String :=
  let found := e.found.getD Symbol.endOfInput.text
  let expected := match e.expected with
    | [] => "something else"
    | symbols => ", ".intercalate (symbols.map Symbol.text)
  "Unexpected " ++ found ++ ", expected " ++ expected

end SyntaxError

end LambdaCalculus.Source
