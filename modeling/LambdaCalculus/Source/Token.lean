import LambdaCalculus.Term.Basic

/-!
# Tokens

The words of the concrete form of a term: parentheses, the dot, the lambda (written `λ` or `\`) and identifiers, which
are made of ASCII letters, digits and underscores and begin with a letter.
-/

namespace LambdaCalculus.Source

inductive Token where
  | lparen
  | rparen
  | dot
  | lambda
  | ident (name : Name)
  deriving DecidableEq, Repr

/-- The token that a character alone makes. -/
def Token.ofChar? : Char → Option Token
  | '(' => some .lparen
  | ')' => some .rparen
  | '.' => some .dot
  | 'λ' => some .lambda
  | '\\' => some .lambda
  | _ => none

/-- The text of a token; either spelling of the lambda gives `λ`. -/
def Token.text : Token → String
  | .lparen => "("
  | .rparen => ")"
  | .dot => "."
  | .lambda => "λ"
  | .ident name => name

/-- Whether an identifier can begin with `c`. -/
def isIdentStart (c : Char) : Bool := c.isAlpha

/-- Whether an identifier can go on with `c`. -/
def isIdentRest (c : Char) : Bool := c.isAlphanum || c == '_'

/-- Whether a name is an identifier, so that it can be written in a term. -/
def isIdentifier (name : Name) : Bool :=
  match name.toList with
  | [] => false
  | c :: rest => isIdentStart c && rest.all isIdentRest

/-- The characters from `start` up to, but not including, `stop`. -/
structure Span where
  start : Nat
  stop : Nat
  deriving DecidableEq, Repr

/-- A token and the place where it stands. -/
structure Lexeme where
  token : Token
  span : Span
  deriving DecidableEq, Repr

end LambdaCalculus.Source
