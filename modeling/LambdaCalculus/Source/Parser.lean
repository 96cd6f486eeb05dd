import LambdaCalculus.Source.Error
import LambdaCalculus.Text.Basic

/-!
# From characters to terms

`lex` cuts a text into lexemes.  White space may stand anywhere between tokens, and an identifier is as long as it can
be.  A text of white space alone is refused; the empty text has no tokens.

The parser reads one token after another.  Its state is what has been read of the terms that are still open: a stack
of the enclosing parentheses and abstractions, and the innermost term as far as it goes.  `State.next?` says how a
token changes the state, `State.place` what can follow, and `State.term?` which term has been read if the input ends.
-/

namespace LambdaCalculus.Source

open Text (isWhiteSpace)

/-- The lexemes of the characters from `offset` on.  `canEnd` is false as long as only white space has been read. -/
def lexFrom (offset : Nat) (canEnd : Bool) (text : List Char) : Except SyntaxError (List Lexeme) :=
  match text with
  | [] => if canEnd then .ok [] else .error (.blank offset)
  | c :: rest =>
    if isWhiteSpace c then lexFrom (offset + 1) canEnd rest
    else if isIdentStart c then
      let word := c :: rest.takeWhile isIdentRest
      let stop := offset + word.length
      (lexFrom stop true (rest.dropWhile isIdentRest)).map
        (⟨.ident (String.ofList word), ⟨offset, stop⟩⟩ :: ·)
    else match Token.ofChar? c with
      | some token => (lexFrom (offset + 1) true rest).map (⟨token, ⟨offset, offset + 1⟩⟩ :: ·)
      | none => .error (.strayChar offset c canEnd)
termination_by text.length
decreasing_by
  · simp
  · have := (List.dropWhile_sublist isIdentRest (l := rest)).length_le
    simp only [List.length_cons]
    omega
  · simp

/-- The lexemes of a text. -/
def lex (text : String) : Except SyntaxError (List Lexeme) :=
  lexFrom 0 (!text.toList.head?.any isWhiteSpace) text.toList

/-! ### The parser -/

/-- The application of the term read so far, if there is one, to the next atom. -/
def extend : Option Term → Term → Term
  | none, atom => atom
  | some t, atom => .app t atom

/-- Something open around the term being read, with the term read before it. -/
inductive Frame where
  | paren (before : Option Term)
  | lambda (before : Option Term) (param : Name)
  deriving DecidableEq, Repr

/-- How far a term has been read. -/
inductive State where
  /-- Inside a term, of which `current` has been read. -/
  | term (stack : List Frame) (current : Option Term)
  /-- Behind a lambda. -/
  | param (stack : List Frame) (before : Option Term)
  /-- Behind a lambda and the name that it binds. -/
  | dot (stack : List Frame) (before : Option Term) (param : Name)
  deriving DecidableEq, Repr

/-- Ends the abstractions around a term that has been read, up to the innermost open parenthesis.  The result is the
whole term, the term before that parenthesis and the stack around it, or the whole term alone. -/
def closeAbs (stack : List Frame) (t : Term) : Term × Option (Option Term × List Frame) :=
  match stack with
  | [] => (t, none)
  | .paren before :: stack => (t, some (before, stack))
  | .lambda before x :: stack => closeAbs stack (extend before (.abs x t))

namespace State

def initial : State := term [] none

/-- The state behind a token, unless the token cannot stand there. -/
def next? : State → Token → Option State
  | term stack current, .ident x => some (term stack (some (extend current (.var x))))
  | term stack current, .lparen => some (term (.paren current :: stack) none)
  | term stack current, .lambda => some (param stack current)
  | term stack (some t), .rparen => match closeAbs stack t with
    | (t, some (before, stack)) => some (term stack (some (extend before t)))
    | (_, none) => none
  | param stack before, .ident x => some (dot stack before x)
  | dot stack before x, .dot => some (term (.lambda before x :: stack) none)
  | _, _ => none

/-- The term, if the input can end here. -/
def term? : State → Option Term
  | term stack (some t) => match closeAbs stack t with
    | (t, none) => some t
    | (_, some _) => none
  | _ => none

/-- What can follow. -/
def place : State → Place
  | term _ none => .termStart
  | term stack (some t) => match closeAbs stack t with
    | (_, none) => .termEnd
    | (_, some _) => .closing
  | param .. => .param
  | dot .. => .dot

end State

/-- Reads the rest of a text of the given length. -/
def parseFrom (length : Nat) (state : State) : List Lexeme → Except SyntaxError Term
  | [] => match state.term? with
    | some t => .ok t
    | none => .error (.unexpectedEnd length state.place)
  | lexeme :: rest => match state.next? lexeme.token with
    | some state => parseFrom length state rest
    | none => .error (.unexpectedToken lexeme state.place)

/-- Reads a term. -/
def parse (text : String) : Except SyntaxError Term := do
  parseFrom text.length .initial (← lex text)

end LambdaCalculus.Source
