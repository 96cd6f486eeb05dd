import LambdaCalculus.Reduction.Evaluator
import LambdaCalculus.Session.Basic

/-!
# Church encodings

Booleans, numerals, pairs and lists as terms.  Every definition is closed: where it uses another one, that one stands in
it as it is.  The terms of numbers and lists are built from them, and numbers and booleans are read back from terms.
-/

namespace LambdaCalculus.Church

/-! ### Booleans -/

/-- The term `λx.λy.x`. -/
def tru : Term := .abs "x" (.abs "y" (.var "x"))

/-- The term `λx.λy.y`. -/
def fls : Term := .abs "x" (.abs "y" (.var "y"))

/-- The term `λp.λq.p q p`. -/
def and : Term := .abs "p" (.abs "q" (.app (.app (.var "p") (.var "q")) (.var "p")))

/-- The term `λp.λq.p p q`. -/
def or : Term := .abs "p" (.abs "q" (.app (.app (.var "p") (.var "p")) (.var "q")))

/-- The term `λp.λa.λb.p b a`. -/
def not : Term := .abs "p" (.abs "a" (.abs "b" (.app (.app (.var "p") (.var "b")) (.var "a"))))

/-- The term `λp.λa.λb.p a b`. -/
def ifThenElse : Term := .abs "p" (.abs "a" (.abs "b" (.app (.app (.var "p") (.var "a")) (.var "b"))))

/-! ### Numerals -/

/-- The term `λf.λx.x`. -/
def zero : Term := .abs "f" (.abs "x" (.var "x"))

/-- The term `λf.λx.f x`. -/
def one : Term := .abs "f" (.abs "x" (.app (.var "f") (.var "x")))

/-- The term `λf.λx.f (f x)`. -/
def two : Term := .abs "f" (.abs "x" (.app (.var "f") (.app (.var "f") (.var "x"))))

/-- The term `λf.λx.f (f (f x))`. -/
def three : Term := .abs "f" (.abs "x" (.app (.var "f") (.app (.var "f") (.app (.var "f") (.var "x")))))

/-- The term `λn.λf.λx.f (n f x)`. -/
def succ : Term :=
  .abs "n" (.abs "f" (.abs "x" (.app (.var "f") (.app (.app (.var "n") (.var "f")) (.var "x")))))

/-- The term `λm.λn.λf.λx.m f (n f x)`. -/
def plus : Term :=
  .abs "m" (.abs "n" (.abs "f" (.abs "x"
    (.app (.app (.var "m") (.var "f")) (.app (.app (.var "n") (.var "f")) (.var "x"))))))

/-- The term `λm.λn.λf.m (n f)`. -/
def mult : Term := .abs "m" (.abs "n" (.abs "f" (.app (.var "m") (.app (.var "n") (.var "f")))))

/-- The term `λm.λn.n m`. -/
def pow : Term := .abs "m" (.abs "n" (.app (.var "n") (.var "m")))

/-- The term `λn.λf.λx.n (λg.λh.h (g f)) (λu.x) (λu.u)`. -/
def pred : Term :=
  .abs "n" (.abs "f" (.abs "x"
    (.app
      (.app (.app (.var "n") (.abs "g" (.abs "h" (.app (.var "h") (.app (.var "g") (.var "f"))))))
        (.abs "u" (.var "x")))
      (.abs "u" (.var "u")))))

/-- The term `λm.λn.n PRED m`. -/
def sub : Term := .abs "m" (.abs "n" (.app (.app (.var "n") pred) (.var "m")))

/-- The term `λn.n (λx.FALSE) TRUE`. -/
def isZero : Term := .abs "n" (.app (.app (.var "n") (.abs "x" fls)) tru)

/-- The term `λm.λn.IS_ZERO (SUB m n)`. -/
def leq : Term := .abs "m" (.abs "n" (.app isZero (.app (.app sub (.var "m")) (.var "n"))))

/-- The term `λm.λn.AND (LEQ m n) (LEQ n m)`. -/
def eq : Term :=
  .abs "m" (.abs "n"
    (.app (.app and (.app (.app leq (.var "m")) (.var "n"))) (.app (.app leq (.var "n")) (.var "m"))))

/-! ### Pairs and lists -/

/-- The term `λx.λy.λf.f x y`. -/
def pair : Term := .abs "x" (.abs "y" (.abs "f" (.app (.app (.var "f") (.var "x")) (.var "y"))))

/-- The term `λp.p (λx.λy.x)`. -/
def first : Term := .abs "p" (.app (.var "p") (.abs "x" (.abs "y" (.var "x"))))

/-- The term `λp.p (λx.λy.y)`. -/
def second : Term := .abs "p" (.app (.var "p") (.abs "x" (.abs "y" (.var "y"))))

/-- The term `λx.TRUE`. -/
def nil : Term := .abs "x" tru

/-- The term `λl.l (λh.λt.FALSE)`. -/
def isNil : Term := .abs "l" (.app (.var "l") (.abs "h" (.abs "t" fls)))

/-- The term `λh.λt.λc.c h t`. -/
def cons : Term := .abs "h" (.abs "t" (.abs "c" (.app (.app (.var "c") (.var "h")) (.var "t"))))

/-- The term `λl.l (λh.λt.h)`. -/
def head : Term := .abs "l" (.app (.var "l") (.abs "h" (.abs "t" (.var "h"))))

/-- The term `λl.l (λh.λt.t)`. -/
def tail : Term := .abs "l" (.app (.var "l") (.abs "h" (.abs "t" (.var "t"))))

/-! ### The table -/

/-- Every encoding with its name. -/
def table : List (Name × Term) :=
  [("TRUE", tru), ("FALSE", fls), ("AND", and), ("OR", or), ("NOT", not), ("IF_THEN_ELSE", ifThenElse),
    ("ZERO", zero), ("ONE", one), ("TWO", two), ("THREE", three), ("SUCC", succ), ("PLUS", plus), ("MULT", mult),
    ("POW", pow), ("PRED", pred), ("SUB", sub), ("IS_ZERO", isZero), ("LEQ", leq), ("EQ", eq), ("PAIR", pair),
    ("FIRST", first), ("SECOND", second), ("NIL", nil), ("IS_NIL", isNil), ("CONS", cons), ("HEAD", head),
    ("TAIL", tail)]

/-- The names of the encodings, defined. -/
def bindings : Bindings := .ofList table

/-- The term of the encoding with the given name. -/
def get? (name : Name) : Option Term := bindings[name]?

/-! ### Encoded data -/

/-- The numeral of `n`: the successor applied `n` times to zero, not reduced. -/
def numeral : Nat → Term
  | 0 => zero
  | n + 1 => .app succ (numeral n)

/-- The list of the given terms, not reduced. -/
def list : List Term → Term
  | [] => nil
  | item :: items => .app (.app cons item) (list items)

/-- How often `f` is applied to `x`. -/
def countApps (f x : Name) : Term → Option Nat
  | .var y => if y = x then some 0 else none
  | .app (.var g) arg => if g = f then (countApps f x arg).map (· + 1) else none
  | _ => none

/-- The number with the numeral `λf.λx.f (f … x)`.  The binders may have any names; if both have the same name, that
name counts for either. -/
def readNumeral : Term → Option Nat
  | .abs f (.abs x body) => countApps f x body
  | _ => none

/-- The boolean that a term is, up to the names of bound variables. -/
def readBoolean (t : Term) : Option Bool :=
  if t.alphaEq tru then some true
  else if t.alphaEq fls then some false
  else none

/-- Reduces a term and reads the result as a boolean. -/
def toBoolean (e : Evaluator) (t : Term) : Option Bool :=
  readBoolean (e.evaluate t).term

end LambdaCalculus.Church
