import LambdaCalculus.Term.Basic

/-!
# Paths into a term

A path leads from the root of a term down to a subterm, one child at a time.  `subterm?` looks a subterm up and
`replace?` exchanges it; both give nothing if the path leaves the term.
-/

namespace LambdaCalculus

/-- A step from a node to one of its children. -/
inductive Direction where
  /-- From an application to its function. -/
  | left
  /-- From an application to its argument. -/
  | right
  /-- From an abstraction to its body. -/
  | body
  deriving DecidableEq, Repr

abbrev Path := List Direction

namespace Term

def child? : Term → Direction → Option Term
  | app fn _, .left => some fn
  | app _ arg, .right => some arg
  | abs _ body, .body => some body
  | _, _ => none

/-- The subterm at the end of a path. -/
def subterm? (t : Term) : Path → Option Term
  | [] => some t
  | d :: path => (t.child? d).bind (subterm? · path)

/-- The term with `r` in place of the subterm at the end of a path. -/
def replace? (t : Term) (path : Path) (r : Term) : Option Term :=
  match path, t with
  | [], _ => some r
  | .left :: path, app fn arg => (fn.replace? path r).map (app · arg)
  | .right :: path, app fn arg => (arg.replace? path r).map (app fn)
  | .body :: path, abs x body => (body.replace? path r).map (abs x)
  | _ :: _, _ => none

end Term

end LambdaCalculus
