import LambdaCalculus.Term.Path
import LambdaCalculus.Term.Substitution

/-!
# Redexes and reduction strategies

An abstraction applied to an argument is a redex and can be contracted; a term without redexes is normal.
`contractAt?` is the general step of reduction, at any place of a term.

A strategy chooses the redex to contract next.  Normal order takes the leftmost of the outermost redexes.  Applicative
order takes an innermost redex, looking into arguments before functions, so it goes from the right to the left.
-/

namespace LambdaCalculus

namespace Term

def isRedex : Term → Bool
  | app fn _ => fn.isAbs
  | _ => false

/-- Contracts the term itself, if it is a redex. -/
def contract? : Term → Option Term
  | app (abs x body) arg => some (body.subst x arg)
  | _ => none

/-- Whether no subterm is a redex. -/
def isNormal : Term → Bool
  | var _ => true
  | abs _ body => body.isNormal
  | app fn arg => !fn.isAbs && fn.isNormal && arg.isNormal

/-- Contracts the redex at the end of a path. -/
def contractAt? (t : Term) (path : Path) : Option Term := do
  t.replace? path (← (← t.subterm? path).contract?)

/-! ### Strategies -/

/-- Contracts the leftmost of the outermost redexes. -/
def normalStep? : Term → Option Term
  | var _ => none
  | abs x body => body.normalStep?.map (abs x)
  | app fn arg =>
    match contract? (app fn arg) with
    | some t => some t
    | none =>
      match fn.normalStep? with
      | some fn => some (app fn arg)
      | none => arg.normalStep?.map (app fn)

/-- The path to the rightmost of the innermost redexes. -/
def innermostRedex? : Term → Option Path
  | var _ => none
  | abs _ body => body.innermostRedex?.map (.body :: ·)
  | app fn arg =>
    match arg.innermostRedex? with
    | some path => some (.right :: path)
    | none =>
      match fn.innermostRedex? with
      | some path => some (.left :: path)
      | none => if isRedex (app fn arg) then some [] else none

/-- Contracts the rightmost of the innermost redexes. -/
def applicativeStep? (t : Term) : Option Term := do
  t.contractAt? (← t.innermostRedex?)

end Term

inductive Strategy where
  /-- Leftmost outermost redex first. -/
  | normal
  /-- Rightmost innermost redex first. -/
  | applicative
  deriving DecidableEq, Repr, Inhabited

namespace Strategy

def name : Strategy → String
  | normal => "normal"
  | applicative => "applicative"

/-- The strategy with the given name. -/
def ofName? : String → Option Strategy
  | "normal" => some normal
  | "applicative" => some applicative
  | _ => none

/-- One step, unless there is no redex. -/
def step? : Strategy → Term → Option Term
  | normal => Term.normalStep?
  | applicative => Term.applicativeStep?

end Strategy

end LambdaCalculus
