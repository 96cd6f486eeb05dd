import LambdaCalculus.Term.Substitution
import Std.Data.TreeMap.Basic

/-!
# Sessions

A session gives names to terms.  Defining a name again replaces its term, and the names are listed in the order of
their code points.  The name `it` stands for the latest result.

`t.resolveIn define []` puts definitions for the free names of `t`, all at once: a definition is put in as it is,
whatever names occur in it.  A binder that would capture a free name of a definition put in below it is renamed first,
to a name that is free neither in those definitions nor in its body.
-/

namespace LambdaCalculus

/-! ### Resolving defined names -/

namespace Term

/-- The free names of the definitions that are put in for the free names of a term, those in `shadowed` left out. -/
def insertedVars (define : Name → Option Term) (shadowed : List Name) (t : Term) : List Name :=
  (t.freeVars.filter (!shadowed.contains ·)).flatMap fun x => ((define x).map freeVars).getD []

/-- Puts definitions for the free names, except for those in `shadowed`, which are bound further out. -/
def resolveIn (define : Name → Option Term) (shadowed : List Name) : Term → Term
  | var x => if shadowed.contains x then var x else (define x).getD (var x)
  | abs x body =>
    let inserted := insertedVars define (x :: shadowed) body
    if inserted.contains x then
      let y := x.fresh (inserted ++ body.freeVars)
      abs y ((body.rename x y).resolveIn define (y :: shadowed))
    else abs x (body.resolveIn define (x :: shadowed))
  | app fn arg => app (fn.resolveIn define shadowed) (arg.resolveIn define shadowed)
termination_by t => t.size
decreasing_by
  all_goals simp only [size, size_rename]; omega

end Term

/-! ### Definitions -/

/-- Names with their definitions. -/
abbrev Bindings := Std.TreeMap Name Term

/-- Puts definitions for the free names of a term. -/
def Bindings.resolve (bindings : Bindings) (t : Term) : Term :=
  t.resolveIn (bindings[·]?) []

structure Session where
  bindings : Bindings

namespace Session

def empty : Session := ⟨∅⟩

/-- The name of the latest result. -/
def it : Name := "it"

def define (s : Session) (name : Name) (t : Term) : Session :=
  ⟨s.bindings.insert name t⟩

def setIt (s : Session) (t : Term) : Session :=
  s.define it t

def get? (s : Session) (name : Name) : Option Term :=
  s.bindings[name]?

/-- The names with their definitions, sorted by name. -/
def toList (s : Session) : List (Name × Term) :=
  s.bindings.toList

def resolve (s : Session) (t : Term) : Term :=
  s.bindings.resolve t

end Session

end LambdaCalculus
