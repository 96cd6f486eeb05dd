import LambdaCalculus.Term.Basic

/-!
# Nameless terms

A nameless term has numbers for its bound occurrences, counting the binders between the occurrence and its own, and
keeps the names of its free occurrences.  Two terms that differ only in the names of bound variables have one nameless
form (`Term.nameless`), and replacing free names (`Nameless.bind`) needs no renaming: the terms put in have no loose
numbers, and there are no names of binders that could capture theirs.
-/

namespace LambdaCalculus

/-- A term without names of bound variables. -/
inductive Nameless where
  | bound (index : Nat)
  | free (name : Name)
  | abs (body : Nameless)
  | app (fn arg : Nameless)
  deriving DecidableEq, Repr

namespace Nameless

/-- Puts a term for every free name. -/
def bind (σ : Name → Nameless) : Nameless → Nameless
  | bound i => bound i
  | free x => σ x
  | abs body => abs (body.bind σ)
  | app fn arg => app (fn.bind σ) (arg.bind σ)

/-- Puts `r` for the free name `x`. -/
def subst (t : Nameless) (x : Name) (r : Nameless) : Nameless :=
  t.bind fun y => if x = y then r else free y

end Nameless

namespace Term

/-- The nameless form below the binders named in `scope`, the innermost first. -/
def namelessIn (scope : List Name) : Term → Nameless
  | var x => match scope.idxOf? x with
    | some i => .bound i
    | none => .free x
  | abs x body => .abs (body.namelessIn (x :: scope))
  | app fn arg => .app (fn.namelessIn scope) (arg.namelessIn scope)

/-- The term with numbers for its bound occurrences. -/
def nameless (t : Term) : Nameless :=
  t.namelessIn []

end Term

end LambdaCalculus
