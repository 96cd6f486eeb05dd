/-!
# Terms of the untyped lambda calculus

Terms with named variables.  A name is any string, also one that cannot be written in the concrete form of a term.

The free names of a term are listed with one entry per occurrence (`freeVars`), so that `List.count` counts the
free occurrences of a name; `hasFree` answers the yes-or-no question without building the list
(`hasFree_iff`).
-/

namespace LambdaCalculus

/-- The name of a variable. -/
abbrev Name := String

/-- A term: a variable, an abstraction `λx.t` or an application `t u`. -/
inductive Term where
  | var (name : Name)
  | abs (param : Name) (body : Term)
  | app (fn arg : Term)
  deriving DecidableEq, Repr, Inhabited

namespace Term

/-- The number of nodes. -/
def size : Term → Nat
  | var _ => 1
  | abs _ body => body.size + 1
  | app fn arg => fn.size + arg.size + 1

/-- The number of nodes on a longest path from the root to a leaf. -/
def depth : Term → Nat
  | var _ => 1
  | abs _ body => body.depth + 1
  | app fn arg => max fn.depth arg.depth + 1

/-- Whether the term is a variable. -/
def isVar : Term → Bool
  | var _ => true
  | _ => false

/-- Whether the term is an abstraction. -/
def isAbs : Term → Bool
  | abs .. => true
  | _ => false

/-- The names of the free occurrences, from left to right. -/
def freeVars : Term → List Name
  | var x => [x]
  | abs x body => body.freeVars.filter (· != x)
  | app fn arg => fn.freeVars ++ arg.freeVars

/-- The names of the binders, from left to right. -/
def boundVars : Term → List Name
  | var _ => []
  | abs x body => x :: body.boundVars
  | app fn arg => fn.boundVars ++ arg.boundVars

/-- Whether `x` occurs free. -/
def hasFree (x : Name) : Term → Bool
  | var y => x == y
  | abs y body => x != y && body.hasFree x
  | app fn arg => fn.hasFree x || arg.hasFree x

theorem size_pos (t : Term) : 0 < t.size := by
  cases t <;> simp [size]

theorem hasFree_iff {x : Name} {t : Term} : t.hasFree x = true ↔ x ∈ t.freeVars := by
  induction t with
  | var y => simp [hasFree, freeVars]
  | abs y body ih => simp [hasFree, freeVars, ih, and_comm]
  | app fn arg ihf iha => simp [hasFree, freeVars, ihf, iha]

theorem hasFree_eq_false_iff {x : Name} {t : Term} : t.hasFree x = false ↔ x ∉ t.freeVars := by
  rw [← hasFree_iff, Bool.not_eq_true]

end Term

/-- The names of a list in the order of their code points, each once. -/
def Name.sorted (names : List Name) : List Name :=
  names.mergeSort.eraseReps

end LambdaCalculus
