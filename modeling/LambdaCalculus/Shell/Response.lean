import LambdaCalculus.Term.Printer
import LambdaCalculus.Reduction.Evaluator

/-!
# Responses of the shell

What a command has to say, and the lines in which it is said.
-/

namespace LambdaCalculus.Shell

inductive Response where
  | nothing
  | help
  | quit
  /-- Every defined name with its definition. -/
  | vars (entries : List (Name × Term))
  | defined (name : Name) (t : Term)
  /-- The term after one step. -/
  | stepped (t : Term)
  /-- There is no step to take. -/
  | alreadyNormal
  | reduced (r : Reduction)
  /-- The numeral of a number. -/
  | numeral (n : Nat) (t : Term)
  /-- The number that a term reduces to. -/
  | number (n : Option Nat)
  /-- The boolean that a term reduces to. -/
  | boolean (b : Option Bool)
  /-- The free names and the binders of a term, each sorted and without repetition. -/
  | names (free bound : List Name)
  | comparison (t u : Term) (equal : Bool)
  | settings (e : Evaluator)
  /-- A term that has been read and resolved. -/
  | term (t : Term)
  deriving DecidableEq, Repr

namespace Response

def helpLines : List String :=
  ["Commands:",
    "  help                 Show this help",
    "  quit, exit           Leave the shell",
    "  vars                 List every defined name",
    "  let NAME EXPR        Define NAME as EXPR",
    "  step EXPR            Perform one normal order step",
    "  beta EXPR            Reduce with the configured strategy",
    "  normal EXPR          Reduce in normal order (leftmost outermost)",
    "  app EXPR             Reduce in applicative order (innermost first)",
    "  trace EXPR           Reduce in normal order, showing every step",
    "  church N             Build the Church numeral for N",
    "  extract EXPR         Reduce and read the result as a Church numeral",
    "  bool EXPR            Reduce and read the result as a Church boolean",
    "  free EXPR            Show free and bound variables",
    "  alpha EXPR ; EXPR    Compare two terms up to renaming of bound variables",
    "  set strategy NAME    Use `normal` or `applicative` for `beta`",
    "  set steps N          Limit every reduction to N steps",
    "  set trace on|off     Show every step of every reduction",
    "Syntax:",
    "  x  λx.M  \\x.M  M N  (M)",
    "Any other input is parsed, shown and bound to `it`."]

/-- The recorded steps, numbered from one. -/
def traceLines (trace : List Term) : List String :=
  trace.zipIdx.map fun (t, i) => "  " ++ toString (i + 1) ++ ": " ++ t.render

/-- Names in braces. -/
def nameSet (names : List Name) : String :=
  "\x7b" ++ ", ".intercalate names ++ "\x7d"

/-- The lines of a response. -/
def lines : Response → List String
  | nothing => []
  | help => helpLines
  | quit => []
  | vars entries => "Defined variables:" :: entries.map fun (name, t) => "  " ++ name ++ " = " ++ t.render
  | defined name t => ["Defined " ++ name ++ " = " ++ t.render]
  | stepped t => ["Result: " ++ t.render]
  | alreadyNormal => ["Expression is already in normal form."]
  | reduced r =>
    traceLines r.trace.toList ++
      ["Result: " ++ r.term.render, "Steps taken: " ++ toString r.steps] ++
      if r.isNormal then [] else ["Warning: May not be in normal form (reached maximum steps)"]
  | numeral n t => ["Church numeral for " ++ toString n ++ ": " ++ t.render]
  | number (some n) => ["Extracted value: " ++ toString n]
  | number none => ["Could not extract a Church numeral"]
  | boolean (some true) => ["Boolean value: TRUE"]
  | boolean (some false) => ["Boolean value: FALSE"]
  | boolean none => ["Could not extract a Church boolean"]
  | names free bound => ["Free variables: " ++ nameSet free, "Bound variables: " ++ nameSet bound]
  | comparison t u equal =>
    [t.render ++ " and " ++ u.render ++ if equal then " are alpha equivalent" else " are not alpha equivalent"]
  | settings e =>
    ["strategy = " ++ e.strategy.name ++ ", steps = " ++ toString e.maxSteps ++ ", trace = " ++
      if e.trace then "on" else "off"]
  | term t => ["Parsed: " ++ t.render]

end Response

end LambdaCalculus.Shell
