import LambdaCalculus.Reduction.Strategy

/-!
# Evaluation with a budget

An evaluator takes steps until there is no redex left or its budget of steps is used up.  It finds out that there is
no redex left only by trying one more step, so a term that becomes normal with the last step of the budget is not
reported as normal.
-/

namespace LambdaCalculus

/-- Why a configuration of the evaluator is refused. -/
inductive ConfigError where
  | unknownStrategy (name : String)
  | zeroBudget
  deriving DecidableEq, Repr

def ConfigError.message : ConfigError → String
  | unknownStrategy name =>
    "Unknown evaluation strategy `" ++ name ++ "`, expected `normal` or `applicative`"
  | zeroBudget => "Invalid step budget 0, at least one step is required"

/-- The strategy with the given name. -/
def Strategy.read (name : String) : Except ConfigError Strategy :=
  match ofName? name with
  | some strategy => .ok strategy
  | none => .error (.unknownStrategy name)

/-- What has come of a term. -/
structure Reduction where
  term : Term
  /-- The number of steps taken. -/
  steps : Nat
  /-- Whether a further step was tried and there was none. -/
  isNormal : Bool
  /-- The term after each step, if the steps are recorded. -/
  trace : Array Term
  deriving DecidableEq, Repr

namespace Reduction

/-- Before the first step. -/
def start (t : Term) : Reduction :=
  { term := t, steps := 0, isNormal := false, trace := #[] }

/-- Takes up to `budget` further steps. -/
def run (step? : Term → Option Term) (record : Bool) : Nat → Reduction → Reduction
  | 0, r => r
  | budget + 1, r =>
    match step? r.term with
    | none => { r with isNormal := true }
    | some t =>
      run step? record budget
        { term := t, steps := r.steps + 1, isNormal := false, trace := if record then r.trace.push t else r.trace }

end Reduction

/-- A strategy, a budget of at least one step and whether steps are recorded. -/
structure Evaluator where
  strategy : Strategy
  maxSteps : Nat
  trace : Bool
  maxSteps_pos : 0 < maxSteps := by decide
  deriving DecidableEq, Repr

namespace Evaluator

/-- Normal order with a thousand steps, which are not recorded. -/
def standard : Evaluator :=
  { strategy := .normal, maxSteps := 1000, trace := false }

/-- The evaluator with the given strategy and budget, which does not record its steps. -/
def make (strategy : Strategy) (maxSteps : Nat) : Except ConfigError Evaluator :=
  if h : 0 < maxSteps then .ok { strategy, maxSteps, trace := false, maxSteps_pos := h } else .error .zeroBudget

/-- Reduces a term within the budget. -/
def evaluate (e : Evaluator) (t : Term) : Reduction :=
  .run e.strategy.step? e.trace e.maxSteps (.start t)

end Evaluator

/-- Reduces a term by the strategy with the given name. -/
def Term.reduce (t : Term) (strategy : String) (maxSteps : Nat) : Except ConfigError Reduction := do
  return (← Evaluator.make (← Strategy.read strategy) maxSteps).evaluate t

end LambdaCalculus
