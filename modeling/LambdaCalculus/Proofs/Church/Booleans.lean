import LambdaCalculus.Proofs.Church.Data
import LambdaCalculus.Proofs.Reduction.NormalForm

/-!
# Answers that are booleans

Whether an evaluation has ended does not matter for the boolean that is read from its result: a boolean is normal, so it
is the end of every reduction that comes to it (`isNormal_of_readBoolean`).  Therefore evaluations of a term do not
contradict each other, in whichever order and with whichever budgets they are made, and an answer stays the same when
the budget grows.
-/

namespace LambdaCalculus.Church

private theorem readBoolean_eq_some_iff_nameless {t : Term} {b : Bool} :
    readBoolean t = some b ↔ t.nameless = Nameless.boolean b := by
  constructor
  · intro h
    refine (Term.alphaEq_iff.1 (readBoolean_eq_some_iff.1 h)).trans ?_
    cases b <;> decide
  · exact readBoolean_of_nameless

private theorem isNormal_of_readBoolean {t : Term} {b : Bool} (h : readBoolean t = some b) : t.isNormal = true := by
  rw [← Term.isNormal_nameless, readBoolean_eq_some_iff_nameless.1 h]
  exact Nameless.isNormal_boolean b

private theorem readBoolean_eq_of_alphaEq {t t' : Term} (h : t.alphaEq t' = true) : readBoolean t = readBoolean t' := by
  refine Option.ext fun b => ?_
  rw [readBoolean_eq_some_iff_nameless, readBoolean_eq_some_iff_nameless, Term.alphaEq_iff.1 h]

/-- Evaluations of alpha-equivalent terms do not give different booleans. -/
private theorem eq_of_toBoolean {t t' : Term} {e e' : Evaluator} {a b : Bool} (ht : t.alphaEq t' = true)
    (ha : toBoolean e t = some a) (hb : toBoolean e' t' = some b) : a = b := by
  have halpha : (e.evaluate t).term.alphaEq (e'.evaluate t').term = true :=
    Term.alphaEq_of_reduces ht (e.reduces_evaluate t) (e'.reduces_evaluate t') (isNormal_of_readBoolean ha)
      (isNormal_of_readBoolean hb)
  have hread : toBoolean e t = toBoolean e' t' := readBoolean_eq_of_alphaEq halpha
  rw [ha, hb] at hread
  exact Option.some.inj hread

/-- A larger budget gives the same boolean, also when the smaller one was used up. -/
private theorem toBoolean_of_le {t : Term} {e e' : Evaluator} {b : Bool} (h : toBoolean e t = some b)
    (hstrategy : e'.strategy = e.strategy) (hle : e.maxSteps ≤ e'.maxSteps) : toBoolean e' t = some b := by
  obtain ⟨hsteps, hend⟩ := e.evaluate_spec t
  have hbudget : (e.evaluate t).steps ≤ e'.maxSteps := by
    rcases hend with ⟨-, -, hlt⟩ | ⟨-, heq⟩ <;> omega
  rw [← hstrategy] at hsteps
  rw [toBoolean, Evaluator.evaluate_term_of_after? hsteps (isNormal_of_readBoolean h) hbudget]
  exact h

/-- Normal order gives the same boolean, given enough steps. -/
private theorem exists_budget_of_toBoolean {t : Term} {e : Evaluator} {b : Bool} (h : toBoolean e t = some b) :
    ∃ budget, ∀ e' : Evaluator, e'.strategy = .normal → budget ≤ e'.maxSteps → toBoolean e' t = some b := by
  obtain ⟨budget, hbudget⟩ := Term.exists_budget_of_reduces (e.reduces_evaluate t) (isNormal_of_readBoolean h)
  refine ⟨budget, fun e' hnormal hle => ?_⟩
  rw [toBoolean, readBoolean_eq_of_alphaEq (hbudget e' hnormal hle).2]
  exact h

/-- Evaluations of alpha-equivalent terms, by whichever strategies and whether or not they have used up their budgets, do
not contradict each other about the boolean that a term is.  What one of them has found is found with every larger
budget, and by normal order from some budget on. -/
theorem booleans_never_contradict :
    (∀ (t t' : Term) (e e' : Evaluator) (a b : Bool), t.alphaEq t' = true → toBoolean e t = some a →
        toBoolean e' t' = some b → a = b) ∧
      ∀ (t : Term) (e : Evaluator) (a : Bool), toBoolean e t = some a →
        (∀ e' : Evaluator, e'.strategy = e.strategy → e.maxSteps ≤ e'.maxSteps → toBoolean e' t = some a) ∧
          ∃ budget, ∀ e' : Evaluator, e'.strategy = .normal → budget ≤ e'.maxSteps → toBoolean e' t = some a := by
  refine ⟨?agree, ?stay⟩
  case agree =>
    intro t t' e e' a b ht ha hb
    exact eq_of_toBoolean ht ha hb
  case stay =>
    intro t e a h
    exact ⟨fun e' hstrategy hle => toBoolean_of_le h hstrategy hle, exists_budget_of_toBoolean h⟩

/-- The budget is used up when the boolean is there.  Applicative order does not stop in the argument that is thrown
away, so it gives no answer; no evaluation gives the other one. -/
theorem booleans_never_contradict_past_loop :
    let loop := Term.app (.abs "x" (.app (.var "x") (.var "x"))) (.abs "x" (.app (.var "x") (.var "x")))
    let t := Term.app (.app tru tru) loop
    let t' := Term.app (.app (.abs "a" (.abs "b" (.var "a"))) tru) loop
    let e : Evaluator := { strategy := .normal, maxSteps := 2, trace := false }
    let applicative : Evaluator := { strategy := .applicative, maxSteps := 20, trace := true }
    t.alphaEq t' = true ∧ toBoolean e t = some true ∧ (e.evaluate t).isNormal = false ∧
      toBoolean applicative t = none ∧ (∀ e', toBoolean e' t' ≠ some false) ∧
      (∀ e' : Evaluator, e'.strategy = .normal → 2 ≤ e'.maxSteps → toBoolean e' t = some true) := by
  intro loop t t' e applicative
  obtain ⟨hagree, hstay⟩ := booleans_never_contradict
  have ht : t.alphaEq t' = true := by decide +kernel
  have he : toBoolean e t = some true := by decide +kernel
  refine ⟨ht, he, by decide +kernel, by decide +kernel, fun e' hfalse => ?_, (hstay t e true he).1⟩
  have hcontra : true = false := hagree t t' e e' true false ht he hfalse
  cases hcontra

end LambdaCalculus.Church
