import LambdaCalculus.Proofs.Alpha
import LambdaCalculus.Proofs.Reduction.Evaluation
import Mathlib.Data.List.Forall2

/-!
# Evaluation up to the names of bound variables

Evaluations of alpha-equivalent terms run in lockstep.  The terms may drift apart in their binders, because the two
runs choose different fresh names, but each pair of steps leads from alpha-equivalent terms to alpha-equivalent terms
or does not exist on either side (`Strategy.step?_alphaEq`), so the two runs stay in the relation
`Reduction.AlphaEq` (`Reduction.AlphaEq.run`).
-/

namespace LambdaCalculus

/-- A step leads from alpha-equivalent terms to alpha-equivalent terms, unless both are normal. -/
private theorem Strategy.step?_alphaEq (s : Strategy) {t t' : Term} (h : t.alphaEq t' = true) :
    Option.Rel (fun u u' => u.alphaEq u' = true) (s.step? t) (s.step? t') := by
  have hmap : (s.step? t).map Term.nameless = (s.step? t').map Term.nameless := by
    rw [← namelessStep?_nameless, ← namelessStep?_nameless, Term.alphaEq_iff.1 h]
  cases hu : s.step? t with
  | none =>
    rw [hu, Option.map_none, eq_comm, Option.map_eq_none_iff] at hmap
    rw [hmap]
    exact .none
  | some u =>
    rw [hu, Option.map_some, eq_comm, Option.map_eq_some_iff] at hmap
    obtain ⟨u', hu', hnameless⟩ := hmap
    rw [hu']
    exact .some (Term.alphaEq_iff.2 hnameless.symm)

namespace Reduction

/-- Two stages of evaluation that differ at most in the names of bound variables. -/
structure AlphaEq (r r' : Reduction) : Prop where
  term : r.term.alphaEq r'.term = true
  steps : r.steps = r'.steps
  isNormal : r.isNormal = r'.isNormal
  trace : List.Forall₂ (fun t t' => t.alphaEq t' = true) r.trace.toList r'.trace.toList

private theorem AlphaEq.start {t t' : Term} (h : t.alphaEq t' = true) : AlphaEq (.start t) (.start t') where
  term := h
  steps := rfl
  isNormal := rfl
  trace := .nil

/-- The next stage, with the step recorded or not. -/
private theorem AlphaEq.advance {r r' : Reduction} (h : AlphaEq r r') {t t' : Term} (ht : t.alphaEq t' = true)
    (record : Bool) : AlphaEq (r.advance record t) (r'.advance record t') where
  term := ht
  steps := congrArg (· + 1) h.steps
  isNormal := rfl
  trace := by
    cases record with
    | false => exact h.trace
    | true =>
      simp only [Reduction.advance, if_true, Array.toList_push]
      exact List.rel_append h.trace (.cons ht .nil)

private theorem AlphaEq.run {r r' : Reduction} (h : AlphaEq r r') (s : Strategy) (record : Bool) (budget : Nat) :
    AlphaEq (run s.step? record budget r) (run s.step? record budget r') := by
  induction budget generalizing r r' with
  | zero => exact h
  | succ budget ih =>
    have hstep := s.step?_alphaEq h.term
    unfold Reduction.run
    generalize s.step? r.term = next, s.step? r'.term = next' at hstep
    cases hstep with
    | none => exact ⟨h.term, h.steps, rfl, h.trace⟩
    | some hterm => exact ih (h.advance hterm record)

end Reduction

theorem Evaluator.evaluate_alphaEq (e : Evaluator) {t t' : Term} (h : t.alphaEq t' = true) :
    (e.evaluate t).AlphaEq (e.evaluate t') :=
  (Reduction.AlphaEq.start h).run e.strategy e.trace e.maxSteps

namespace Term

private theorem innermostRedex?_eq_of_alphaEq {t t' : Term} (h : t.alphaEq t' = true) :
    t.innermostRedex? = t'.innermostRedex? := by
  rw [← innermostRedex?_namelessIn t [], ← nameless, alphaEq_iff.1 h, nameless, innermostRedex?_namelessIn]

/-- Alpha-equivalent terms have their innermost redex at the same place, their steps in normal order agree, and so do
their evaluations: in the number of steps, in what they report, in the length of the trace and, up to the names of
bound variables, in the term. -/
theorem evaluation_ignores_bound_names {t t' : Term} (h : t.alphaEq t' = true) :
    t.innermostRedex? = t'.innermostRedex? ∧
      (t.normalStep?.isSome = t'.normalStep?.isSome ∧
        (t.normalStep?.getD t).alphaEq (t'.normalStep?.getD t') = true) ∧
      ∀ e : Evaluator,
        (e.evaluate t).steps = (e.evaluate t').steps ∧
          (e.evaluate t).isNormal = (e.evaluate t').isNormal ∧
          (e.evaluate t).trace.size = (e.evaluate t').trace.size ∧
          (e.evaluate t).term.alphaEq (e.evaluate t').term = true := by
  refine ⟨innermostRedex?_eq_of_alphaEq h, ?step, ?evaluate⟩
  case step =>
    have hstep : Option.Rel _ t.normalStep? t'.normalStep? := Strategy.normal.step?_alphaEq h
    generalize t.normalStep? = next, t'.normalStep? = next' at hstep ⊢
    cases hstep with
    | none => exact ⟨rfl, h⟩
    | some hterm => exact ⟨rfl, hterm⟩
  case evaluate =>
    intro e
    have hrun := e.evaluate_alphaEq h
    exact ⟨hrun.steps, hrun.isNormal, by simpa using hrun.trace.length_eq, hrun.term⟩

/-- The binder of `y` has to be renamed in one of the two runs only. -/
theorem evaluation_ignores_bound_names_one_renamed :
    let t := app (app (abs "a" (abs "y" (var "a"))) (var "y")) (var "z")
    let t' := app (app (abs "b" (abs "w" (var "b"))) (var "y")) (var "z")
    let e : Evaluator := { strategy := .applicative, maxSteps := 1, trace := true }
    t.alphaEq t' = true ∧ (e.evaluate t).term = app (abs "y1" (var "y")) (var "z") ∧
      (e.evaluate t').term = app (abs "w" (var "y")) (var "z") ∧
      t.innermostRedex? = t'.innermostRedex? ∧ t'.innermostRedex? = some [.left] ∧
      (e.evaluate t).trace.size = (e.evaluate t').trace.size ∧
      (e.evaluate t).term.alphaEq (e.evaluate t').term = true := by
  intro t t' e
  have h : t.alphaEq t' = true := by decide +kernel
  have hagree := evaluation_ignores_bound_names h
  refine ⟨h, ?_, ?_, hagree.1, rfl, (hagree.2.2 e).2.2.1, (hagree.2.2 e).2.2.2⟩
  · decide +kernel
  · decide +kernel

end Term

end LambdaCalculus
