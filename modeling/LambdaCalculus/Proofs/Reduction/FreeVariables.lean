import LambdaCalculus.Proofs.Reduction.Composition
import LambdaCalculus.Proofs.Substitution
import Mathlib.Data.Finset.Basic

/-!
# Free variables along a reduction

A contraction may lose free variables, with an argument that is thrown away, but none come up
(`Contracts.freeVars_subset`).  So the free variables of a term bound those of all that it reduces to
(`Reduces.freeVars_subset`), and the terms that an evaluation passes through have fewer and fewer of them
(`Reduction.freeVars_subset_of_after?`).
-/

namespace LambdaCalculus

namespace Term

/-- The free variables after a substitution, as a set. -/
private theorem toFinset_freeVars_subst (t : Term) (x : Name) (r : Term) :
    (t.subst x r).freeVars.toFinset =
      if x ∈ t.freeVars then t.freeVars.toFinset.erase x ∪ r.freeVars.toFinset else t.freeVars.toFinset := by
  ext y
  rw [List.mem_toFinset, mem_freeVars_subst_iff]
  by_cases hx : x ∈ t.freeVars
  · simp [hx, and_comm]
  · have hne : y ∈ t.freeVars → y ≠ x := by
      rintro hy rfl
      exact hx hy
    simpa [hx] using hne

private theorem Contracts.freeVars_subset {t u : Term} (h : Contracts t u) : u.freeVars ⊆ t.freeVars := by
  induction h using Contracts.induction with
  | redex x body arg =>
    intro y hy
    rw [freeVars, freeVars, List.mem_append, List.mem_filter]
    rcases mem_freeVars_subst_iff.1 hy with ⟨hbody, hne⟩ | ⟨-, harg⟩
    · exact .inl ⟨hbody, by simpa using hne⟩
    · exact .inr harg
  | body x _ ih =>
    intro y hy
    rw [freeVars, List.mem_filter] at hy ⊢
    exact ⟨ih hy.1, hy.2⟩
  | fn arg _ ih =>
    intro y hy
    rcases List.mem_append.1 hy with hfn | harg
    · exact List.mem_append_left _ (ih hfn)
    · exact List.mem_append_right _ harg
  | arg fn _ ih =>
    intro y hy
    rcases List.mem_append.1 hy with hfn | harg
    · exact List.mem_append_left _ hfn
    · exact List.mem_append_right _ (ih harg)

private theorem Reduces.freeVars_subset {t u : Term} (h : Reduces t u) : u.freeVars ⊆ t.freeVars := by
  induction h with
  | refl => exact List.Subset.refl _
  | tail _ h ih => exact List.Subset.trans h.freeVars_subset ih

end Term

namespace Reduction

variable {s : Strategy} {t u v : Term}

/-- Each step has only free variables of the term before it. -/
private theorem freeVars_subset_of_after? {i : Nat} (hu : after? s.step? i t = some u)
    (hv : after? s.step? (i + 1) t = some v) : v.freeVars ⊆ u.freeVars := by
  rw [after?_add_one, hu, Option.bind_some] at hv
  exact (Strategy.contracts_of_step? hv).freeVars_subset

/-- Before a step that was taken there is a term. -/
private theorem exists_after?_of_lt {step? : Term → Option Term} {i k : Nat} (h : after? step? k t = some u)
    (hi : i < k) : ∃ v w, after? step? i t = some v ∧ after? step? (i + 1) t = some w := by
  obtain ⟨j, rfl⟩ : ∃ j, k = i + 1 + j := Nat.exists_eq_add_of_le hi
  rw [after?_add] at h
  obtain ⟨w, hw, -⟩ := Option.bind_eq_some_iff.1 h
  rw [after?_add_one] at hw
  obtain ⟨v, hv, hstep⟩ := Option.bind_eq_some_iff.1 hw
  exact ⟨v, w, hv, by rw [after?_add_one, hv, Option.bind_some, hstep]⟩

end Reduction

namespace Evaluator

open Reduction (after? Recorded)

/-- The terms of a recorded evaluation. -/
private theorem getElem?_trace_evaluate {e : Evaluator} (he : e.trace = true) (t : Term) {i : Nat}
    (hi : i < (e.evaluate t).steps) : (e.evaluate t).trace[i]? = after? e.strategy.step? (i + 1) t := by
  have hrecorded : Recorded e.strategy.step? t (e.evaluate t) := by
    rw [evaluate, he]
    exact (Recorded.start e.strategy.step? t).run e.maxSteps
  exact hrecorded.trace i hi

/-- A substitution takes a free variable away and puts in those of the replacement for it, or it changes nothing if the
variable is not free.  So each term that an evaluation passes through, the one it returns among them, has only free
variables of the term before it, and from a closed term all of them are closed. -/
theorem no_free_variable_appears :
    (∀ (t : Term) (x : Name) (r : Term), (t.subst x r).freeVars.toFinset =
        if x ∈ t.freeVars then t.freeVars.toFinset.erase x ∪ r.freeVars.toFinset else t.freeVars.toFinset) ∧
      ∀ (e : Evaluator) (t : Term),
        after? e.strategy.step? (e.evaluate t).steps t = some (e.evaluate t).term ∧
          (∀ i < (e.evaluate t).steps, ∃ u v,
            after? e.strategy.step? i t = some u ∧ after? e.strategy.step? (i + 1) t = some v ∧
              v.freeVars ⊆ u.freeVars ∧ (e.trace = true → (e.evaluate t).trace[i]? = some v)) ∧
          (e.evaluate t).term.freeVars ⊆ t.freeVars ∧
          (t.freeVars = [] → (∀ i u, after? e.strategy.step? i t = some u → u.freeVars = []) ∧
            (e.evaluate t).term.freeVars = []) := by
  refine ⟨Term.toFinset_freeVars_subst, fun e t => ?_⟩
  have hterm := (e.evaluate_spec t).1
  have hsubset := (e.reduces_evaluate t).freeVars_subset
  refine ⟨hterm, ?steps, hsubset, ?closed⟩
  case steps =>
    intro i hi
    obtain ⟨u, v, hu, hv⟩ := Reduction.exists_after?_of_lt hterm hi
    refine ⟨u, v, hu, hv, Reduction.freeVars_subset_of_after? hu hv, ?_⟩
    intro he
    rw [getElem?_trace_evaluate he t hi, hv]
  case closed =>
    intro ht
    constructor
    · intro i u hu
      have hreduces := Reduction.reduces_of_after? hu
      exact List.subset_nil.1 (ht ▸ hreduces.freeVars_subset)
    · exact List.subset_nil.1 (ht ▸ hsubset)

/-- The variable `x` goes away behind a renamed binder, and a closed term throws its argument away. -/
theorem no_free_variable_appears_renamed_binder :
    let t := Term.app (.abs "x" (.abs "y" (.var "x"))) (.abs "z" (.var "z"))
    let e : Evaluator := { strategy := .normal, maxSteps := 5, trace := true }
    ((Term.abs "y" (.app (.var "x") (.var "y"))).subst "x" (.app (.var "y") (.var "z"))).freeVars.toFinset =
        {"y", "z"} ∧
      t.freeVars = [] ∧ (e.evaluate (.app t t)).steps = 2 ∧ (e.evaluate (.app t t)).term.freeVars = [] := by
  intro t e
  have ht : (Term.app t t).freeVars = [] := by decide
  obtain ⟨hsubst, hevaluate⟩ := no_free_variable_appears
  refine ⟨?_, by decide, by decide +kernel, ((hevaluate e (.app t t)).2.2.2 ht).2⟩
  rw [hsubst]
  decide

end Evaluator

end LambdaCalculus
