import LambdaCalculus.Proofs.Reduction.Strategy
import LambdaCalculus.Reduction.Evaluator

/-!
# Runs with a budget

`after? step? k t` is the term after `k` steps from `t`.  A run stops at the first term without a step, and reports it,
or when its budget is used up (`run_spec`); for the two strategies the terms without a step are the normal ones
(`evaluate_spec`).  So an evaluation is a reduction (`reduces_evaluate`), and a budget above the number of the steps to
a normal term is enough to report it (`evaluate_of_after?`).  The steps may be those of the nameless form
(`exists_budget_of_nameless`).
-/

namespace LambdaCalculus

namespace Reduction

/-- The term after `k` steps, unless there are fewer. -/
def after? (step? : Term → Option Term) : Nat → Term → Option Term
  | 0, t => some t
  | k + 1, t => (step? t).bind (after? step? k)

variable {step? : Term → Option Term}

private theorem after?_succ_eq_some_iff {k : Nat} {t u : Term} :
    after? step? (k + 1) t = some u ↔ ∃ v, step? t = some v ∧ after? step? k v = some u :=
  Option.bind_eq_some_iff

/-- A term without a step ends every sequence of steps that reaches it. -/
private theorem after?_stuck {k k' : Nat} {t u v : Term} (h : after? step? k t = some u) (hu : step? u = none)
    (h' : after? step? k' t = some v) : k' ≤ k ∧ (step? v = none → v = u) := by
  induction k generalizing t k' with
  | zero =>
    cases h
    cases k' with
    | zero =>
      cases h'
      exact ⟨Nat.le_refl 0, fun _ => rfl⟩
    | succ k' =>
      obtain ⟨w, hw, -⟩ := after?_succ_eq_some_iff.1 h'
      rw [hu] at hw
      cases hw
  | succ k ih =>
    obtain ⟨w, hw, h⟩ := after?_succ_eq_some_iff.1 h
    cases k' with
    | zero =>
      cases h'
      refine ⟨Nat.zero_le _, fun ht => ?_⟩
      rw [ht] at hw
      cases hw
    | succ k' =>
      obtain ⟨w', hw', h'⟩ := after?_succ_eq_some_iff.1 h'
      rw [hw] at hw'
      cases hw'
      obtain ⟨hle, hv⟩ := ih h h'
      exact ⟨by omega, hv⟩

/-! ### Runs -/

/-- The stage at which no step has been found. -/
def stop (r : Reduction) : Reduction :=
  { r with isNormal := true }

/-- The stage behind a step to `t`. -/
def advance (record : Bool) (r : Reduction) (t : Term) : Reduction :=
  { term := t, steps := r.steps + 1, isNormal := false, trace := if record then r.trace.push t else r.trace }

theorem run_succ_of_none {r : Reduction} (h : step? r.term = none) (record : Bool) (budget : Nat) :
    run step? record (budget + 1) r = r.stop := by
  rw [run, h]
  rfl

theorem run_succ_of_some {r : Reduction} {t : Term} (h : step? r.term = some t) (record : Bool) (budget : Nat) :
    run step? record (budget + 1) r = run step? record budget (r.advance record t) := by
  rw [run, h]
  rfl

/-- A run takes the steps there are, as far as its budget goes, and reports a term without a step. -/
private theorem run_spec (step? : Term → Option Term) (record : Bool) (budget : Nat) {r : Reduction}
    (hr : r.isNormal = false) :
    ∃ k, after? step? k r.term = some (run step? record budget r).term ∧
      (run step? record budget r).steps = r.steps + k ∧
      ((run step? record budget r).isNormal = true ∧ step? (run step? record budget r).term = none ∧ k < budget ∨
        (run step? record budget r).isNormal = false ∧ k = budget) := by
  induction budget generalizing r with
  | zero => exact ⟨0, rfl, rfl, .inr ⟨hr, rfl⟩⟩
  | succ budget ih =>
    cases h : step? r.term with
    | none =>
      rw [run_succ_of_none h]
      exact ⟨0, rfl, rfl, .inl ⟨rfl, h, Nat.zero_lt_succ _⟩⟩
    | some t =>
      rw [run_succ_of_some h]
      obtain ⟨k, hterm, hsteps, hend⟩ := ih (r := r.advance record t) rfl
      refine ⟨k + 1, after?_succ_eq_some_iff.2 ⟨t, h, hterm⟩, hsteps.trans (Nat.add_right_comm r.steps 1 k), ?_⟩
      rcases hend with ⟨hnormal, hstep, hk⟩ | ⟨hnormal, hk⟩
      · exact .inl ⟨hnormal, hstep, by omega⟩
      · exact .inr ⟨hnormal, by omega⟩

theorem reduces_of_after? {s : Strategy} {k : Nat} {t u : Term} (h : after? s.step? k t = some u) :
    Term.Reduces t u := by
  induction k generalizing t with
  | zero =>
    cases h
    exact .refl
  | succ k ih =>
    obtain ⟨v, hv, h⟩ := after?_succ_eq_some_iff.1 h
    exact .head (Strategy.contracts_of_step? hv) (ih h)

/-- Steps of the nameless form can be taken by the term. -/
theorem exists_after?_of_nameless {s : Strategy} {t : Term} {n : Nameless}
    (h : Relation.ReflTransGen (fun u v => s.namelessStep? u = some v) t.nameless n) :
    ∃ k u, after? s.step? k t = some u ∧ u.nameless = n := by
  generalize ht : t.nameless = m at h
  induction h using Relation.ReflTransGen.head_induction_on generalizing t with
  | refl => exact ⟨0, t, rfl, ht⟩
  | head hstep _ ih =>
    have hmap := s.namelessStep?_nameless t
    rw [ht, hstep] at hmap
    obtain ⟨v, htv, hv⟩ := Option.map_eq_some_iff.1 hmap.symm
    obtain ⟨k, u, hk, hu⟩ := ih hv
    exact ⟨k + 1, u, after?_succ_eq_some_iff.2 ⟨v, htv, hk⟩, hu⟩

end Reduction

namespace Evaluator

open Reduction (after? run_spec after?_stuck)

/-- What an evaluation returns. -/
theorem evaluate_spec (e : Evaluator) (t : Term) :
    after? e.strategy.step? (e.evaluate t).steps t = some (e.evaluate t).term ∧
      ((e.evaluate t).isNormal = true ∧ (e.evaluate t).term.isNormal = true ∧ (e.evaluate t).steps < e.maxSteps ∨
        (e.evaluate t).isNormal = false ∧ (e.evaluate t).steps = e.maxSteps) := by
  obtain ⟨k, hterm, hsteps, hend⟩ := run_spec e.strategy.step? e.trace e.maxSteps (r := .start t) rfl
  have hk : (e.evaluate t).steps = k := hsteps.trans (Nat.zero_add k)
  rw [hk]
  refine ⟨hterm, ?_⟩
  rcases hend with ⟨hnormal, hstep, hlt⟩ | hend
  · exact .inl ⟨hnormal, Strategy.step?_eq_none_iff.1 hstep, hlt⟩
  · exact .inr hend

theorem reduces_evaluate (e : Evaluator) (t : Term) : Term.Reduces t (e.evaluate t).term :=
  Reduction.reduces_of_after? (e.evaluate_spec t).1

/-- What is reported as normal is normal. -/
theorem isNormal_of_isNormal_evaluate {e : Evaluator} {t : Term} (h : (e.evaluate t).isNormal = true) :
    (e.evaluate t).term.isNormal = true := by
  rcases (e.evaluate_spec t).2 with ⟨-, hnormal, -⟩ | ⟨hfalse, -⟩
  · exact hnormal
  · rw [hfalse] at h
    cases h

/-- An evaluation returns a term as it is and reports it exactly if the term is normal. -/
theorem evaluate_eq_iff {e : Evaluator} {t : Term} :
    e.evaluate t = { term := t, steps := 0, isNormal := true, trace := #[] } ↔ t.isNormal = true := by
  constructor
  · intro h
    have hnormal := isNormal_of_isNormal_evaluate (congrArg Reduction.isNormal h)
    rwa [h] at hnormal
  · intro h
    obtain ⟨budget, hbudget⟩ : ∃ budget, e.maxSteps = budget + 1 := Nat.exists_eq_add_one.2 e.maxSteps_pos
    rw [evaluate, hbudget]
    exact Reduction.run_succ_of_none (r := .start t) (Strategy.step?_eq_none_iff.2 h) e.trace budget

/-- A budget above the number of steps to a normal term is enough to report it. -/
private theorem evaluate_of_after? {e : Evaluator} {t u : Term} {k : Nat} (h : after? e.strategy.step? k t = some u)
    (hu : u.isNormal = true) (hk : k < e.maxSteps) :
    (e.evaluate t).isNormal = true ∧ (e.evaluate t).term = u := by
  obtain ⟨hterm, hend⟩ := e.evaluate_spec t
  obtain ⟨hle, heq⟩ := after?_stuck h (Strategy.step?_eq_none_iff.2 hu) hterm
  rcases hend with ⟨hreported, hnormal, -⟩ | ⟨-, hsteps⟩
  · exact ⟨hreported, heq (Strategy.step?_eq_none_iff.2 hnormal)⟩
  · omega

/-- A budget of as many steps as lead to a normal term is enough to return it. -/
theorem evaluate_term_of_after? {e : Evaluator} {t u : Term} {k : Nat} (h : after? e.strategy.step? k t = some u)
    (hu : u.isNormal = true) (hk : k ≤ e.maxSteps) : (e.evaluate t).term = u := by
  rcases Nat.eq_or_lt_of_le hk with rfl | hlt
  · obtain ⟨hterm, hend⟩ := e.evaluate_spec t
    obtain ⟨-, heq⟩ := after?_stuck h (Strategy.step?_eq_none_iff.2 hu) hterm
    rcases hend with ⟨-, hnormal, -⟩ | ⟨-, hsteps⟩
    · exact heq (Strategy.step?_eq_none_iff.2 hnormal)
    · rw [hsteps, h] at hterm
      exact (Option.some.inj hterm).symm
  · exact (evaluate_of_after? h hu hlt).2

/-- Steps of the nameless form to a normal form are found by an evaluation with enough steps. -/
theorem exists_budget_of_nameless {s : Strategy} {t : Term} {n : Nameless}
    (h : Relation.ReflTransGen (fun u v => s.namelessStep? u = some v) t.nameless n) (hn : n.isNormal = true) :
    ∃ budget, ∀ e : Evaluator, e.strategy = s → budget ≤ e.maxSteps →
      (e.evaluate t).isNormal = true ∧ (e.evaluate t).term.nameless = n := by
  obtain ⟨k, u, hk, hun⟩ := Reduction.exists_after?_of_nameless h
  have hu : u.isNormal = true := by rw [← Term.isNormal_nameless, hun, hn]
  refine ⟨k + 1, ?_⟩
  rintro e rfl hbudget
  obtain ⟨hreported, hterm⟩ := evaluate_of_after? hk hu hbudget
  exact ⟨hreported, by rw [hterm, hun]⟩

end Evaluator

end LambdaCalculus
