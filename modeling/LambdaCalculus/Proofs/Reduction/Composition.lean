import LambdaCalculus.Proofs.Reduction.Evaluation
import LambdaCalculus.Term.Printer

/-!
# Runs split and join

A run with the budget `a + b` is a run with the budget `a` that goes on with the budget `b` (`run_add`), and what has
been counted and recorded before only stands in front of what comes after (`run_andThen`).  So an evaluation that used
up its budget can be taken up again from the term it returned, and one that found a normal term is the evaluation with
every larger budget too.

The trace of a recorded run is the sequence of the terms after each step: this holds of its start and is kept by each
step (`Recorded.advance`).  Without the trace the run is the same (`run_forget`).
-/

namespace LambdaCalculus

namespace Reduction

variable {step? : Term → Option Term}

/-! ### Budgets -/

/-- A run that has stopped at a term without a step does not go on. -/
private theorem run_of_isNormal {r : Reduction} (hr : r.isNormal = true) (h : step? r.term = none) (record : Bool)
    (budget : Nat) : run step? record budget r = r := by
  cases budget with
  | zero => rfl
  | succ budget => rw [run_succ_of_none h, stop, ← hr]

/-- Two budgets one after the other are one. -/
theorem run_add (step? : Term → Option Term) (record : Bool) (a b : Nat) (r : Reduction) :
    run step? record (a + b) r = run step? record b (run step? record a r) := by
  induction a generalizing r with
  | zero => rw [Nat.zero_add, run]
  | succ a ih =>
    rw [Nat.add_right_comm]
    cases h : step? r.term with
    | none =>
      have hstop : run step? record b r.stop = r.stop := run_of_isNormal (r := r.stop) rfl h record b
      rw [run_succ_of_none h, run_succ_of_none h, hstop]
    | some t => rw [run_succ_of_some h, run_succ_of_some h, ih]

/-- What has come of a term and then of the term that came of it. -/
def andThen (r r' : Reduction) : Reduction :=
  { term := r'.term, steps := r.steps + r'.steps, isNormal := r'.isNormal, trace := r.trace ++ r'.trace }

theorem andThen_start {r : Reduction} (h : r.isNormal = false) : r.andThen (.start r.term) = r := by
  simp [andThen, start, ← h]

private theorem advance_andThen (r r' : Reduction) (record : Bool) (t : Term) :
    (r.andThen r').advance record t = r.andThen (r'.advance record t) := by
  cases record with
  | false => rfl
  | true => simp [advance, andThen, Array.push_append, Nat.add_assoc]

/-- A run carries along what stands in front of it. -/
theorem run_andThen (step? : Term → Option Term) (record : Bool) (budget : Nat) (r r' : Reduction) :
    run step? record budget (r.andThen r') = r.andThen (run step? record budget r') := by
  induction budget generalizing r' with
  | zero => rfl
  | succ budget ih =>
    have hterm : (r.andThen r').term = r'.term := rfl
    cases h : step? r'.term with
    | none =>
      rw [run_succ_of_none h, run_succ_of_none (hterm ▸ h)]
      rfl
    | some t => rw [run_succ_of_some h, run_succ_of_some (hterm ▸ h), advance_andThen, ih]

/-! ### Traces -/

/-- The same result without its trace. -/
def forget (r : Reduction) : Reduction :=
  { r with trace := #[] }

/-- Recording changes nothing but the trace. -/
private theorem run_forget (step? : Term → Option Term) (record : Bool) (budget : Nat) (r : Reduction) :
    run step? false budget r.forget = (run step? record budget r).forget := by
  induction budget generalizing r with
  | zero => rfl
  | succ budget ih =>
    have hterm : r.forget.term = r.term := rfl
    cases h : step? r.term with
    | none =>
      rw [run_succ_of_none h, run_succ_of_none (hterm ▸ h)]
      rfl
    | some t =>
      rw [run_succ_of_some h, run_succ_of_some (hterm ▸ h), ← ih]
      rfl

/-- Steps and then further steps. -/
theorem after?_add (step? : Term → Option Term) (j k : Nat) (t : Term) :
    after? step? (j + k) t = (after? step? j t).bind (after? step? k) := by
  induction j generalizing t with
  | zero => rw [Nat.zero_add, after?, Option.bind_some]
  | succ j ih =>
    rw [Nat.add_right_comm, after?, after?, Option.bind_assoc]
    exact congrArg _ (funext ih)

theorem after?_add_one (step? : Term → Option Term) (k : Nat) (t : Term) :
    after? step? (k + 1) t = (after? step? k t).bind step? := by
  have hone : after? step? 1 = step? := funext fun u => Option.bind_fun_some (step? u)
  rw [after?_add, hone]

/-- The stage of a recorded run from `t`: the trace has the terms after each of the steps so far. -/
structure Recorded (step? : Term → Option Term) (t : Term) (r : Reduction) : Prop where
  term : after? step? r.steps t = some r.term
  size : r.trace.size = r.steps
  trace : ∀ i < r.steps, r.trace[i]? = after? step? (i + 1) t

theorem Recorded.start (step? : Term → Option Term) (t : Term) : Recorded step? t (.start t) where
  term := rfl
  size := rfl
  trace := fun _ hi => absurd hi (Nat.not_lt_zero _)

private theorem Recorded.advance {t u : Term} {r : Reduction} (h : Recorded step? t r) (hu : step? r.term = some u) :
    Recorded step? t (r.advance true u) := by
  have hterm : after? step? (r.steps + 1) t = some u := by rw [after?_add_one, h.term, Option.bind_some, hu]
  refine ⟨hterm, ?_, fun i hi => ?_⟩
  · simp [Reduction.advance, h.size]
  · simp only [Reduction.advance, if_true, Array.getElem?_push, h.size]
    split
    · rename_i hi
      rw [hi, hterm]
    · rename_i hne
      have hlt : i < r.steps := Nat.lt_of_le_of_ne (Nat.le_of_lt_succ hi) hne
      exact h.trace i hlt

theorem Recorded.run {t : Term} {r : Reduction} (h : Recorded step? t r) (budget : Nat) :
    Recorded step? t (run step? true budget r) := by
  induction budget generalizing r with
  | zero => exact h
  | succ budget ih =>
    cases hstep : step? r.term with
    | none =>
      rw [run_succ_of_none hstep]
      exact ⟨h.term, h.size, h.trace⟩
    | some u =>
      rw [run_succ_of_some hstep]
      exact ih (h.advance hstep)

end Reduction

namespace Evaluator

open Reduction (after?)

/-- An evaluation stops at a term without a step exactly if it does not use up its budget. -/
private theorem isNormal_evaluate_iff (e : Evaluator) (t : Term) :
    ((e.evaluate t).isNormal = true ↔
        e.strategy.step? (e.evaluate t).term = none ∧ (e.evaluate t).steps < e.maxSteps) ∧
      ((e.evaluate t).isNormal = false ↔ (e.evaluate t).steps = e.maxSteps) := by
  rcases (e.evaluate_spec t).2 with ⟨hreported, hnormal, hlt⟩ | ⟨hreported, hsteps⟩
  · rw [hreported, Strategy.step?_eq_none_iff]
    refine ⟨iff_of_true rfl ⟨hnormal, hlt⟩, iff_of_false (by decide) ?_⟩
    omega
  · rw [hreported]
    refine ⟨iff_of_false (by decide) ?_, iff_of_true rfl hsteps⟩
    rintro ⟨-, hlt⟩
    omega

/-- An evaluation returns the term after the steps that it counts, and it reports a normal form exactly if the strategy
has no further step and budget is left.  An evaluation that used up its budget is continued by an evaluation of the
term it returned, with the counts added and the traces joined; one that did not is that with every larger budget.
Recording changes nothing but the trace, which then has the term after each step. -/
theorem evaluation_composes (s : Strategy) (t : Term) (record : Bool) {a : Nat} (ha : 0 < a) :
    let r := (Evaluator.mk s a record ha).evaluate t
    (after? s.step? r.steps t = some r.term ∧ r.steps ≤ a) ∧
      (r.isNormal = true ↔ s.step? r.term = none ∧ r.steps < a) ∧ (r.isNormal = true → r.term.isNormal = true) ∧
      (r.isNormal = false ↔ r.steps = a) ∧
      (r.isNormal = false → ∀ (b : Nat) (hb : 0 < b),
        (Evaluator.mk s (a + b) record (Nat.add_pos_left ha b)).evaluate t =
          r.andThen ((Evaluator.mk s b record hb).evaluate r.term)) ∧
      (r.isNormal = true → ∀ (b : Nat) (hb : a ≤ b),
        (Evaluator.mk s b record (Nat.lt_of_lt_of_le ha hb)).evaluate t = r) ∧
      (Evaluator.mk s a false ha).evaluate t = r.forget ∧
      (record = true → r.trace.size = r.steps ∧ ∀ i < r.steps, ∃ u,
        after? s.step? (i + 1) t = some u ∧ r.trace[i]? = some u ∧ (r.trace.map Term.render)[i]? = some u.render) := by
  intro r
  obtain ⟨hterm, hend⟩ := (Evaluator.mk s a record ha).evaluate_spec t
  obtain ⟨hnormal, hbudget⟩ := (Evaluator.mk s a record ha).isNormal_evaluate_iff t
  have hle : r.steps ≤ a := by
    rcases hend with ⟨-, -, hlt⟩ | ⟨-, heq⟩
    · exact Nat.le_of_lt hlt
    · exact Nat.le_of_eq heq
  refine ⟨⟨hterm, hle⟩, hnormal, isNormal_of_isNormal_evaluate, hbudget, ?continued, ?finished, ?forgotten, ?recorded⟩
  case continued =>
    intro hr b hb
    calc Reduction.run s.step? record (a + b) (.start t)
        = Reduction.run s.step? record b r := Reduction.run_add ..
      _ = Reduction.run s.step? record b (r.andThen (.start r.term)) := by rw [Reduction.andThen_start hr]
      _ = r.andThen (Reduction.run s.step? record b (.start r.term)) := Reduction.run_andThen ..
  case finished =>
    intro hr b hb
    obtain ⟨c, rfl⟩ := Nat.exists_eq_add_of_le hb
    calc Reduction.run s.step? record (a + c) (.start t)
        = Reduction.run s.step? record c r := Reduction.run_add ..
      _ = r := Reduction.run_of_isNormal hr (hnormal.1 hr).1 record c
  case forgotten => exact Reduction.run_forget s.step? record a (.start t)
  case recorded =>
    rintro rfl
    have hrecorded : Reduction.Recorded s.step? t r := (Reduction.Recorded.start s.step? t).run a
    refine ⟨hrecorded.size, fun i hi => ?_⟩
    have hlt : i < r.trace.size := by rwa [hrecorded.size]
    have hsome : r.trace[i]? = some r.trace[i] := Array.getElem?_eq_getElem hlt
    refine ⟨r.trace[i], ?_, hsome, by rw [Array.getElem?_map, hsome, Option.map_some]⟩
    rw [← hrecorded.trace i hi, hsome]

/-- Two steps lead to a normal term.  A budget of two steps is used up by them, and an evaluation that goes on from
there takes none; a budget of three steps is enough to report it. -/
theorem evaluation_composes_at_normal_form :
    let id := Term.abs "x" (.var "x")
    let t := Term.app (.app id id) (.var "y")
    let two := (Evaluator.mk .normal 2 true (by decide)).evaluate t
    let three := (Evaluator.mk .normal 3 true (by decide)).evaluate t
    two = ⟨.var "y", 2, false, #[.app id (.var "y"), .var "y"]⟩ ∧
      three = two.andThen ((Evaluator.mk .normal 1 true (by decide)).evaluate two.term) ∧ three.isNormal = true ∧
      (Evaluator.mk .normal 1000 true (by decide)).evaluate t = three ∧
      (Evaluator.mk .normal 3 false (by decide)).evaluate t = ⟨.var "y", 2, true, #[]⟩ := by
  intro id t two three
  have htwo : two = ⟨.var "y", 2, false, #[.app id (.var "y"), .var "y"]⟩ := by decide +kernel
  have hthree : three = ⟨.var "y", 2, true, #[.app id (.var "y"), .var "y"]⟩ := by decide +kernel
  obtain ⟨-, -, -, -, hcontinued, -⟩ := evaluation_composes .normal t true (a := 2) (by decide)
  obtain ⟨-, -, -, -, -, hfinished, hforgotten, -⟩ := evaluation_composes .normal t true (a := 3) (by decide)
  refine ⟨htwo, hcontinued (congrArg Reduction.isNormal htwo) 1 (by decide), congrArg Reduction.isNormal hthree,
    hfinished (congrArg Reduction.isNormal hthree) 1000 (by decide), ?_⟩
  rw [hforgotten]
  exact congrArg Reduction.forget hthree

end Evaluator

end LambdaCalculus
