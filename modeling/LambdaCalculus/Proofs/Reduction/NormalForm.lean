import LambdaCalculus.Proofs.Alpha
import LambdaCalculus.Proofs.Reduction.Evaluation
import Mathlib.Tactic.TFAE

/-!
# Normal forms of named terms

All that finds no redex in a term, or none in any of its subterms, agrees on which terms are normal
(`normal_form_notions_agree`), because all of it comes down to the list of the redexes.

Two reductions from alpha-equivalent terms that both end in a normal term end in alpha-equivalent ones
(`alphaEq_of_reduces`), so it does not matter for a result which strategy found it.  If there is such a reduction at
all, then evaluation in normal order finds its end within some budget (`exists_budget_of_reduces`).

The last two facts hold of the nameless forms, where a contraction has no names to choose.
-/

namespace LambdaCalculus.Term

/-! ### Normal terms -/

/-- A term is normal exactly if there is no step in normal order, which leaves the term as it is then, if the search for
an innermost redex finds none, if no subterm is a redex, and if all evaluations, or only one of them, return the term
without a step and report it as normal. -/
theorem normal_form_notions_agree (t : Term) :
    [t.isNormal = true,
      t.normalStep?.isSome = false,
      (t.normalStep?.getD t, t.normalStep?.isSome) = (t, false),
      t.innermostRedex? = none,
      ∀ path u, t.subterm? path = some u → u.isRedex = false,
      ∀ e : Evaluator, e.evaluate t = { term := t, steps := 0, isNormal := true, trace := #[] },
      ∃ e : Evaluator, e.evaluate t = { term := t, steps := 0, isNormal := true, trace := #[] }].TFAE := by
  have hstep : t.normalStep?.isSome = false ↔ t.normalStep? = none := by
    rw [← Bool.not_eq_true, Option.not_isSome_iff_eq_none]
  tfae_have 1 ↔ 2 := by rw [hstep, normalStep?_eq_none_iff]
  tfae_have 2 → 3 := by
    intro h
    rw [hstep.1 h]
    rfl
  tfae_have 3 → 2 := congrArg Prod.snd
  tfae_have 1 ↔ 4 := innermostRedex?_eq_none_iff.symm
  tfae_have 1 ↔ 5 := by
    rw [← redexes_eq_nil_iff, List.eq_nil_iff_forall_not_mem]
    simp only [mem_redexes_iff, RedexAt, not_exists, not_and, Bool.not_eq_true]
  tfae_have 1 → 6 := fun h e => Evaluator.evaluate_eq_iff.2 h
  tfae_have 6 → 7 := fun h => ⟨.standard, h .standard⟩
  tfae_have 7 → 1 := by
    rintro ⟨e, h⟩
    exact Evaluator.evaluate_eq_iff.1 h
  tfae_finish

/-! ### Normal forms of reductions -/

/-- Normal forms are unique up to the names of bound variables. -/
theorem alphaEq_of_reduces {t t' u v : Term} (ht : t.alphaEq t' = true) (htu : Reduces t u) (htv : Reduces t' v)
    (hu : u.isNormal = true) (hv : v.isNormal = true) : u.alphaEq v = true := by
  rw [alphaEq_iff] at ht ⊢
  refine Nameless.Reduces.normal_unique (Reduces.nameless htu) ?_ (by simpa using hu) (by simpa using hv)
  rw [ht]
  exact Reduces.nameless htv

/-- Normal order reaches every normal form that the nameless form has, given enough steps. -/
theorem exists_budget_of_nameless_reduces {t : Term} {n : Nameless} (h : Nameless.Reduces t.nameless n)
    (hn : n.isNormal = true) :
    ∃ budget, ∀ e : Evaluator, e.strategy = .normal → budget ≤ e.maxSteps →
      (e.evaluate t).isNormal = true ∧ (e.evaluate t).term.nameless = n :=
  Evaluator.exists_budget_of_nameless (s := .normal) (Nameless.normalReduces_of_reduces h hn) hn

/-- Normal order reaches every normal form that any reduction reaches, given enough steps. -/
theorem exists_budget_of_reduces {t n : Term} (h : Reduces t n) (hn : n.isNormal = true) :
    ∃ budget, ∀ e : Evaluator, e.strategy = .normal → budget ≤ e.maxSteps →
      (e.evaluate t).isNormal = true ∧ (e.evaluate t).term.alphaEq n = true := by
  simp only [alphaEq_iff]
  exact exists_budget_of_nameless_reduces h.nameless (by simpa using hn)

/-! ### Strategies and results -/

/-- Evaluations of alpha-equivalent terms, by whichever strategies, agree on a normal form, and so do any two reductions
of a term. -/
theorem normal_forms_agree :
    (∀ (t t' : Term) (e e' : Evaluator), t.alphaEq t' = true → (e.evaluate t).term.isNormal = true →
        (e'.evaluate t').term.isNormal = true → (e.evaluate t).term.alphaEq (e'.evaluate t').term = true) ∧
      ∀ t u v : Term, Reduces t u → Reduces t v → u.isNormal = true → v.isNormal = true →
        u.alphaEq v = true := by
  constructor
  · intro t t' e e' ht hu hv
    exact alphaEq_of_reduces ht (e.reduces_evaluate t) (e'.reduces_evaluate t') hu hv
  · intro t u v htu htv hu hv
    exact alphaEq_of_reduces (alphaEq_iff.2 rfl) htu htv hu hv

/-- Normal order has to rename the binder of `y`, for an argument that applicative order has contracted to `c` first. -/
theorem normal_forms_agree_renamed_binder :
    let t := app (abs "a" (abs "y" (var "a"))) (app (abs "b" (var "c")) (var "y"))
    let normal : Evaluator := { strategy := .normal, maxSteps := 5, trace := false }
    let applicative : Evaluator := { strategy := .applicative, maxSteps := 7, trace := true }
    (normal.evaluate t).term = abs "y1" (var "c") ∧ (applicative.evaluate t).term = abs "y" (var "c") ∧
      (normal.evaluate t).term.alphaEq (applicative.evaluate t).term = true ∧
      (abs "y1" (var "c")).alphaEq (abs "y" (var "c")) = true := by
  intro t normal applicative
  have hn : (normal.evaluate t).term = abs "y1" (var "c") := by decide +kernel
  have ha : (applicative.evaluate t).term = abs "y" (var "c") := by decide +kernel
  refine ⟨hn, ha, normal_forms_agree.1 t t normal applicative ?_ ?_ ?_, ?_⟩
  · decide +kernel
  · rw [hn]; rfl
  · rw [ha]; rfl
  · exact normal_forms_agree.2 t _ _ (hn ▸ normal.reduces_evaluate t) (ha ▸ applicative.reduces_evaluate t) rfl rfl

/-- Normal order finds every normal form, those that applicative order finds among them. -/
theorem normal_order_normalises :
    (∀ t n : Term, Reduces t n → n.isNormal = true →
        ∃ budget, ∀ e : Evaluator, e.strategy = .normal → budget ≤ e.maxSteps →
          (e.evaluate t).isNormal = true ∧ (e.evaluate t).term.alphaEq n = true) ∧
      ∀ (t : Term) (a : Evaluator), a.strategy = .applicative → (a.evaluate t).isNormal = true →
        ∃ budget, ∀ e : Evaluator, e.strategy = .normal → budget ≤ e.maxSteps →
          (e.evaluate t).isNormal = true ∧ (e.evaluate t).term.alphaEq (a.evaluate t).term = true := by
  constructor
  · intro t n h hn
    exact exists_budget_of_reduces h hn
  · intro t a _ h
    exact exists_budget_of_reduces (a.reduces_evaluate t) (Evaluator.isNormal_of_isNormal_evaluate h)

/-- An argument without a normal form is thrown away, and applicative order would not stop in it. -/
theorem normal_order_normalises_past_loop :
    let loop := app (abs "x" (app (var "x") (var "x"))) (abs "x" (app (var "x") (var "x")))
    let a : Evaluator := { strategy := .applicative, maxSteps := 9, trace := false }
    (∃ budget, ∀ e : Evaluator, e.strategy = .normal → budget ≤ e.maxSteps →
        (e.evaluate (app (abs "x" (var "y")) loop)).isNormal = true ∧
          (e.evaluate (app (abs "x" (var "y")) loop)).term.alphaEq (var "y") = true) ∧
      ∃ budget, ∀ e : Evaluator, e.strategy = .normal → budget ≤ e.maxSteps →
        (e.evaluate (app (abs "x" (var "y")) (app (abs "x" (var "x")) (var "z")))).isNormal = true ∧
          (e.evaluate (app (abs "x" (var "y")) (app (abs "x" (var "x")) (var "z")))).term.alphaEq
            (a.evaluate (app (abs "x" (var "y")) (app (abs "x" (var "x")) (var "z")))).term = true := by
  intro loop a
  have hloop : Reduces (app (abs "x" (var "y")) loop) (var "y") := .single ⟨[], by decide +kernel⟩
  exact ⟨normal_order_normalises.1 _ _ hloop rfl, normal_order_normalises.2 _ a rfl (by decide +kernel)⟩

end LambdaCalculus.Term
