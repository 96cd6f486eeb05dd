import LambdaCalculus.Proofs.Church.Arithmetic
import LambdaCalculus.Proofs.Nameless.ApplicativeOrder

/-!
# Arithmetic in applicative order

Evaluation in applicative order computes sums and products of numerals of all sizes.  That there is some reduction to
the result is not enough here, because applicative order need not find it.  The order is followed instead: an operator
is evaluated below its binders when it has only its first operand, so it becomes a function in which the numeral of that
operand has been applied already (`evaluates_plus_app`, `evaluates_mult_app`), and the second operand is put into the
result of this.

A numeral is applied to a neutral term and an argument everywhere on the way (`Evaluates.church_app_app`), so no redex
comes up in the result.
-/

namespace LambdaCalculus

namespace Nameless.Evaluates

variable {f x x' : Nameless}

/-! ### Numerals applied to neutral terms -/

private theorem iterate_app (hf : f.isNeutral = true) (hx : Evaluates x x') (n : Nat) :
    Evaluates ((Nameless.app f)^[n] x) ((Nameless.app f)^[n] x') := by
  induction n with
  | zero => exact hx
  | succ n ih =>
    rw [Function.iterate_succ_apply', Function.iterate_succ_apply']
    rw [isNeutral, Bool.and_eq_true, Bool.not_eq_true'] at hf
    exact .app (.of_isNormal hf.2) ih hf.1

private theorem church_app (hf : f.isNeutral = true) (n : Nat) :
    Evaluates (Nameless.app (church n) f) (repeated n f) := by
  have hresult : Evaluates (Nameless.contract (repeated n (Nameless.bound 0)) f) (repeated n f) := by
    rw [contract_repeated]
    exact .of_isNormal (isNormal_repeated hf n)
  exact .contract (.of_isNormal (isNormal_church n)) (.of_isNormal (isNormal_of_isNeutral hf)) hresult

private theorem church_app_app (hf : f.isNeutral = true) (hx : Evaluates x x') (n : Nat) :
    Evaluates (Nameless.app (Nameless.app (church n) f) x) ((Nameless.app f)^[n] x') := by
  refine .contract (church_app hf n) hx ?_
  rw [contract_iterate_app]
  exact .of_isNormal (isNormal_iterate_app hf hx.isNormal n)

end Nameless.Evaluates

namespace Church

open Nameless (Evaluates abs app bound church repeated)

variable {a b : Nameless} {m n : Nat}

/-! ### Operators -/

/-- The application of a normal abstraction comes to its body, with the value of the argument for the parameter. -/
private theorem evaluates_app_abs {x : Name} {body : Term} (hbody : body.isNormal = true) {a' result : Nameless}
    (ha : Evaluates a a') (h : Evaluates (body.namelessWith (Function.update .free x a')) result) :
    Evaluates (app (Term.abs x body).nameless a) result := by
  rw [← Term.contract_namelessWith] at h
  rw [Term.nameless_abs]
  refine .contract (.abs (.of_isNormal ?_)) ha h
  rw [← Term.lookup_nil, Term.withParam_lookup, ← Term.namelessIn_eq, Term.isNormal_namelessIn, hbody]

private theorem evaluates_succ (ha : Evaluates a (church n)) : Evaluates (app succ.nameless a) (church (n + 1)) := by
  have hbody : Evaluates (abs (abs (app (bound 1) (app (app (church n).lift.lift (bound 1)) (bound 0)))))
      (church (n + 1)) := by
    rw [Nameless.lift_church, Nameless.lift_church, Nameless.church_eq (n + 1), Function.iterate_succ_apply']
    exact .abs (.abs (.app (.bound 1) (.church_app_app rfl (.bound 0) n) rfl))
  exact evaluates_app_abs rfl ha hbody

private theorem evaluates_numeral (n : Nat) : Evaluates (numeral n).nameless (church n) := by
  induction n with
  | zero => exact .of_isNormal (Nameless.isNormal_church 0)
  | succ n ih => exact evaluates_succ ih

/-- A sum that has its first operand only. -/
private theorem evaluates_plus_app (ha : Evaluates a (church m)) :
    Evaluates (app plus.nameless a)
      (abs (abs (abs ((app (bound 1))^[m] (app (app (bound 2) (bound 1)) (bound 0)))))) := by
  have hbody : Evaluates
      (abs (abs (abs (app (app (church m).lift.lift.lift (bound 1)) (app (app (bound 2) (bound 1)) (bound 0))))))
      (abs (abs (abs ((app (bound 1))^[m] (app (app (bound 2) (bound 1)) (bound 0)))))) := by
    rw [Nameless.lift_church, Nameless.lift_church, Nameless.lift_church]
    exact .abs (.abs (.abs (.church_app_app rfl (.of_isNormal rfl) m)))
  exact evaluates_app_abs rfl ha hbody

private theorem evaluates_plus (ha : Evaluates a (church m)) (hb : Evaluates b (church n)) :
    Evaluates (app (app plus.nameless a) b) (church (m + n)) := by
  refine .contract (evaluates_plus_app ha) hb ?_
  have hcontract :
      Nameless.contract (abs (abs ((app (bound 1))^[m] (app (app (bound 2) (bound 1)) (bound 0))))) (church n) =
        abs (abs ((app (bound 1))^[m] (app (app (church n) (bound 1)) (bound 0)))) := by
    simp [Nameless.contract, Nameless.inst, Nameless.inst_iterate_app, Nameless.extend, Nameless.argument]
  rw [hcontract, Nameless.church_eq (m + n), Function.iterate_add_apply]
  exact .abs (.abs (.iterate_app rfl (.church_app_app rfl (.bound 0) n) m))

/-- A product that has its first operand only. -/
private theorem evaluates_mult_app (ha : Evaluates a (church m)) :
    Evaluates (app mult.nameless a) (abs (abs (repeated m (app (bound 1) (bound 0))))) := by
  have hbody : Evaluates (abs (abs (app (church m).lift.lift (app (bound 1) (bound 0)))))
      (abs (abs (repeated m (app (bound 1) (bound 0))))) := by
    rw [Nameless.lift_church, Nameless.lift_church]
    exact .abs (.abs (.church_app rfl m))
  exact evaluates_app_abs rfl ha hbody

/-- To apply a numeral as often as another one says comes to the product. -/
private theorem evaluates_iterate_church (m n : Nat) :
    Evaluates ((app (app (church n) (bound 1)))^[m] (bound 0)) ((app (bound 1))^[m * n] (bound 0)) := by
  induction m with
  | zero =>
    rw [Nat.zero_mul]
    exact .bound 0
  | succ m ih =>
    rw [Function.iterate_succ_apply', Nat.succ_mul, Nat.add_comm, Function.iterate_add_apply]
    exact .church_app_app rfl ih n

private theorem evaluates_mult (ha : Evaluates a (church m)) (hb : Evaluates b (church n)) :
    Evaluates (app (app mult.nameless a) b) (church (m * n)) := by
  refine .contract (evaluates_mult_app ha) hb ?_
  have hcontract : Nameless.contract (abs (repeated m (app (bound 1) (bound 0)))) (church n) =
      abs (abs ((app (app (church n) (bound 1)))^[m] (bound 0))) := by
    rw [Nameless.contract, Nameless.inst, Nameless.inst_repeated, repeated]
    simp [Nameless.inst, Nameless.extend, Nameless.argument]
  rw [hcontract, Nameless.church_eq (m * n)]
  exact .abs (.abs (evaluates_iterate_church m n))

/-! ### Evaluation -/

private theorem yields_of_evaluates (t : Term) (h : Evaluates t.nameless (church n)) :
    ∃ budget, ∀ e : Evaluator, e.strategy = .applicative → budget ≤ e.maxSteps → Yields e t n := by
  obtain ⟨budget, hbudget⟩ :=
    Evaluator.exists_budget_of_nameless (s := .applicative) h.applicativeReduces h.isNormal
  refine ⟨budget, fun e happlicative hle => ?_⟩
  obtain ⟨hreported, hterm⟩ := hbudget e happlicative hle
  exact ⟨hreported, readNumeral_of_nameless hterm⟩

/-- Every numeral and the sums and products of two numerals evaluate in applicative order to what they stand for, given
enough steps. -/
theorem arithmetic_in_applicative_order (m n : Nat) :
    ∃ budget, ∀ e : Evaluator, e.strategy = .applicative → budget ≤ e.maxSteps →
      Yields e (numeral n) n ∧ Yields e (.app (.app plus (numeral m)) (numeral n)) (m + n) ∧
        Yields e (.app (.app mult (numeral m)) (numeral n)) (m * n) := by
  have hm : Evaluates (numeral m).nameless (church m) := evaluates_numeral m
  have hn : Evaluates (numeral n).nameless (church n) := evaluates_numeral n
  obtain ⟨b, hnumeral⟩ := yields_of_evaluates (numeral n) hn
  obtain ⟨b', hplus⟩ := yields_of_evaluates (.app (.app plus (numeral m)) (numeral n)) (evaluates_plus hm hn)
  obtain ⟨b'', hmult⟩ := yields_of_evaluates (.app (.app mult (numeral m)) (numeral n)) (evaluates_mult hm hn)
  refine ⟨b + b' + b'', fun e happlicative hle => ⟨?_, ?_, ?_⟩⟩
  · exact hnumeral e happlicative (by omega)
  · exact hplus e happlicative (by omega)
  · exact hmult e happlicative (by omega)

/-- The first operand is zero, so that the second one is not applied at all in the product. -/
theorem arithmetic_in_applicative_order_zero :
    ∃ e : Evaluator, e.strategy = .applicative ∧ Yields e (.app (.app plus (numeral 0)) (numeral 3)) 3 ∧
      Yields e (.app (.app mult (numeral 0)) (numeral 3)) 0 := by
  obtain ⟨budget, h⟩ := arithmetic_in_applicative_order 0 3
  let e : Evaluator := ⟨.applicative, budget + 1, false, Nat.succ_pos budget⟩
  obtain ⟨-, hplus, hmult⟩ := h e rfl (Nat.le_succ budget)
  exact ⟨e, rfl, hplus, hmult⟩

end Church

end LambdaCalculus
