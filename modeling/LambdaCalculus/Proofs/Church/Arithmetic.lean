import LambdaCalculus.Proofs.Church.Data
import LambdaCalculus.Proofs.Reduction.NormalForm
import Mathlib.Algebra.Group.Nat.Defs

/-!
# Arithmetic on numerals

Evaluation in normal order computes the arithmetic operations on numerals of all sizes (`arithmetic_in_normal_order`),
and powers except for the exponent zero (`power_in_normal_order`): a numeral that is applied to another one becomes the
function that applies the other one, and without any application this is the identity, which is no numeral.

The operations are followed on nameless forms, where it is enough to find some reduction to the result.  `Denotes t n`
says that there is one to the numeral of `n`, and `Decides t b` that there is one to the boolean `b`; each operation has
a lemma that takes operands that denote numbers, reduced or not, to the result.
-/

namespace LambdaCalculus.Church

open Nameless (abs app bound Reduces HeadReduces church boolean identity shift const hold repeated)

/-! ### Operations applied to terms -/

/-- An application gives the parameter its argument, as it is. -/
theorem headReduces_app_namelessWith (x : Name) (body : Term) (ρ : Name → Nameless) (a : Nameless) :
    HeadReduces (app ((Term.abs x body).namelessWith ρ) a) (body.namelessWith (Function.update ρ x a)) := by
  rw [← Term.contract_namelessWith]
  exact .single (.contract _ _)

theorem app_abs (x : Name) (body : Term) (a : Nameless) :
    Reduces (app (Term.abs x body).nameless a) (body.namelessWith (Function.update .free x a)) := by
  rw [Term.nameless_eq]
  exact (headReduces_app_namelessWith x body .free a).reduces

theorem app_app_abs (x y : Name) (body : Term) (a b : Nameless) :
    Reduces (app (app (Term.abs x (.abs y body)).nameless a) b)
      (body.namelessWith (Function.update (Function.update .free x a) y b)) :=
  ((app_abs x (.abs y body) a).app .refl).trans (headReduces_app_namelessWith y body _ b).reduces

private theorem succ_app (a : Nameless) :
    Reduces (app succ.nameless a) (abs (abs (app (bound 1) (app (app a.lift.lift (bound 1)) (bound 0))))) :=
  app_abs "n" _ a

private theorem pred_app (a : Nameless) :
    Reduces (app pred.nameless a)
      (abs (abs (app (app (app a.lift.lift (shift (bound 1))) (const (bound 0))) identity))) :=
  app_abs "n" _ a

private theorem isZero_app (a : Nameless) :
    Reduces (app isZero.nameless a) (app (app a (const (boolean false))) (boolean true)) :=
  app_abs "n" _ a

private theorem plus_app (a b : Nameless) :
    Reduces (app (app plus.nameless a) b)
      (abs (abs (app (app a.lift.lift (bound 1)) (app (app b.lift.lift (bound 1)) (bound 0))))) :=
  app_app_abs "m" "n" _ a b

private theorem mult_app (a b : Nameless) :
    Reduces (app (app mult.nameless a) b) (abs (app a.lift (app b.lift (bound 0)))) :=
  app_app_abs "m" "n" _ a b

private theorem pow_app (a b : Nameless) : Reduces (app (app pow.nameless a) b) (app b a) :=
  app_app_abs "m" "n" _ a b

private theorem sub_app (a b : Nameless) : Reduces (app (app sub.nameless a) b) (app (app b pred.nameless) a) :=
  app_app_abs "m" "n" _ a b

private theorem and_app (a b : Nameless) : Reduces (app (app and.nameless a) b) (app (app a b) a) :=
  app_app_abs "p" "q" _ a b

private theorem leq_app (a b : Nameless) :
    Reduces (app (app leq.nameless a) b) (app isZero.nameless (app (app sub.nameless a) b)) :=
  app_app_abs "m" "n" _ a b

private theorem eq_app (a b : Nameless) :
    Reduces (app (app eq.nameless a) b)
      (app (app and.nameless (app (app leq.nameless a) b)) (app (app leq.nameless b) a)) :=
  app_app_abs "m" "n" _ a b

/-! ### Numbers -/

/-- Whether the term reduces to the numeral of `n`. -/
def Denotes (t : Nameless) (n : Nat) : Prop :=
  Reduces t (church n)

namespace Denotes

variable {a b : Nameless} {m n : Nat}

private theorem succ (ha : Denotes a n) : Denotes (app succ.nameless a) (n + 1) :=
  calc Reduces _ _ := Reduces.app .refl ha
    Reduces _ (abs (abs (app (bound 1) (app (app (church n) (bound 1)) (bound 0))))) := by
      simpa using succ_app (church n)
    Reduces _ (abs (abs (app (bound 1) ((app (bound 1))^[n] (bound 0))))) :=
      (Reduces.app .refl (Nameless.church_app_app n _ _)).abs.abs
    _ = church (n + 1) := by
      rw [← Function.iterate_succ_apply' (app (bound 1)) n]
      rfl

private theorem pred (ha : Denotes a n) : Denotes (app pred.nameless a) (n - 1) :=
  calc Reduces _ _ := Reduces.app .refl ha
    Reduces _ (abs (abs (app (app (app (church n) (shift (bound 1))) (const (bound 0))) identity))) := by
      simpa using pred_app (church n)
    Reduces _ (abs (abs (app ((app (shift (bound 1)))^[n] (const (bound 0))) identity))) :=
      ((Nameless.church_app_app n _ _).app .refl).abs.abs
    Reduces _ (church (n - 1)) := (Nameless.iterate_app_shift_identity n (bound 1) (bound 0)).abs.abs

private theorem plus (ha : Denotes a m) (hb : Denotes b n) : Denotes (app (app plus.nameless a) b) (m + n) :=
  calc Reduces _ _ := (Reduces.app .refl ha).app hb
    Reduces _ (abs (abs (app (app (church m) (bound 1)) (app (app (church n) (bound 1)) (bound 0))))) := by
      simpa using plus_app (church m) (church n)
    Reduces _ (abs (abs ((app (bound 1))^[m] (app (app (church n) (bound 1)) (bound 0))))) :=
      (Nameless.church_app_app m _ _).abs.abs
    Reduces _ (abs (abs ((app (bound 1))^[m] ((app (bound 1))^[n] (bound 0))))) :=
      (Reduces.iterate_app .refl (Nameless.church_app_app n _ _) m).abs.abs
    _ = church (m + n) := by
      rw [← Function.iterate_add_apply]
      rfl

private theorem mult (ha : Denotes a m) (hb : Denotes b n) : Denotes (app (app mult.nameless a) b) (m * n) :=
  calc Reduces _ _ := (Reduces.app .refl ha).app hb
    Reduces _ (abs (app (church m) (app (church n) (bound 0)))) := by
      simpa using mult_app (church m) (church n)
    Reduces _ (abs (app (church m) (repeated n (bound 0)))) := (Reduces.app .refl (Nameless.church_app n _)).abs
    Reduces _ (abs (repeated m (repeated n (bound 0)))) := (Nameless.church_app m _).abs
    Reduces _ (abs (repeated (n * m) (bound 0))) := (Nameless.repeated_repeated m n _).abs
    _ = church (m * n) := by rw [Nat.mul_comm, church]

private theorem sub (ha : Denotes a m) (hb : Denotes b n) : Denotes (app (app sub.nameless a) b) (m - n) := by
  have hiterate : Denotes ((app Church.pred.nameless)^[n] (church m)) (m - n) := by
    clear hb
    induction n with
    | zero => exact .refl
    | succ n ih =>
      rw [Function.iterate_succ_apply']
      exact ih.pred
  calc Reduces _ _ := (Reduces.app .refl ha).app hb
    Reduces _ _ := sub_app (church m) (church n)
    Reduces _ _ := Nameless.church_app_app n _ _
    Reduces _ _ := hiterate

/-- A numeral that repeats a numeral multiplies as often as it repeats. -/
private theorem iterate_app_church (m n : Nat) (f : Nameless) :
    Reduces ((app (church m))^[n + 1] f) (repeated (m ^ (n + 1)) f) := by
  induction n with
  | zero =>
    rw [Nat.zero_add, pow_one]
    exact Nameless.church_app m f
  | succ n ih =>
    rw [Function.iterate_succ_apply', pow_succ m (n + 1)]
    calc Reduces _ _ := Reduces.app .refl ih
      Reduces _ _ := Nameless.church_app m _
      Reduces _ _ := Nameless.repeated_repeated m _ f

private theorem pow_app_repeated (ha : Denotes a m) (hb : Denotes b n) :
    Reduces (app (app pow.nameless a) b) (abs ((app (church m))^[n] (bound 0))) :=
  calc Reduces _ _ := (Reduces.app .refl ha).app hb
    Reduces _ _ := pow_app (church m) (church n)
    Reduces _ (repeated n (church m)) := Nameless.church_app n _
    _ = abs ((app (church m))^[n] (bound 0)) := by rw [repeated, Nameless.lift_church]

private theorem pow (ha : Denotes a m) (hb : Denotes b (n + 1)) : Denotes (app (app pow.nameless a) b) (m ^ (n + 1)) :=
  (pow_app_repeated ha hb).trans (iterate_app_church m n (bound 0)).abs

private theorem pow_zero (ha : Denotes a m) (hb : Denotes b 0) : Reduces (app (app Church.pow.nameless a) b) identity :=
  pow_app_repeated ha hb

end Denotes

/-- The numeral of a number denotes it. -/
private theorem denotes_numeral (n : Nat) : Denotes (numeral n).nameless n := by
  induction n with
  | zero => exact .refl
  | succ n ih => exact ih.succ

/-! ### Truth values -/

/-- Whether the term reduces to the boolean `b`. -/
def Decides (t : Nameless) (b : Bool) : Prop :=
  Reduces t (boolean b)

private theorem Decides.and {a b : Nameless} {x y : Bool} (ha : Decides a x) (hb : Decides b y) :
    Decides (app (app and.nameless a) b) (x && y) :=
  calc Reduces _ _ := (Reduces.app .refl ha).app hb
    Reduces _ _ := and_app (boolean x) (boolean y)
    Reduces _ _ := Nameless.boolean_app_app x _ _
    _ = boolean (x && y) := by cases x <;> rfl

namespace Denotes

variable {a b : Nameless} {m n : Nat}

private theorem isZero (ha : Denotes a n) : Decides (app isZero.nameless a) (n == 0) := by
  have hiterate : Decides ((app (const (boolean false)))^[n] (boolean true)) (n == 0) := by
    cases n with
    | zero => exact .refl
    | succ n =>
      rw [Function.iterate_succ_apply']
      exact Nameless.const_app _ _
  calc Reduces _ _ := Reduces.app .refl ha
    Reduces _ _ := isZero_app (church n)
    Reduces _ _ := Nameless.church_app_app n _ _
    Reduces _ _ := hiterate

private theorem leq (ha : Denotes a m) (hb : Denotes b n) : Decides (app (app leq.nameless a) b) (decide (m ≤ n)) := by
  have hzero : (m - n == 0) = decide (m ≤ n) := by
    rw [Bool.eq_iff_iff, beq_iff_eq, decide_eq_true_iff]
    omega
  rw [← hzero]
  exact (leq_app a b).trans (ha.sub hb).isZero

private theorem eq (ha : Denotes a m) (hb : Denotes b n) : Decides (app (app eq.nameless a) b) (m == n) := by
  have hboth : (decide (m ≤ n) && decide (n ≤ m)) = (m == n) := by
    rw [Bool.eq_iff_iff, Bool.and_eq_true, decide_eq_true_iff, decide_eq_true_iff, beq_iff_eq]
    omega
  rw [← hboth]
  exact (eq_app a b).trans ((ha.leq hb).and (hb.leq ha))

end Denotes

/-! ### Evaluation in normal order -/

/-- Whether the evaluators in normal order have a property from some budget on. -/
def FromSomeBudget (P : Evaluator → Prop) : Prop :=
  ∃ budget, ∀ e : Evaluator, e.strategy = .normal → budget ≤ e.maxSteps → P e

private theorem FromSomeBudget.and {P Q : Evaluator → Prop} (hp : FromSomeBudget P) (hq : FromSomeBudget Q) :
    FromSomeBudget fun e => P e ∧ Q e := by
  obtain ⟨budget, hp⟩ := hp
  obtain ⟨budget', hq⟩ := hq
  refine ⟨max budget budget', fun e hnormal hbudget => ⟨hp e hnormal ?_, hq e hnormal ?_⟩⟩
  · exact Nat.le_trans (Nat.le_max_left ..) hbudget
  · exact Nat.le_trans (Nat.le_max_right ..) hbudget

/-- Whether the evaluation of the term ends with the numeral of `n`. -/
def Yields (e : Evaluator) (t : Term) (n : Nat) : Prop :=
  (e.evaluate t).isNormal = true ∧ readNumeral (e.evaluate t).term = some n

/-- Whether the evaluation of the term ends with the boolean `b`. -/
def Answers (e : Evaluator) (t : Term) (b : Bool) : Prop :=
  (e.evaluate t).isNormal = true ∧ toBoolean e t = some b

private theorem yields_of_denotes (t : Term) {n : Nat} (h : Denotes t.nameless n) : FromSomeBudget (Yields · t n) := by
  obtain ⟨budget, hbudget⟩ := Term.exists_budget_of_nameless_reduces h (Nameless.isNormal_church n)
  refine ⟨budget, fun e hnormal hle => ?_⟩
  obtain ⟨hreported, hterm⟩ := hbudget e hnormal hle
  exact ⟨hreported, readNumeral_of_nameless hterm⟩

theorem answers_of_decides (t : Term) {b : Bool} (h : Decides t.nameless b) : FromSomeBudget (Answers · t b) := by
  obtain ⟨budget, hbudget⟩ := Term.exists_budget_of_nameless_reduces h (Nameless.isNormal_boolean b)
  refine ⟨budget, fun e hnormal hle => ?_⟩
  obtain ⟨hreported, hterm⟩ := hbudget e hnormal hle
  exact ⟨hreported, readBoolean_of_nameless hterm⟩

/-- Every numeral, its successor and predecessor, the sums, products and differences of two numerals and the comparisons
of them evaluate to what they stand for, given enough steps. -/
theorem arithmetic_in_normal_order (m n : Nat) :
    ∃ budget, ∀ e : Evaluator, e.strategy = .normal → budget ≤ e.maxSteps →
      Yields e (numeral n) n ∧ Yields e (.app succ (numeral n)) (n + 1) ∧ Yields e (.app pred (numeral n)) (n - 1) ∧
        Yields e (.app (.app plus (numeral m)) (numeral n)) (m + n) ∧
        Yields e (.app (.app mult (numeral m)) (numeral n)) (m * n) ∧
        Yields e (.app (.app sub (numeral m)) (numeral n)) (m - n) ∧
        Answers e (.app isZero (numeral n)) (n == 0) ∧
        Answers e (.app (.app leq (numeral m)) (numeral n)) (decide (m ≤ n)) ∧
        Answers e (.app (.app eq (numeral m)) (numeral n)) (m == n) := by
  have hm : Denotes (numeral m).nameless m := denotes_numeral m
  have hn : Denotes (numeral n).nameless n := denotes_numeral n
  have hnumeral := yields_of_denotes (numeral n) hn
  have hsucc := yields_of_denotes (.app succ (numeral n)) hn.succ
  have hpred := yields_of_denotes (.app pred (numeral n)) hn.pred
  have hplus := yields_of_denotes (.app (.app plus (numeral m)) (numeral n)) (hm.plus hn)
  have hmult := yields_of_denotes (.app (.app mult (numeral m)) (numeral n)) (hm.mult hn)
  have hsub := yields_of_denotes (.app (.app sub (numeral m)) (numeral n)) (hm.sub hn)
  have hzero := answers_of_decides (.app isZero (numeral n)) hn.isZero
  have hleq := answers_of_decides (.app (.app leq (numeral m)) (numeral n)) (hm.leq hn)
  have heq := answers_of_decides (.app (.app eq (numeral m)) (numeral n)) (hm.eq hn)
  exact hnumeral.and (hsucc.and (hpred.and (hplus.and (hmult.and (hsub.and (hzero.and (hleq.and heq)))))))

/-- The subtrahend is the larger number, and no predecessor of zero is taken below it. -/
theorem arithmetic_in_normal_order_larger_subtrahend :
    ∃ e : Evaluator, e.strategy = .normal ∧ Yields e (.app (.app sub (numeral 2)) (numeral 5)) 0 ∧
      Answers e (.app (.app leq (numeral 2)) (numeral 5)) true ∧
      Answers e (.app (.app eq (numeral 2)) (numeral 5)) false := by
  obtain ⟨budget, h⟩ := arithmetic_in_normal_order 2 5
  let e : Evaluator := ⟨.normal, budget + 1, false, Nat.succ_pos budget⟩
  obtain ⟨-, -, -, -, -, hsub, -, hleq, heq⟩ := h e rfl (Nat.le_succ budget)
  exact ⟨e, rfl, hsub, hleq, heq⟩

/-! ### Powers -/

private theorem readNumeral_of_nameless_identity {t : Term} (h : t.nameless = identity) : readNumeral t = none := by
  obtain ⟨x, body, rfl, hbody⟩ := Term.exists_of_namelessIn_eq_abs h
  obtain ⟨y, rfl, -⟩ := Term.exists_of_namelessIn_eq_bound hbody
  rfl

/-- With the exponent zero the base is not applied at all, so the power is the identity and not read as a number. -/
private theorem pow_zero_identity (m : Nat) :
    FromSomeBudget fun e =>
      (e.evaluate (.app (.app pow (numeral m)) (numeral 0))).isNormal = true ∧
        readNumeral (e.evaluate (.app (.app pow (numeral m)) (numeral 0))).term = none ∧
        (e.evaluate (.app (.app pow (numeral m)) (numeral 0))).term.alphaEq (.abs "x" (.var "x")) = true := by
  have hreduces : Reduces (Term.app (.app pow (numeral m)) (numeral 0)).nameless identity :=
    (denotes_numeral m).pow_zero (denotes_numeral 0)
  obtain ⟨budget, hbudget⟩ := Term.exists_budget_of_nameless_reduces hreduces rfl
  refine ⟨budget, fun e hnormal hle => ?_⟩
  obtain ⟨hreported, hterm⟩ := hbudget e hnormal hle
  refine ⟨hreported, readNumeral_of_nameless_identity hterm, ?_⟩
  rw [Term.alphaEq_iff, hterm]
  rfl

/-- The power of two numerals evaluates to the power of their numbers if the exponent is not zero, given enough steps.
If it is zero, the power evaluates to the identity, from which no number is read. -/
theorem power_in_normal_order (m n : Nat) :
    ∃ budget, ∀ e : Evaluator, e.strategy = .normal → budget ≤ e.maxSteps →
      (e.evaluate (.app (.app pow (numeral m)) (numeral n))).isNormal = true ∧
        (n ≠ 0 → readNumeral (e.evaluate (.app (.app pow (numeral m)) (numeral n))).term = some (m ^ n)) ∧
        (n = 0 → readNumeral (e.evaluate (.app (.app pow (numeral m)) (numeral n))).term = none ∧
          (e.evaluate (.app (.app pow (numeral m)) (numeral n))).term.alphaEq (.abs "x" (.var "x")) = true) := by
  cases n with
  | zero =>
    obtain ⟨budget, h⟩ := pow_zero_identity m
    refine ⟨budget, fun e hnormal hle => ?_⟩
    obtain ⟨hreported, hresult⟩ := h e hnormal hle
    exact ⟨hreported, fun hne => absurd rfl hne, fun _ => hresult⟩
  | succ n =>
    have hpow := (denotes_numeral m).pow (denotes_numeral (n + 1))
    obtain ⟨budget, h⟩ := yields_of_denotes (.app (.app pow (numeral m)) (numeral (n + 1))) hpow
    refine ⟨budget, fun e hnormal hle => ?_⟩
    obtain ⟨hreported, hread⟩ := h e hnormal hle
    exact ⟨hreported, fun _ => hread, fun hzero => absurd hzero (Nat.succ_ne_zero n)⟩

/-- A power of zero, and an exponent at which the numeral of the base is repeated. -/
theorem power_in_normal_order_base_zero :
    ∃ e : Evaluator, e.strategy = .normal ∧
      readNumeral (e.evaluate (.app (.app pow (numeral 0)) (numeral 3))).term = some 0 := by
  obtain ⟨budget, h⟩ := power_in_normal_order 0 3
  let e : Evaluator := ⟨.normal, budget + 1, false, Nat.succ_pos budget⟩
  obtain ⟨-, hread, -⟩ := h e rfl (Nat.le_succ budget)
  exact ⟨e, rfl, hread (by decide)⟩

/-- The power of two with the exponent zero is not read as one, whatever the budget. -/
theorem power_zero_not_read :
    ¬∃ budget, ∀ e : Evaluator, e.strategy = .normal → budget ≤ e.maxSteps →
      Yields e (.app (.app pow (numeral 2)) (numeral 0)) (2 ^ 0) := by
  intro hyields
  obtain ⟨budget, h⟩ := FromSomeBudget.and hyields (pow_zero_identity 2)
  let e : Evaluator := ⟨.normal, budget + 1, false, Nat.succ_pos budget⟩
  obtain ⟨⟨-, hsome⟩, -, hnone, -⟩ := h e rfl (Nat.le_succ budget)
  rw [hnone] at hsome
  cases hsome

end LambdaCalculus.Church
