import LambdaCalculus.Proofs.Nameless.NormalOrder
import Mathlib.Logic.Function.Iterate

/-!
# Numerals and booleans on nameless terms

The numeral of `n` applies a function `n` times (`church_app_app`).  It is built of `repeated n f`, the function that
applies `f` itself `n` times, which is what comes of the numeral when only the function is there (`church_app`).  To
repeat a repeated function is to repeat the function as many times as the product says (`repeated_repeated`); this is
what a product and a power of numerals come down to.  For a predecessor the function is applied through another one,
which drops the first application (`iterate_app_shift_identity`).
-/

namespace LambdaCalculus.Nameless

/-! ### Repeated application -/

theorem inst_iterate_app (n : Nat) (f x : Nameless) (τ : Nat → Nameless) (σ : Name → Nameless) :
    ((app f)^[n] x).inst τ σ = (app (f.inst τ σ))^[n] (x.inst τ σ) := by
  have hcommutes : Function.Semiconj (inst τ σ) (app f) (app (f.inst τ σ)) := fun _ => rfl
  exact hcommutes.iterate_right n x

theorem Reduces.iterate_app {f f' x x' : Nameless} (hf : Reduces f f') (hx : Reduces x x') (n : Nat) :
    Reduces ((Nameless.app f)^[n] x) ((Nameless.app f')^[n] x') := by
  induction n with
  | zero => exact hx
  | succ n ih =>
    rw [Function.iterate_succ_apply', Function.iterate_succ_apply']
    exact hf.app ih

/-- The function that applies `f` to its argument `n` times. -/
def repeated (n : Nat) (f : Nameless) : Nameless :=
  abs ((app f.lift)^[n] (bound 0))

theorem inst_repeated (n : Nat) (f : Nameless) (τ : Nat → Nameless) (σ : Name → Nameless) :
    (repeated n f).inst τ σ = repeated n (f.inst τ σ) := by
  rw [repeated, inst, inst_iterate_app, lift_inst]
  rfl

private theorem lift_repeated (n : Nat) (f : Nameless) : (repeated n f).lift = repeated n f.lift := by
  rw [lift, reindex_eq_inst, inst_repeated, ← reindex_eq_inst]
  rfl

theorem contract_iterate_app (n : Nat) (f x : Nameless) : contract ((app f.lift)^[n] (bound 0)) x = (app f)^[n] x := by
  rw [contract, inst_iterate_app, ← contract, contract_lift]
  rfl

private theorem repeated_app (n : Nat) (f x : Nameless) : Reduces (app (repeated n f) x) ((app f)^[n] x) := by
  rw [← contract_iterate_app]
  exact .single (.contract _ _)

private theorem iterate_app_repeated (m n : Nat) (f x : Nameless) :
    Reduces ((app (repeated n f))^[m] x) ((app f)^[n * m] x) := by
  induction m with
  | zero => exact .refl
  | succ m ih =>
    rw [Function.iterate_succ_apply', Nat.mul_succ, Nat.add_comm, Function.iterate_add_apply]
    exact (Reduces.app .refl ih).trans (repeated_app ..)

theorem repeated_repeated (m n : Nat) (f : Nameless) : Reduces (repeated m (repeated n f)) (repeated (n * m) f) := by
  rw [repeated, lift_repeated]
  exact (iterate_app_repeated ..).abs

/-! ### Numerals -/

/-- The numeral of `n`. -/
def church (n : Nat) : Nameless :=
  abs (repeated n (bound 0))

theorem church_eq (n : Nat) : church n = abs (abs ((app (bound 1))^[n] (bound 0))) :=
  rfl

@[simp] theorem inst_church (n : Nat) (τ : Nat → Nameless) (σ : Name → Nameless) : (church n).inst τ σ = church n := by
  rw [church, inst, inst_repeated]
  rfl

@[simp] theorem lift_church (n : Nat) : (church n).lift = church n := by
  rw [lift, reindex_eq_inst, inst_church]

theorem contract_repeated (n : Nat) (f : Nameless) : contract (repeated n (bound 0)) f = repeated n f :=
  inst_repeated ..

theorem church_app (n : Nat) (f : Nameless) : Reduces (app (church n) f) (repeated n f) := by
  rw [← contract_repeated]
  exact .single (.contract _ _)

/-- A numeral applies a function as many times as it says. -/
theorem church_app_app (n : Nat) (f x : Nameless) : Reduces (app (app (church n) f) x) ((app f)^[n] x) :=
  ((church_app n f).app .refl).trans (repeated_app n f x)

theorem isNormal_iterate_app {f x : Nameless} (hf : f.isNeutral = true) (hx : x.isNormal = true) (n : Nat) :
    ((app f)^[n] x).isNormal = true := by
  induction n with
  | zero => exact hx
  | succ n ih =>
    rw [Function.iterate_succ_apply']
    exact Bool.and_eq_true_iff.2 ⟨hf, ih⟩

theorem isNormal_repeated {f : Nameless} (hf : f.isNeutral = true) (n : Nat) : (repeated n f).isNormal = true :=
  isNormal_iterate_app (x := bound 0) ((isNeutral_lift f).trans hf) rfl n

theorem isNormal_church (n : Nat) : (church n).isNormal = true :=
  isNormal_repeated (f := bound 0) rfl n

/-! ### Booleans -/

/-- The function with the value `x` everywhere. -/
def const (x : Nameless) : Nameless :=
  abs x.lift

theorem const_app (x y : Nameless) : Reduces (app (const x) y) x := by
  have hstep : Step (app (const x) y) (x.lift.contract y) := .contract _ _
  rw [contract_lift] at hstep
  exact .single hstep

/-- The boolean `b`. -/
def boolean (b : Bool) : Nameless :=
  abs (abs (bound (if b then 1 else 0)))

/-- A boolean chooses between two terms, and leaves them as they are. -/
theorem headReduces_boolean_app_app (b : Bool) (x y : Nameless) :
    HeadReduces (app (app (boolean b) x) y) (if b then x else y) := by
  cases b with
  | true =>
    have hstep : HeadStep (app (const x) y) (x.lift.contract y) := .contract _ _
    rw [contract_lift] at hstep
    exact .head (.fn (.contract _ _) y) (.single hstep)
  | false => exact .head (.fn (.contract _ _) y) (.single (.contract _ _))

theorem boolean_app_app (b : Bool) (x y : Nameless) : Reduces (app (app (boolean b) x) y) (if b then x else y) :=
  (headReduces_boolean_app_app b x y).reduces

theorem isNormal_boolean (b : Bool) : (boolean b).isNormal = true := by
  cases b <;> rfl

/-! ### Predecessors

A numeral can only count up.  For its predecessor it counts, from `const x` on, with `shift f`, of which the first
application gives `x` and each further one applies `f`.  What has been counted is held in `hold y`, which hands `y` over
to a function. -/

/-- The function that hands `y` over to its argument. -/
def hold (y : Nameless) : Nameless :=
  abs (app (bound 0) y.lift)

/-- The function that takes `g` to `hold (g f)`. -/
def shift (f : Nameless) : Nameless :=
  abs (abs (app (bound 0) (app (bound 1) f.lift.lift)))

def identity : Nameless :=
  abs (bound 0)

private theorem Reduces.hold {y y' : Nameless} (h : Reduces y y') : Reduces (hold y) (Nameless.hold y') :=
  (Reduces.app .refl h.lift).abs

private theorem hold_app (y g : Nameless) : Reduces (app (hold y) g) (app g y) := by
  have hstep : Step (app (hold y) g) (app g (y.lift.contract g)) := .contract _ _
  rw [contract_lift] at hstep
  exact .single hstep

private theorem shift_app (f g : Nameless) : Reduces (app (shift f) g) (hold (app g f)) := by
  have hcontract : contract (abs (app (bound 0) (app (bound 1) f.lift.lift))) g = hold (app g f) := by
    have hf : f.lift.lift.inst (extend (argument g)) free = f.lift := by
      calc f.lift.lift.inst (extend (argument g)) (fun x => (free x).lift)
          = (f.lift.contract g).lift := lift_inst ..
        _ = f.lift := by rw [contract_lift]
    exact congrArg (fun z => abs (app (bound 0) (app g.lift z))) hf
  rw [← hcontract]
  exact .single (.contract _ _)

private theorem iterate_app_shift (n : Nat) (f x : Nameless) :
    Reduces ((app (shift f))^[n + 1] (const x)) (hold ((app f)^[n] x)) := by
  induction n with
  | zero => exact (shift_app f (const x)).trans (const_app x f).hold
  | succ n ih =>
    rw [Function.iterate_succ_apply' _ (n + 1), Function.iterate_succ_apply' (app f)]
    calc Reduces _ _ := Reduces.app .refl ih
      Reduces _ _ := shift_app f _
      Reduces _ _ := (hold_app _ f).hold

theorem iterate_app_shift_identity (n : Nat) (f x : Nameless) :
    Reduces (app ((app (shift f))^[n] (const x)) identity) ((app f)^[n - 1] x) := by
  cases n with
  | zero => exact const_app x identity
  | succ n =>
    calc Reduces _ _ := (iterate_app_shift n f x).app .refl
      Reduces _ _ := hold_app _ identity
      Reduces _ _ := .single (.contract _ _)

end LambdaCalculus.Nameless
