import LambdaCalculus.Term.Basic

/-!
# Substitution and equality up to the names of bound variables

`t.subst x r` puts `r` for every free occurrence of `x` in `t`.  A binder whose name is free in `r` is renamed first,
whether or not `x` occurs below it, to a fresh name that is neither free in `r` nor in the body, nor `x` itself.

The renaming of a binder is itself a substitution in the body, by a variable.  Such a substitution keeps the size
(`size_rename`), which is why the recursion ends: the definition carries this fact along.  `subst_var`, `subst_app`,
`subst_abs_self`, `subst_abs_of_hasFree` and `subst_abs_of_not_hasFree` are the equations of the result.

`alphaEq` compares two abstractions with equal binders by their bodies; otherwise both binders are renamed to one
name, fresh for the two bodies and derived from the binder on the left.
-/

namespace LambdaCalculus

namespace Name

/-- `base` with the decimal numeral of `i` behind it. -/
def suffixed (base : Name) (i : Nat) : Name :=
  base ++ toString i

/-- The first of `base`, `base1`, `base2`, … outside `used`. -/
def fresh (base : Name) (used : List Name) : Name :=
  if used.contains base then
    match (List.range' 1 used.length).find? (fun i => !used.contains (base.suffixed i)) with
    | some i => base.suffixed i
    | none => base
  else base

end Name

namespace Term

/-- The name for a binder `y` above `body` that is in the way of the substitution of `r` for `x`. -/
def clearParam (x : Name) (r : Term) (y : Name) (body : Term) : Name :=
  y.fresh (x :: r.freeVars ++ body.freeVars)

private def substSized (x : Name) (r : Term) : (t : Term) → { u : Term // r.size = 1 → u.size = t.size }
  | var y => if x = y then ⟨r, fun h => h⟩ else ⟨var y, fun _ => rfl⟩
  | abs y body =>
    if x = y then ⟨abs y body, fun _ => rfl⟩
    else if r.hasFree y then
      let z := clearParam x r y body
      let ⟨renamed, hr⟩ := substSized y (var z) body
      let ⟨result, hs⟩ := substSized x r renamed
      ⟨abs z result, fun h => congrArg (· + 1) ((hs h).trans (hr rfl))⟩
    else
      let ⟨result, hs⟩ := substSized x r body
      ⟨abs y result, fun h => congrArg (· + 1) (hs h)⟩
  | app fn arg =>
    let ⟨fn', hf⟩ := substSized x r fn
    let ⟨arg', ha⟩ := substSized x r arg
    ⟨app fn' arg', fun h => by simp [size, hf h, ha h]⟩
termination_by t => t.size
decreasing_by
  · simp [size]
  · simp [size, hr rfl]
  · simp [size]
  · simp only [size]; omega
  · simp only [size]; omega

/-- Puts `r` for the free occurrences of `x`, renaming the binders that would capture a name of `r`. -/
def subst (t : Term) (x : Name) (r : Term) : Term :=
  (substSized x r t).val

/-- Renames the free occurrences of `x` to `y`. -/
def rename (t : Term) (x y : Name) : Term :=
  t.subst x (var y)

theorem size_rename (t : Term) (x y : Name) : (t.rename x y).size = t.size :=
  (substSized x (var y) t).property rfl

theorem subst_var (x y : Name) (r : Term) : (var y).subst x r = if x = y then r else var y := by
  rw [subst, substSized]
  split <;> rfl

@[simp] theorem subst_app (fn arg : Term) (x : Name) (r : Term) :
    (app fn arg).subst x r = app (fn.subst x r) (arg.subst x r) := by
  rw [subst, substSized]
  rfl

@[simp] theorem subst_abs_self (x : Name) (body r : Term) : (abs x body).subst x r = abs x body := by
  rw [subst, substSized]
  simp

theorem subst_abs_of_hasFree {x y : Name} {r : Term} (body : Term) (hxy : x ≠ y) (h : r.hasFree y = true) :
    (abs y body).subst x r =
      abs (clearParam x r y body) ((body.rename y (clearParam x r y body)).subst x r) := by
  rw [subst, substSized, if_neg hxy, if_pos h]
  rfl

theorem subst_abs_of_not_hasFree {x y : Name} {r : Term} (body : Term) (hxy : x ≠ y) (h : r.hasFree y = false) :
    (abs y body).subst x r = abs y (body.subst x r) := by
  rw [subst, substSized, if_neg hxy, if_neg (by simp [h])]
  rfl

/-! ### Equality up to the names of bound variables -/

/-- Whether two terms differ at most in the names of bound variables. -/
def alphaEq : Term → Term → Bool
  | var x, var y => x == y
  | app f a, app g b => alphaEq f g && alphaEq a b
  | abs x t, abs y u =>
    if x = y then alphaEq t u
    else
      let z := x.fresh (t.freeVars ++ u.freeVars)
      alphaEq (t.rename x z) (u.rename y z)
  | _, _ => false
termination_by t => t.size
decreasing_by
  all_goals simp only [size, size_rename]; omega

end Term

end LambdaCalculus
