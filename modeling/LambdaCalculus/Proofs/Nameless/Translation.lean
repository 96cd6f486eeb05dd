import LambdaCalculus.Proofs.Fresh
import LambdaCalculus.Proofs.Nameless.Instantiation
import Mathlib.Logic.Function.Basic

/-!
# Nameless forms under an assignment

`t.namelessWith ρ` is the nameless form of `t` with `ρ x` for the free occurrences of `x`.  Below a binder the binder
takes its own number and the assignment is lifted, so the form depends only on the assignment of the free names
(`namelessWith_congr`), and the form below some binders (`namelessIn`) is the one under the assignment that looks
names up in the scope.

The main fact is `namelessWith_subst`: substitution in a term is an update of the assignment.  No condition on names
is needed; that binders are renamed in time is what makes it true.
-/

namespace LambdaCalculus.Term

/-- Induction along renamings of binders: at an abstraction the statement may be used for every term as large as the
body. -/
theorem inductionUpToSize {motive : Term → Prop} (var : ∀ x, motive (var x))
    (abs : ∀ x body, (∀ u : Term, u.size = body.size → motive u) → motive (abs x body))
    (app : ∀ fn arg, motive fn → motive arg → motive (app fn arg)) (t : Term) : motive t := by
  suffices h : ∀ n (t : Term), t.size ≤ n → motive t from h t.size t (Nat.le_refl _)
  intro n
  induction n with
  | zero =>
    intro t ht
    exact absurd t.size_pos (by omega)
  | succ n ih =>
    intro t ht
    cases t with
    | var x => exact var x
    | abs x body =>
      refine abs x body fun u hu => ih u ?_
      simp only [size] at ht
      omega
    | app fn arg =>
      simp only [size] at ht
      exact app fn arg (ih fn (by omega)) (ih arg (by omega))

/-! ### Assignments -/

/-- `ρ` below one more binder, with the name `x`. -/
def withParam (x : Name) (ρ : Name → Nameless) (y : Name) : Nameless :=
  if y = x then .bound 0 else (ρ y).lift

/-- The nameless form with `ρ x` for the free occurrences of `x`. -/
def namelessWith (ρ : Name → Nameless) : Term → Nameless
  | var x => ρ x
  | abs x body => .abs (body.namelessWith (withParam x ρ))
  | app fn arg => .app (fn.namelessWith ρ) (arg.namelessWith ρ)

theorem withParam_self (x : Name) (ρ : Name → Nameless) : withParam x ρ x = .bound 0 :=
  if_pos rfl

theorem withParam_of_ne {x y : Name} (ρ : Name → Nameless) (h : y ≠ x) : withParam x ρ y = (ρ y).lift :=
  if_neg h

/-- The nameless form depends on the assignment of the free names only. -/
theorem namelessWith_congr {t : Term} {ρ ρ' : Name → Nameless} (h : ∀ x ∈ t.freeVars, ρ x = ρ' x) :
    t.namelessWith ρ = t.namelessWith ρ' := by
  induction t generalizing ρ ρ' with
  | var x => exact h x (List.mem_singleton_self x)
  | abs x body ih =>
    refine congrArg Nameless.abs (ih fun y hy => ?_)
    by_cases hyx : y = x
    · rw [hyx, withParam_self, withParam_self]
    · have hmem : y ∈ (abs x body).freeVars := by simp [freeVars, hy, hyx]
      rw [withParam_of_ne ρ hyx, withParam_of_ne ρ' hyx, h y hmem]
  | app fn arg ihf iha =>
    have hf := ihf fun x hx => h x (List.mem_append_left _ hx)
    have ha := iha fun x hx => h x (List.mem_append_right _ hx)
    rw [namelessWith, namelessWith, hf, ha]

private theorem inst_withParam (x : Name) (ρ : Name → Nameless) (τ : Nat → Nameless) (σ : Name → Nameless) :
    (fun y => (withParam x ρ y).inst (Nameless.extend τ) (fun z => (σ z).lift)) =
      withParam x fun y => (ρ y).inst τ σ := by
  funext y
  by_cases hyx : y = x
  · rw [hyx, withParam_self, withParam_self]
    rfl
  · rw [withParam_of_ne _ hyx, withParam_of_ne _ hyx]
    exact Nameless.lift_inst (ρ y) τ σ

private theorem inst_namelessWith (t : Term) (ρ : Name → Nameless) (τ : Nat → Nameless) (σ : Name → Nameless) :
    (t.namelessWith ρ).inst τ σ = t.namelessWith fun x => (ρ x).inst τ σ := by
  induction t generalizing ρ τ σ with
  | var x => rfl
  | abs x body ih => simp only [namelessWith, Nameless.inst, ih, inst_withParam]
  | app fn arg ihf iha => simp only [namelessWith, Nameless.inst, ihf, iha]

private theorem lift_namelessWith (t : Term) (ρ : Name → Nameless) :
    (t.namelessWith ρ).lift = t.namelessWith fun x => (ρ x).lift := by
  simp only [Nameless.lift, Nameless.reindex_eq_inst]
  exact inst_namelessWith t ρ _ _

theorem namelessWith_withParam_of_not_mem {x : Name} {t : Term} (hx : x ∉ t.freeVars) (ρ : Name → Nameless) :
    t.namelessWith (withParam x ρ) = (t.namelessWith ρ).lift := by
  rw [lift_namelessWith]
  refine namelessWith_congr fun y hy => withParam_of_ne ρ ?_
  rintro rfl
  exact hx hy

theorem names_namelessWith (t : Term) (ρ : Name → Nameless) :
    (t.namelessWith ρ).names = t.freeVars.flatMap fun x => (ρ x).names := by
  induction t generalizing ρ with
  | var x => simp [namelessWith, freeVars]
  | abs x body ih =>
    rw [namelessWith, Nameless.names, ih, freeVars]
    -- an occurrence of the parameter adds no name on the left and is filtered out on the right
    induction body.freeVars with
    | nil => rfl
    | cons y ys ihys =>
      by_cases hyx : y = x
      · simpa [hyx, withParam_self, Nameless.names] using ihys
      · simpa [hyx, withParam_of_ne] using ihys
  | app fn arg ihf iha => rw [namelessWith, Nameless.names, ihf, iha, freeVars, List.flatMap_append]

/-! ### The scope as an assignment -/

/-- The binder that a name belongs to below the binders in `scope`, if there is one. -/
def lookup (scope : List Name) (x : Name) : Nameless :=
  match scope.idxOf? x with
  | some i => .bound i
  | none => .free x

theorem lookup_nil : lookup [] = .free :=
  rfl

theorem withParam_lookup (x : Name) (scope : List Name) : withParam x (lookup scope) = lookup (x :: scope) := by
  funext y
  by_cases hyx : y = x
  · rw [hyx, withParam_self]
    simp [lookup, List.idxOf?_cons]
  · have hxy : (x == y) = false := by simpa using Ne.symm hyx
    rw [withParam_of_ne _ hyx, lookup, lookup, List.idxOf?_cons, hxy]
    cases scope.idxOf? y <;> rfl

theorem namelessIn_eq (t : Term) (scope : List Name) : t.namelessIn scope = t.namelessWith (lookup scope) := by
  induction t generalizing scope with
  | var x => rfl
  | abs x body ih => rw [namelessIn, namelessWith, ih, withParam_lookup]
  | app fn arg ihf iha => rw [namelessIn, namelessWith, ihf, iha]

theorem nameless_eq (t : Term) : t.nameless = t.namelessWith .free := by
  rw [nameless, namelessIn_eq, lookup_nil]

/-- The form under any assignment is had from the one without. -/
theorem namelessWith_eq_inst (t : Term) (ρ : Name → Nameless) : t.namelessWith ρ = t.nameless.inst .bound ρ := by
  rw [nameless_eq, inst_namelessWith]
  rfl

@[simp] theorem lift_nameless (t : Term) : t.nameless.lift = t.nameless := by
  rw [nameless_eq, lift_namelessWith]
  rfl

@[simp] theorem names_nameless (t : Term) : t.nameless.names = t.freeVars := by
  rw [nameless_eq, names_namelessWith]
  exact List.flatMap_singleton' _

/-! ### Substitution -/

private theorem withParam_update_self (x : Name) (ρ : Name → Nameless) (v : Nameless) :
    withParam x (Function.update ρ x v) = withParam x ρ := by
  funext y
  by_cases hyx : y = x
  · rw [hyx, withParam_self, withParam_self]
  · rw [withParam_of_ne _ hyx, withParam_of_ne _ hyx, Function.update_of_ne hyx]

private theorem withParam_update_of_ne {x y : Name} (hxy : x ≠ y) (ρ : Name → Nameless) (v : Nameless) :
    withParam y (Function.update ρ x v) = Function.update (withParam y ρ) x v.lift := by
  funext w
  by_cases hwx : w = x
  · rw [hwx, withParam_of_ne _ hxy, Function.update_self, Function.update_self]
  · rw [Function.update_of_ne hwx, withParam, withParam, Function.update_of_ne hwx]

/-- A fresh parameter `z` in place of `y` changes nothing at the names of the body. -/
private theorem update_withParam_fresh {y z w : Name} (hwz : w ≠ z) (ρ : Name → Nameless) :
    Function.update (withParam z ρ) y (.bound 0) w = withParam y ρ w := by
  by_cases hwy : w = y
  · rw [hwy, Function.update_self, withParam_self]
  · rw [Function.update_of_ne hwy, withParam_of_ne _ hwz, withParam_of_ne _ hwy]

/-- Substitution is an update of the assignment. -/
theorem namelessWith_subst (t : Term) (x : Name) (r : Term) (ρ : Name → Nameless) :
    (t.subst x r).namelessWith ρ = t.namelessWith (Function.update ρ x (r.namelessWith ρ)) := by
  induction t using inductionUpToSize generalizing x r ρ with
  | var y =>
    rw [subst_var]
    split
    · rename_i hxy
      rw [← hxy, namelessWith, Function.update_self]
    · rename_i hxy
      rw [namelessWith, namelessWith, Function.update_of_ne (Ne.symm hxy)]
  | abs y body ih =>
    by_cases hxy : x = y
    · rw [← hxy, subst_abs_self, namelessWith, namelessWith, withParam_update_self]
    by_cases hy : y ∈ r.freeVars
    · rw [subst_abs_of_hasFree body hxy (hasFree_iff.2 hy)]
      have hfresh : clearParam x r y body ∉ x :: r.freeVars ++ body.freeVars :=
        Name.fresh_not_mem y _
      generalize clearParam x r y body = z at hfresh
      simp only [List.cons_append, List.mem_cons, List.mem_append, not_or] at hfresh
      obtain ⟨hzx, hzr, hzbody⟩ := hfresh
      refine congrArg Nameless.abs ?_
      -- the two substitutions in the body become two updates, which agree with the assignment below `y`
      calc ((body.rename y z).subst x r).namelessWith (withParam z ρ)
          = (body.rename y z).namelessWith (withParam z (Function.update ρ x (r.namelessWith ρ))) := by
            rw [ih _ (size_rename ..), namelessWith_withParam_of_not_mem hzr,
              withParam_update_of_ne (Ne.symm hzx)]
        _ = body.namelessWith (withParam y (Function.update ρ x (r.namelessWith ρ))) := by
            rw [rename, ih _ rfl, namelessWith, withParam_self]
            refine namelessWith_congr fun w hw => update_withParam_fresh ?_ _
            rintro rfl
            exact hzbody hw
    · rw [subst_abs_of_not_hasFree body hxy (hasFree_eq_false_iff.2 hy), namelessWith, namelessWith, ih _ rfl,
        namelessWith_withParam_of_not_mem hy, withParam_update_of_ne hxy]
  | app fn arg ihf iha => rw [subst_app, namelessWith, namelessWith, ihf, iha]

/-- The renaming of a parameter to a name that is not free in the body. -/
theorem namelessWith_abs_rename {y z : Name} {body : Term} (hz : z ∉ body.freeVars) (ρ : Name → Nameless) :
    (abs z (body.rename y z)).namelessWith ρ = (abs y body).namelessWith ρ := by
  rw [namelessWith, rename, namelessWith_subst, namelessWith, withParam_self, namelessWith]
  refine congrArg Nameless.abs (namelessWith_congr fun w hw => update_withParam_fresh ?_ ρ)
  rintro rfl
  exact hz hw

/-- A contraction gives the parameter its value. -/
theorem contract_namelessWith (body : Term) (x : Name) (ρ : Name → Nameless) (v : Nameless) :
    (body.namelessWith (withParam x ρ)).contract v = body.namelessWith (Function.update ρ x v) := by
  rw [Nameless.contract, inst_namelessWith]
  refine namelessWith_congr fun y _ => ?_
  by_cases hyx : y = x
  · rw [hyx, Function.update_self, withParam_self]
    rfl
  · rw [Function.update_of_ne hyx, withParam_of_ne _ hyx]
    exact Nameless.contract_lift ..

/-- Substitution in the body of an abstraction contracts its nameless form. -/
theorem namelessIn_subst (body : Term) (x : Name) (arg : Term) (scope : List Name) :
    (body.subst x arg).namelessIn scope = (body.namelessIn (x :: scope)).contract (arg.namelessIn scope) := by
  simp only [namelessIn_eq, ← withParam_lookup]
  rw [contract_namelessWith, namelessWith_subst]

end LambdaCalculus.Term
