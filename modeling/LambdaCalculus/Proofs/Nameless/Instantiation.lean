import LambdaCalculus.Term.Nameless

/-!
# Putting terms for loose numbers and free names

A number that counts past all binders of a nameless term is loose: it belongs to a binder outside.  `t.inst τ σ` puts
`τ i` for the loose number `i` and `σ x` for the free name `x`, all at once; below a binder the terms put in are
lifted, so that their own loose numbers keep their binders.

Two instantiations in a row are one (`inst_inst`), so instantiation commutes with the contraction of an abstraction
(`inst_contract`).  For terms without loose numbers `bind` is an instantiation (`bind_eq_inst`).
-/

namespace LambdaCalculus.Nameless

/-! ### New numbers -/

/-- `f` below one more binder, whose own number stays. -/
def extendIndex (f : Nat → Nat) : Nat → Nat
  | 0 => 0
  | i + 1 => f i + 1

/-- Changes the loose numbers by `f`. -/
def reindex (f : Nat → Nat) : Nameless → Nameless
  | bound i => bound (f i)
  | free x => free x
  | abs body => abs (body.reindex (extendIndex f))
  | app fn arg => app (fn.reindex f) (arg.reindex f)

/-- The term as it reads below one more binder. -/
def lift (t : Nameless) : Nameless :=
  t.reindex (· + 1)

@[simp] theorem lift_bound (i : Nat) : (bound i).lift = bound (i + 1) :=
  rfl

@[simp] theorem lift_app (fn arg : Nameless) : (app fn arg).lift = app fn.lift arg.lift :=
  rfl

private theorem extendIndex_comp (f g : Nat → Nat) : extendIndex g ∘ extendIndex f = extendIndex (g ∘ f) := by
  funext i
  cases i <;> rfl

private theorem reindex_reindex (t : Nameless) (f g : Nat → Nat) : (t.reindex f).reindex g = t.reindex (g ∘ f) := by
  induction t generalizing f g with
  | bound i => rfl
  | free x => rfl
  | abs body ih => simp only [reindex, ih, extendIndex_comp]
  | app fn arg ihf iha => simp only [reindex, ihf, iha]

private theorem lift_reindex (t : Nameless) (f : Nat → Nat) : t.lift.reindex (extendIndex f) = (t.reindex f).lift := by
  rw [lift, lift, reindex_reindex, reindex_reindex]
  rfl

/-! ### Instantiation -/

/-- `τ` below one more binder, whose own number stays. -/
def extend (τ : Nat → Nameless) : Nat → Nameless
  | 0 => bound 0
  | i + 1 => (τ i).lift

/-- Puts terms for the loose numbers and for the free names. -/
def inst (τ : Nat → Nameless) (σ : Name → Nameless) : Nameless → Nameless
  | bound i => τ i
  | free x => σ x
  | abs body => abs (body.inst (extend τ) (fun x => (σ x).lift))
  | app fn arg => app (fn.inst τ σ) (arg.inst τ σ)

@[simp] theorem extend_bound : extend bound = bound := by
  funext i
  cases i <;> rfl

@[simp] theorem inst_bound_free (t : Nameless) : t.inst bound free = t := by
  induction t with
  | bound i => rfl
  | free x => rfl
  | abs body ih =>
    rw [inst, extend_bound]
    exact congrArg abs ih
  | app fn arg ihf iha => rw [inst, ihf, iha]

private theorem extend_comp_extendIndex (τ : Nat → Nameless) (f : Nat → Nat) :
    extend τ ∘ extendIndex f = extend (τ ∘ f) := by
  funext i
  cases i <;> rfl

private theorem inst_reindex (t : Nameless) (f : Nat → Nat) (τ : Nat → Nameless) (σ : Name → Nameless) :
    (t.reindex f).inst τ σ = t.inst (τ ∘ f) σ := by
  induction t generalizing f τ σ with
  | bound i => rfl
  | free x => rfl
  | abs body ih => simp only [reindex, inst, ih, extend_comp_extendIndex]
  | app fn arg ihf iha => simp only [reindex, inst, ihf, iha]

theorem reindex_eq_inst (t : Nameless) (f : Nat → Nat) : t.reindex f = t.inst (bound ∘ f) free := by
  rw [← inst_reindex, inst_bound_free]

private theorem reindex_extend (τ : Nat → Nameless) (f : Nat → Nat) :
    (fun i => (extend τ i).reindex (extendIndex f)) = extend fun i => (τ i).reindex f := by
  funext i
  cases i with
  | zero => rfl
  | succ i => exact lift_reindex (τ i) f

private theorem reindex_inst (t : Nameless) (τ : Nat → Nameless) (σ : Name → Nameless) (f : Nat → Nat) :
    (t.inst τ σ).reindex f = t.inst (fun i => (τ i).reindex f) (fun x => (σ x).reindex f) := by
  induction t generalizing f τ σ with
  | bound i => rfl
  | free x => rfl
  | abs body ih => simp only [reindex, inst, ih, reindex_extend, lift_reindex]
  | app fn arg ihf iha => simp only [reindex, inst, ihf, iha]

theorem lift_inst (t : Nameless) (τ : Nat → Nameless) (σ : Name → Nameless) :
    t.lift.inst (extend τ) (fun x => (σ x).lift) = (t.inst τ σ).lift := by
  rw [lift, lift, inst_reindex, reindex_inst]
  rfl

private theorem inst_extend (τ τ' : Nat → Nameless) (σ' : Name → Nameless) :
    (fun i => (extend τ i).inst (extend τ') (fun x => (σ' x).lift)) = extend fun i => (τ i).inst τ' σ' := by
  funext i
  cases i with
  | zero => rfl
  | succ i => exact lift_inst (τ i) τ' σ'

/-- Two instantiations in a row are one. -/
private theorem inst_inst (t : Nameless) (τ τ' : Nat → Nameless) (σ σ' : Name → Nameless) :
    (t.inst τ σ).inst τ' σ' = t.inst (fun i => (τ i).inst τ' σ') (fun x => (σ x).inst τ' σ') := by
  induction t generalizing τ τ' σ σ' with
  | bound i => rfl
  | free x => rfl
  | abs body ih => simp only [inst, ih, inst_extend, lift_inst]
  | app fn arg ihf iha => simp only [inst, ihf, iha]

/-! ### Contraction -/

/-- `arg` for the number of the innermost binder, which goes away. -/
def argument (arg : Nameless) : Nat → Nameless
  | 0 => arg
  | i + 1 => bound i

/-- What comes of the abstraction of `body`, applied to `arg`. -/
def contract (body arg : Nameless) : Nameless :=
  body.inst (argument arg) free

theorem contract_lift (t arg : Nameless) : t.lift.contract arg = t := by
  rw [contract, lift, inst_reindex]
  exact inst_bound_free t

theorem inst_contract (body arg : Nameless) (τ : Nat → Nameless) (σ : Name → Nameless) :
    (body.contract arg).inst τ σ =
      (body.inst (extend τ) (fun x => (σ x).lift)).contract (arg.inst τ σ) := by
  have hτ : (fun i => (argument arg i).inst τ σ) = fun i => (extend τ i).contract (arg.inst τ σ) := by
    funext i
    cases i with
    | zero => rfl
    | succ i => exact (contract_lift (τ i) _).symm
  have hσ : σ = fun x => (σ x).lift.contract (arg.inst τ σ) := by
    funext x
    exact (contract_lift (σ x) _).symm
  calc (body.contract arg).inst τ σ
      = body.inst (fun i => (argument arg i).inst τ σ) σ := inst_inst ..
    _ = body.inst (fun i => (extend τ i).contract (arg.inst τ σ))
          (fun x => (σ x).lift.contract (arg.inst τ σ)) := by rw [hτ, ← hσ]
    _ = (body.inst (extend τ) (fun x => (σ x).lift)).contract (arg.inst τ σ) := (inst_inst ..).symm

theorem reindex_contract (body arg : Nameless) (f : Nat → Nat) :
    (body.contract arg).reindex f = (body.reindex (extendIndex f)).contract (arg.reindex f) := by
  have hf : extend (bound ∘ f) = bound ∘ extendIndex f := by
    rw [← extend_comp_extendIndex, extend_bound]
  rw [reindex_eq_inst, inst_contract, hf]
  simp only [reindex_eq_inst]
  rfl

/-! ### Names -/

theorem bind_eq_inst (t : Nameless) {σ : Name → Nameless} (hσ : ∀ x, (σ x).lift = σ x) :
    t.bind σ = t.inst bound σ := by
  induction t with
  | bound i => rfl
  | free x => rfl
  | abs body ih => rw [bind, inst, extend_bound, funext hσ, ih]
  | app fn arg ihf iha => rw [bind, inst, ihf, iha]

/-- The names of the free occurrences, from left to right. -/
def names : Nameless → List Name
  | bound _ => []
  | free x => [x]
  | abs body => body.names
  | app fn arg => fn.names ++ arg.names

@[simp] theorem names_reindex (t : Nameless) (f : Nat → Nat) : (t.reindex f).names = t.names := by
  induction t generalizing f with
  | bound i => rfl
  | free x => rfl
  | abs body ih => exact ih _
  | app fn arg ihf iha => simp only [reindex, names, ihf, iha]

@[simp] theorem names_lift (t : Nameless) : t.lift.names = t.names :=
  names_reindex t _

theorem names_bind (t : Nameless) (σ : Name → Nameless) :
    (t.bind σ).names = t.names.flatMap fun x => (σ x).names := by
  induction t with
  | bound i => rfl
  | free x => exact (List.flatMap_singleton ..).symm
  | abs body ih => exact ih
  | app fn arg ihf iha => rw [bind, names, ihf, iha, names, List.flatMap_append]

end LambdaCalculus.Nameless
