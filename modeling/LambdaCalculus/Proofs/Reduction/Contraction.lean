import LambdaCalculus.Proofs.Nameless.Reduction
import LambdaCalculus.Proofs.Nameless.Translation
import LambdaCalculus.Proofs.Path
import LambdaCalculus.Reduction.Strategy

/-!
# Contractions of named terms

`Contracts t u` says that `u` comes from `t` by the contraction of the redex at the end of some path, and `Reduces`
that it does by any number of contractions.  The nameless forms make the same contraction at the same path
(`contractAt?_namelessIn`), whatever names the contraction has to choose, and the nameless form has the redexes of the
term, so it is normal exactly if the term is (`isNormal_namelessIn`).
-/

namespace LambdaCalculus.Term

/-- The contraction of the redex at the end of some path. -/
def Contracts (t u : Term) : Prop :=
  ∃ path, t.contractAt? path = some u

/-- Any number of contractions, one after the other. -/
abbrev Reduces : Term → Term → Prop :=
  Relation.ReflTransGen Contracts

/-! ### Contraction along a path -/

theorem exists_eq_abs_of_isAbs {t : Term} (h : t.isAbs = true) : ∃ x body, t = abs x body := by
  cases t with
  | abs x body => exact ⟨x, body, rfl⟩
  | _ => simp [isAbs] at h

theorem contractAt?_nil (t : Term) : t.contractAt? [] = t.contract? := by
  cases h : t.contract? <;> simp [contractAt?, subterm?, replace?, h]

/-- The contraction in a child is put back below the node. -/
private theorem contractAt?_cons (t : Term) (d : Direction) (path : Path) :
    t.contractAt? (d :: path) = ((t.child? d).bind (·.contractAt? path)).bind (t.setChild? d) := by
  cases hc : t.child? d with
  | none => simp [contractAt?, subterm?, hc]
  | some c => simp [contractAt?, subterm?, replace?_cons, hc, Option.bind_assoc]

theorem contractAt?_left (fn arg : Term) (path : Path) :
    (app fn arg).contractAt? (.left :: path) = (fn.contractAt? path).map (app · arg) := by
  rw [contractAt?_cons, Option.map_eq_bind]
  rfl

theorem contractAt?_right (fn arg : Term) (path : Path) :
    (app fn arg).contractAt? (.right :: path) = (arg.contractAt? path).map (app fn) := by
  rw [contractAt?_cons, Option.map_eq_bind]
  rfl

theorem contractAt?_body (x : Name) (body : Term) (path : Path) :
    (abs x body).contractAt? (.body :: path) = (body.contractAt? path).map (abs x) := by
  rw [contractAt?_cons, Option.map_eq_bind]
  rfl

private theorem contractAt?_of_child?_eq_none {t : Term} {d : Direction} (h : t.child? d = none) (path : Path) :
    t.contractAt? (d :: path) = none := by
  rw [contractAt?_cons, h]
  rfl

theorem contract?_eq_some_iff {t u : Term} :
    t.contract? = some u ↔ ∃ x body arg, t = app (abs x body) arg ∧ u = body.subst x arg := by
  constructor
  · intro h
    unfold contract? at h
    split at h
    · rename_i x body arg
      exact ⟨x, body, arg, rfl, (Option.some.inj h).symm⟩
    · cases h
  · rintro ⟨x, body, arg, rfl, rfl⟩
    rfl

private theorem Contracts.redex (x : Name) (body arg : Term) : Contracts (app (abs x body) arg) (body.subst x arg) :=
  ⟨[], contractAt?_nil _⟩

private theorem Contracts.body {body body' : Term} (h : Contracts body body') (x : Name) :
    Contracts (abs x body) (abs x body') := by
  obtain ⟨path, h⟩ := h
  exact ⟨.body :: path, by rw [contractAt?_body, h, Option.map_some]⟩

private theorem Contracts.fn {fn fn' : Term} (h : Contracts fn fn') (arg : Term) :
    Contracts (app fn arg) (app fn' arg) := by
  obtain ⟨path, h⟩ := h
  exact ⟨.left :: path, by rw [contractAt?_left, h, Option.map_some]⟩

private theorem Contracts.arg {arg arg' : Term} (h : Contracts arg arg') (fn : Term) :
    Contracts (app fn arg) (app fn arg') := by
  obtain ⟨path, h⟩ := h
  exact ⟨.right :: path, by rw [contractAt?_right, h, Option.map_some]⟩

/-- Induction along the path to the redex. -/
theorem Contracts.induction {motive : ∀ t u, Contracts t u → Prop}
    (redex : ∀ x body arg, motive _ _ (.redex x body arg))
    (body : ∀ x {body body'} (h : Contracts body body'), motive _ _ h → motive _ _ (h.body x))
    (fn : ∀ {fn fn'} arg (h : Contracts fn fn'), motive _ _ h → motive _ _ (h.fn arg))
    (arg : ∀ fn {arg arg'} (h : Contracts arg arg'), motive _ _ h → motive _ _ (h.arg fn)) {t u : Term}
    (h : Contracts t u) : motive t u h := by
  obtain ⟨path, h⟩ := h
  induction path generalizing t u with
  | nil =>
    rw [contractAt?_nil, contract?_eq_some_iff] at h
    obtain ⟨x, b, a, rfl, rfl⟩ := h
    exact redex x b a
  | cons d path ih =>
    cases t with
    | var x =>
      rw [contractAt?_of_child?_eq_none (by cases d <;> rfl)] at h
      cases h
    | abs x b =>
      cases d with
      | body =>
        rw [contractAt?_body, Option.map_eq_some_iff] at h
        obtain ⟨b', hb, rfl⟩ := h
        exact body x ⟨path, hb⟩ (ih hb)
      | _ =>
        rw [contractAt?_of_child?_eq_none rfl] at h
        cases h
    | app f a =>
      cases d with
      | left =>
        rw [contractAt?_left, Option.map_eq_some_iff] at h
        obtain ⟨f', hf, rfl⟩ := h
        exact fn a ⟨path, hf⟩ (ih hf)
      | right =>
        rw [contractAt?_right, Option.map_eq_some_iff] at h
        obtain ⟨a', ha, rfl⟩ := h
        exact arg f ⟨path, ha⟩ (ih ha)
      | body =>
        rw [contractAt?_of_child?_eq_none rfl] at h
        cases h

/-! ### Nameless forms -/

private theorem contract?_namelessIn (t : Term) (scope : List Name) :
    (t.namelessIn scope).contractAt? [] = t.contract?.map (·.namelessIn scope) := by
  cases t with
  | var x =>
    rw [namelessIn]
    split <;> rfl
  | abs x body => rfl
  | app fn arg =>
    cases fn with
    | var x =>
      rw [namelessIn, namelessIn]
      split <;> rfl
    | abs x body =>
      rw [contract?, Option.map_some, namelessIn_subst]
      rfl
    | app fn arg => rfl

/-- The contraction at the end of a path is the same on nameless forms. -/
theorem contractAt?_namelessIn (t : Term) (path : Path) (scope : List Name) :
    (t.namelessIn scope).contractAt? path = (t.contractAt? path).map (·.namelessIn scope) := by
  induction path generalizing t scope with
  | nil => rw [contractAt?_nil, contract?_namelessIn]
  | cons d path ih =>
    cases t with
    | var x =>
      rw [contractAt?_of_child?_eq_none (by cases d <;> rfl), namelessIn]
      split <;> cases d <;> rfl
    | abs x body =>
      cases d with
      | body =>
        rw [contractAt?_body, namelessIn, Nameless.contractAt?, ih, Option.map_map, Option.map_map]
        rfl
      | _ =>
        rw [contractAt?_of_child?_eq_none rfl]
        rfl
    | app fn arg =>
      cases d with
      | left =>
        rw [contractAt?_left, namelessIn, Nameless.contractAt?, ih, Option.map_map, Option.map_map]
        rfl
      | right =>
        rw [contractAt?_right, namelessIn, Nameless.contractAt?, ih, Option.map_map, Option.map_map]
        rfl
      | body =>
        rw [contractAt?_of_child?_eq_none rfl]
        rfl

/-- A contraction is one of the nameless form. -/
private theorem Contracts.step {t u : Term} (h : Contracts t u) : Nameless.Step t.nameless u.nameless := by
  obtain ⟨path, h⟩ := h
  have hnameless : t.nameless.contractAt? path = some u.nameless := by
    rw [nameless, contractAt?_namelessIn, h]
    rfl
  exact Nameless.step_of_contractAt? hnameless

theorem Reduces.nameless {t u : Term} (h : Reduces t u) : Nameless.Reduces t.nameless u.nameless :=
  Relation.ReflTransGen.lift Term.nameless (fun _ _ => Contracts.step) _ _ h

@[simp] theorem isAbs_namelessIn (t : Term) (scope : List Name) : (t.namelessIn scope).isAbs = t.isAbs := by
  cases t with
  | var x =>
    rw [namelessIn]
    split <;> rfl
  | _ => rfl

@[simp] theorem isNormal_namelessIn (t : Term) (scope : List Name) :
    (t.namelessIn scope).isNormal = t.isNormal := by
  induction t generalizing scope with
  | var x =>
    rw [namelessIn]
    split <;> rfl
  | abs x body ih => exact ih _
  | app fn arg ihf iha => rw [namelessIn, Nameless.isNormal, isNormal, isAbs_namelessIn, ihf, iha]

@[simp] theorem isNormal_nameless (t : Term) : t.nameless.isNormal = t.isNormal :=
  isNormal_namelessIn t []

end LambdaCalculus.Term
