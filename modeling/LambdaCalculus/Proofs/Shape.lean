import LambdaCalculus.Proofs.Substitution
import LambdaCalculus.Term.Path

/-!
# Size and shape under substitution

A substitution takes out one node for each free occurrence of the variable and puts in a copy of the replacement, and
the renaming of binders on the way costs nothing.  On nameless forms there are no binders to rename, and a form has as
many nodes as its term (`size_nameless`), so the count is made there (`size_subst`).

A renaming changes names only: without its names (`skeleton`) the term is the same as before (`skeleton_rename`).  So
all that the names do not matter for is kept, such as the depth and the kinds of the nodes at the paths.
-/

namespace LambdaCalculus

/-! ### The number of nodes -/

namespace Nameless

/-- The number of nodes. -/
def size : Nameless → Nat
  | bound _ => 1
  | free _ => 1
  | abs body => body.size + 1
  | app fn arg => fn.size + arg.size + 1

private theorem size_subst (t : Nameless) (x : Name) (r : Nameless) :
    (t.subst x r).size + t.names.count x = t.size + t.names.count x * r.size := by
  induction t with
  | bound i => simp [subst, bind, names, size]
  | free y =>
    by_cases hxy : x = y
    · simp [subst, bind, names, size, hxy, Nat.add_comm]
    · simp [subst, bind, names, size, hxy, Ne.symm hxy]
  | abs body ih =>
    simp only [subst, bind, names, size] at ih ⊢
    omega
  | app fn arg ihf iha =>
    simp only [subst, bind, names, size, List.count_append, Nat.add_mul] at ihf iha ⊢
    omega

end Nameless

namespace Term

private theorem size_namelessIn (t : Term) (scope : List Name) : (t.namelessIn scope).size = t.size := by
  induction t generalizing scope with
  | var x =>
    rw [namelessIn]
    split <;> rfl
  | abs x body ih => rw [namelessIn, Nameless.size, ih, size]
  | app fn arg ihf iha => rw [namelessIn, Nameless.size, ihf, iha, size]

private theorem size_nameless (t : Term) : t.nameless.size = t.size :=
  t.size_namelessIn []

/-- Each free occurrence of the variable gives way to a copy of the replacement. -/
theorem size_subst (t : Term) (x : Name) (r : Term) :
    (t.subst x r).size + t.freeVars.count x = t.size + t.freeVars.count x * r.size := by
  have h := t.nameless.size_subst x r.nameless
  rwa [← nameless_subst, names_nameless, size_nameless, size_nameless, size_nameless] at h

/-! ### The term without its names -/

/-- The kind of a node. -/
inductive Kind where
  | var
  | abs
  | app
  deriving DecidableEq, Repr

def kind : Term → Kind
  | var _ => .var
  | abs .. => .abs
  | app .. => .app

/-- The term with all names replaced by the empty one. -/
def skeleton : Term → Term
  | var _ => var ""
  | abs _ body => abs "" body.skeleton
  | app fn arg => app fn.skeleton arg.skeleton

@[simp] private theorem kind_skeleton (t : Term) : t.skeleton.kind = t.kind := by
  cases t <;> rfl

@[simp] private theorem depth_skeleton (t : Term) : t.skeleton.depth = t.depth := by
  induction t with
  | var x => rfl
  | abs x body ih => rw [skeleton, depth, ih, depth]
  | app fn arg ihf iha => rw [skeleton, depth, ihf, iha, depth]

private theorem child?_skeleton (t : Term) (d : Direction) : t.skeleton.child? d = (t.child? d).map skeleton := by
  cases t <;> cases d <;> rfl

private theorem subterm?_skeleton (t : Term) (p : Path) : t.skeleton.subterm? p = (t.subterm? p).map skeleton := by
  induction p generalizing t with
  | nil => rfl
  | cons d p ih =>
    rw [subterm?, subterm?, child?_skeleton]
    cases t.child? d with
    | none => rfl
    | some c => exact ih c

private theorem skeleton_rename (t : Term) (x y : Name) : (t.rename x y).skeleton = t.skeleton := by
  induction t using inductionUpToSize generalizing x y with
  | var z =>
    rw [rename, subst_var]
    split <;> rfl
  | abs z body ih =>
    by_cases hxz : x = z
    · rw [rename, hxz, subst_abs_self]
    rw [rename]
    cases hfree : (var y).hasFree z with
    | true =>
      rw [subst_abs_of_hasFree body hxz hfree, skeleton, ← rename, ih _ (size_rename ..), ih body rfl, skeleton]
    | false => rw [subst_abs_of_not_hasFree body hxz hfree, skeleton, ← rename, ih body rfl, skeleton]
  | app fn arg ihf iha => rw [rename, subst_app, skeleton, ← rename, ← rename, ihf, iha, skeleton]

theorem depth_rename (t : Term) (x y : Name) : (t.rename x y).depth = t.depth := by
  rw [← depth_skeleton, skeleton_rename, depth_skeleton]

/-- The paths into a term lead to nodes of the same kinds after a renaming, or nowhere as before. -/
theorem map_kind_subterm?_rename (t : Term) (x y : Name) (p : Path) :
    ((t.rename x y).subterm? p).map kind = (t.subterm? p).map kind := by
  have hskeleton : ∀ u : Term, (u.subterm? p).map kind = (u.skeleton.subterm? p).map kind := by
    intro u
    rw [subterm?_skeleton, Option.map_map]
    exact congrArg (Option.map · _) (funext fun s => (kind_skeleton s).symm)
  rw [hskeleton, skeleton_rename, ← hskeleton]

end Term

end LambdaCalculus
