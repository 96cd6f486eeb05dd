import LambdaCalculus.Proofs.Shape
import LambdaCalculus.Session.Basic
import LambdaCalculus.Term.Substitution

/-!
# How deep calls nest

Substitution, the comparison of terms and resolution all go on in bodies whose binder has been renamed, and the renaming
is itself a substitution.  Here the calls are counted: `substWithin`, `alphaEqWithin` and `resolveInWithin` do the same
and give up where calls nest deeper than allowed.  They never give up if they are allowed the depth of the term
(`substWithin_eq`, `alphaEqWithin_eq`, `resolveInWithin_eq`), because a renamed body is as deep as the body was, so each
call leaves less of the depth to the calls that it makes.
-/

namespace LambdaCalculus.Term

/-! ### Depth -/

private theorem depth_pos (t : Term) : 0 < t.depth := by
  cases t <;> simp [depth]

private theorem depth_abs_le_iff {x : Name} {body : Term} {n : Nat} : (abs x body).depth ≤ n + 1 ↔ body.depth ≤ n :=
  Nat.succ_le_succ_iff

private theorem depth_app_le_iff {fn arg : Term} {n : Nat} :
    (app fn arg).depth ≤ n + 1 ↔ fn.depth ≤ n ∧ arg.depth ≤ n := by
  rw [depth, Nat.succ_le_succ_iff, Nat.max_le]

/-! ### Substitution -/

/-- Substitution, as far as its calls nest at most `n` deep. -/
def substWithin : Nat → Term → Name → Term → Option Term
  | 0, _, _, _ => none
  | _ + 1, var y, x, r => some (if x = y then r else var y)
  | n + 1, abs y body, x, r =>
    if x = y then some (abs y body)
    else if r.hasFree y then do
      let z := clearParam x r y body
      let renamed ← substWithin n body y (var z)
      return abs z (← substWithin n renamed x r)
    else return abs y (← substWithin n body x r)
  | n + 1, app fn arg, x, r => return app (← substWithin n fn x r) (← substWithin n arg x r)

private theorem substWithin_eq {n : Nat} {t : Term} (h : t.depth ≤ n) (x : Name) (r : Term) :
    substWithin n t x r = some (t.subst x r) := by
  induction n generalizing t x r with
  | zero => exact absurd t.depth_pos (Nat.not_lt.2 h)
  | succ n ih =>
    cases t with
    | var y => rw [substWithin, subst_var]
    | abs y body =>
      have hbody := depth_abs_le_iff.1 h
      rw [substWithin]
      by_cases hxy : x = y
      · rw [if_pos hxy, hxy, subst_abs_self]
      rw [if_neg hxy]
      cases hfree : r.hasFree y with
      | true =>
        -- the renamed body is as deep as the body, so there is room for both calls
        let z := clearParam x r y body
        have hrename : substWithin n body y (var z) = some (body.rename y z) := ih hbody y (var z)
        have hrenamed : (body.rename y z).depth ≤ n := by rwa [depth_rename]
        rw [subst_abs_of_hasFree body hxy hfree]
        simp [z, hrename, ih hrenamed]
      | false =>
        rw [subst_abs_of_not_hasFree body hxy hfree]
        simp [ih hbody]
    | app fn arg =>
      obtain ⟨hfn, harg⟩ := depth_app_le_iff.1 h
      rw [substWithin, ih hfn, ih harg, subst_app]
      rfl

private theorem substWithin_eq_rename {n : Nat} {t : Term} (h : t.depth ≤ n) (x y : Name) :
    substWithin n t x (var y) = some (t.rename x y) :=
  substWithin_eq h x (var y)

/-! ### Comparison -/

/-- The comparison of two terms, as far as its calls nest at most `n` deep. -/
def alphaEqWithin : Nat → Term → Term → Option Bool
  | 0, _, _ => none
  | _ + 1, var x, var y => some (x == y)
  | n + 1, app f a, app g b => do
    if ← alphaEqWithin n f g then alphaEqWithin n a b else return false
  | n + 1, abs x t, abs y u =>
    if x = y then alphaEqWithin n t u
    else do
      let z := x.fresh (t.freeVars ++ u.freeVars)
      alphaEqWithin n (← substWithin n t x (var z)) (← substWithin n u y (var z))
  | _ + 1, _, _ => some false

private theorem alphaEqWithin_eq {n : Nat} {t u : Term} (ht : t.depth ≤ n) (hu : u.depth ≤ n) :
    alphaEqWithin n t u = some (t.alphaEq u) := by
  induction n generalizing t u with
  | zero => exact absurd t.depth_pos (Nat.not_lt.2 ht)
  | succ n ih =>
    cases t with
    | var x => cases u <;> simp [alphaEqWithin, alphaEq]
    | abs x t =>
      cases u with
      | abs y u =>
        rw [depth_abs_le_iff] at ht hu
        rw [alphaEqWithin, alphaEq]
        by_cases hxy : x = y
        · rw [if_pos hxy, if_pos hxy, ih ht hu]
        · let z := x.fresh (t.freeVars ++ u.freeVars)
          have ht' : (t.rename x z).depth ≤ n := by rwa [depth_rename]
          have hu' : (u.rename y z).depth ≤ n := by rwa [depth_rename]
          rw [if_neg hxy, if_neg hxy]
          simp [z, substWithin_eq_rename ht, substWithin_eq_rename hu, ih ht' hu']
      | _ => simp [alphaEqWithin, alphaEq]
    | app f a =>
      cases u with
      | app g b =>
        rw [depth_app_le_iff] at ht hu
        rw [alphaEqWithin, alphaEq, ih ht.1 hu.1, ih ht.2 hu.2]
        cases f.alphaEq g <;> rfl
      | _ => simp [alphaEqWithin, alphaEq]

/-! ### Resolution -/

/-- Resolution, as far as its calls nest at most `n` deep. -/
def resolveInWithin (define : Name → Option Term) : Nat → List Name → Term → Option Term
  | 0, _, _ => none
  | _ + 1, shadowed, var x => some (if shadowed.contains x then var x else (define x).getD (var x))
  | n + 1, shadowed, abs x body =>
    let inserted := insertedVars define (x :: shadowed) body
    if inserted.contains x then do
      let y := x.fresh (inserted ++ body.freeVars)
      let renamed ← substWithin n body x (var y)
      return abs y (← resolveInWithin define n (y :: shadowed) renamed)
    else return abs x (← resolveInWithin define n (x :: shadowed) body)
  | n + 1, shadowed, app fn arg =>
    return app (← resolveInWithin define n shadowed fn) (← resolveInWithin define n shadowed arg)

private theorem resolveInWithin_eq {n : Nat} {t : Term} (h : t.depth ≤ n) (define : Name → Option Term)
    (shadowed : List Name) : resolveInWithin define n shadowed t = some (t.resolveIn define shadowed) := by
  induction n generalizing t shadowed with
  | zero => exact absurd t.depth_pos (Nat.not_lt.2 h)
  | succ n ih =>
    cases t with
    | var x => rw [resolveInWithin, resolveIn]
    | abs x body =>
      have hbody := depth_abs_le_iff.1 h
      rw [resolveInWithin, resolveIn]
      cases hinserted : (insertedVars define (x :: shadowed) body).contains x with
      | true =>
        let y := x.fresh (insertedVars define (x :: shadowed) body ++ body.freeVars)
        have hrenamed : (body.rename x y).depth ≤ n := by rwa [depth_rename]
        simp [y, substWithin_eq_rename hbody, ih hrenamed]
      | false => simp [ih hbody]
    | app fn arg =>
      obtain ⟨hfn, harg⟩ := depth_app_le_iff.1 h
      rw [resolveInWithin, ih hfn, ih harg, resolveIn]
      rfl

/-! ### Size and termination -/

/-- A substitution trades each free occurrence of the variable for a copy of the replacement, and a renaming keeps the
size, the depth and the kinds of the nodes at all paths.  So a body is smaller than its abstraction also when it has been
renamed, and calls nest no deeper than the terms they are given: substitution, comparison and resolution always end. -/
theorem recursion_on_renamed_bodies_ends :
    (∀ (t : Term) (x : Name) (r : Term),
      (t.subst x r).size + t.freeVars.count x = t.size + t.freeVars.count x * r.size) ∧
      (∀ (t : Term) (x y : Name), (t.rename x y).size = t.size ∧ (t.rename x y).depth = t.depth ∧
        ∀ p : Path, ((t.rename x y).subterm? p).map kind = (t.subterm? p).map kind) ∧
      (∀ (x y : Name) (body : Term),
        (body.rename x y).size < (abs x body).size ∧ (body.rename x y).depth < (abs x body).depth) ∧
      (∀ (t : Term) (x : Name) (r : Term), substWithin t.depth t x r = some (t.subst x r)) ∧
      (∀ t u : Term, alphaEqWithin (max t.depth u.depth) t u = some (t.alphaEq u)) ∧
      ∀ (define : Name → Option Term) (shadowed : List Name) (t : Term),
        resolveInWithin define t.depth shadowed t = some (t.resolveIn define shadowed) := by
  refine ⟨size_subst, fun t x y => ⟨size_rename t x y, depth_rename t x y, map_kind_subterm?_rename t x y⟩, ?_, ?_, ?_,
    ?_⟩
  · intro x y body
    rw [size_rename, depth_rename, size, depth]
    exact ⟨Nat.lt_succ_self _, Nat.lt_succ_self _⟩
  · exact fun t => substWithin_eq (Nat.le_refl _)
  · exact fun t u => alphaEqWithin_eq (Nat.le_max_left ..) (Nat.le_max_right ..)
  · exact fun define shadowed t => resolveInWithin_eq (Nat.le_refl _) define shadowed

/-- One level less is not enough where the substitution comes to a variable below the renamed binder. -/
example : substWithin 2 (abs "y" (app (var "x") (var "y"))) "x" (var "y") = none := by
  decide +kernel

end LambdaCalculus.Term
