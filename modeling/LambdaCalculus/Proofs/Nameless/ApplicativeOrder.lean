import LambdaCalculus.Proofs.Nameless.Reduction

/-!
# Applicative order on nameless terms

`applicativeStep?` contracts the rightmost of the innermost redexes.  `Evaluates` says what repeating it comes to: the
argument of an application is evaluated, then the function, both of them below binders too, and if the function has
become an abstraction, it is contracted, with the argument as it is then, and the result is evaluated.

There is no evaluation of a term on which applicative order does not end.  If there is one, applicative order ends with
its result (`Evaluates.applicativeReduces`), which is normal (`Evaluates.isNormal`): the steps of an argument are steps
of the application, so are those of a function once the argument is normal, and the contraction is the next step once
both are.
-/

namespace LambdaCalculus.Nameless

open Relation (ReflTransGen)

/-! ### The next step -/

private theorem innermostRedex?_eq_none_of_isNormal {t : Nameless} (h : t.isNormal = true) :
    t.innermostRedex? = none := by
  induction t with
  | bound i => rfl
  | free x => rfl
  | abs body ih => rw [innermostRedex?, ih h, Option.map_none]
  | app fn arg ihf iha =>
    simp only [isNormal, Bool.and_eq_true, Bool.not_eq_true'] at h
    simp [innermostRedex?, ihf h.1.2, iha h.2, h.1.1]

variable {t u : Nameless}

private theorem applicativeStep?_eq_some_iff :
    t.applicativeStep? = some u ↔ ∃ path, t.innermostRedex? = some path ∧ t.contractAt? path = some u :=
  Option.bind_eq_some_iff

private theorem applicativeStep?_abs (h : t.applicativeStep? = some u) : (abs t).applicativeStep? = some (abs u) := by
  obtain ⟨path, hpath, hcontract⟩ := applicativeStep?_eq_some_iff.1 h
  refine applicativeStep?_eq_some_iff.2 ⟨.body :: path, ?_, ?_⟩
  · rw [innermostRedex?, hpath, Option.map_some]
  · rw [contractAt?, hcontract, Option.map_some]

private theorem applicativeStep?_arg (h : t.applicativeStep? = some u) (fn : Nameless) :
    (app fn t).applicativeStep? = some (app fn u) := by
  obtain ⟨path, hpath, hcontract⟩ := applicativeStep?_eq_some_iff.1 h
  refine applicativeStep?_eq_some_iff.2 ⟨.right :: path, ?_, ?_⟩
  · rw [innermostRedex?, hpath]
  · rw [contractAt?, hcontract, Option.map_some]

private theorem applicativeStep?_fn (h : t.applicativeStep? = some u) {arg : Nameless} (harg : arg.isNormal = true) :
    (app t arg).applicativeStep? = some (app u arg) := by
  obtain ⟨path, hpath, hcontract⟩ := applicativeStep?_eq_some_iff.1 h
  refine applicativeStep?_eq_some_iff.2 ⟨.left :: path, ?_, ?_⟩
  · rw [innermostRedex?, innermostRedex?_eq_none_of_isNormal harg, hpath]
  · rw [contractAt?, hcontract, Option.map_some]

private theorem applicativeStep?_redex {body arg : Nameless} (hbody : body.isNormal = true)
    (harg : arg.isNormal = true) : (app (abs body) arg).applicativeStep? = some (body.contract arg) := by
  have hfn : (abs body).innermostRedex? = none := innermostRedex?_eq_none_of_isNormal hbody
  refine applicativeStep?_eq_some_iff.2 ⟨[], ?_, rfl⟩
  rw [innermostRedex?, innermostRedex?_eq_none_of_isNormal harg, hfn]
  rfl

/-- Steps in applicative order. -/
abbrev ApplicativeReduces : Nameless → Nameless → Prop :=
  ReflTransGen fun t u => t.applicativeStep? = some u

private theorem ApplicativeReduces.abs (h : ApplicativeReduces t u) : ApplicativeReduces (abs t) (abs u) :=
  ReflTransGen.lift Nameless.abs (fun _ _ => applicativeStep?_abs) _ _ h

private theorem ApplicativeReduces.arg (h : ApplicativeReduces t u) (fn : Nameless) :
    ApplicativeReduces (app fn t) (app fn u) :=
  ReflTransGen.lift (app fn) (fun _ _ hs => applicativeStep?_arg hs fn) _ _ h

private theorem ApplicativeReduces.fn (h : ApplicativeReduces t u) {arg : Nameless} (harg : arg.isNormal = true) :
    ApplicativeReduces (app t arg) (app u arg) :=
  ReflTransGen.lift (app · arg) (fun _ _ hs => applicativeStep?_fn hs harg) _ _ h

/-! ### Evaluation -/

/-- What applicative order makes of a term. -/
inductive Evaluates : Nameless → Nameless → Prop where
  | bound (i : Nat) : Evaluates (bound i) (bound i)
  | free (x : Name) : Evaluates (free x) (free x)
  | abs {body body' : Nameless} (h : Evaluates body body') : Evaluates (abs body) (abs body')
  | app {fn fn' arg arg' : Nameless} (hf : Evaluates fn fn') (ha : Evaluates arg arg') (hfn' : fn'.isAbs = false) :
      Evaluates (app fn arg) (app fn' arg')
  | contract {fn body arg arg' result : Nameless} (hf : Evaluates fn (abs body)) (ha : Evaluates arg arg')
      (h : Evaluates (body.contract arg') result) : Evaluates (app fn arg) result

theorem Evaluates.isNormal (h : Evaluates t u) : u.isNormal = true := by
  induction h with
  | bound i => rfl
  | free x => rfl
  | abs _ ih => exact ih
  | app _ _ hfn' ihf iha => rw [Nameless.isNormal, hfn', ihf, iha]; rfl
  | contract _ _ _ _ _ ih => exact ih

theorem Evaluates.of_isNormal (h : t.isNormal = true) : Evaluates t t := by
  induction t with
  | bound i => exact .bound i
  | free x => exact .free x
  | abs body ih => exact .abs (ih h)
  | app fn arg ihf iha =>
    simp only [Nameless.isNormal, Bool.and_eq_true, Bool.not_eq_true'] at h
    exact .app (ihf h.1.2) (iha h.2) h.1.1

theorem Evaluates.applicativeReduces (h : Evaluates t u) : ApplicativeReduces t u := by
  induction h with
  | bound i => exact .refl
  | free x => exact .refl
  | abs _ ih => exact ih.abs
  | app _ ha _ ihf iha => exact (iha.arg _).trans (ihf.fn ha.isNormal)
  | @contract fn body arg arg' result hf ha _ ihf iha ih =>
    calc ApplicativeReduces (Nameless.app fn arg) _ := iha.arg fn
      ApplicativeReduces _ (Nameless.app (Nameless.abs body) arg') := ihf.fn ha.isNormal
      ApplicativeReduces _ (body.contract arg') := .single (applicativeStep?_redex hf.isNormal ha.isNormal)
      ApplicativeReduces _ result := ih

end LambdaCalculus.Nameless
