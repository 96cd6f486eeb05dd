import LambdaCalculus.Proofs.Nameless.Translation
import LambdaCalculus.Term.Substitution

/-!
# Alpha-equivalence

`alphaEq` answers whether two terms have one nameless form (`alphaEq_iff`).  The induction has to reach the renamed
bodies that `alphaEq` goes on with: below one common binder two bodies have one form exactly if they have one outside
of it (`nameless_abs_iff`), and the renaming to the fresh name keeps the form of both abstractions.
-/

namespace LambdaCalculus.Term

theorem nameless_abs (x : Name) (body : Term) :
    (abs x body).nameless = .abs (body.namelessWith (withParam x .free)) :=
  nameless_eq (abs x body)

/-- A common binder changes nothing in a comparison. -/
private theorem nameless_abs_iff (x : Name) (t u : Term) :
    (abs x t).nameless = (abs x u).nameless ↔ t.nameless = u.nameless := by
  rw [nameless_abs, nameless_abs, Nameless.abs.injEq]
  constructor
  · intro h
    -- putting the free name back for the number of the binder gives the forms outside
    have h' := congrArg (Nameless.contract · (.free x)) h
    simpa only [contract_namelessWith, Function.update_eq_self, ← nameless_eq] using h'
  · intro h
    rw [namelessWith_eq_inst t, namelessWith_eq_inst u, h]

/-- Alpha-equivalence is equality of the nameless forms. -/
theorem alphaEq_iff {t u : Term} : t.alphaEq u = true ↔ t.nameless = u.nameless := by
  induction t using inductionUpToSize generalizing u with
  | var x =>
    cases u with
    | var y => simp [alphaEq, nameless_eq, namelessWith]
    | abs y body => simp [alphaEq, nameless_eq, namelessWith]
    | app fn arg => simp [alphaEq, nameless_eq, namelessWith]
  | abs x t ih =>
    cases u with
    | var y => simp [alphaEq, nameless_eq, namelessWith]
    | abs y u =>
      rw [alphaEq]
      split
      · rename_i hxy
        rw [← hxy, nameless_abs_iff]
        exact ih t rfl
      · have hfresh : x.fresh (t.freeVars ++ u.freeVars) ∉ t.freeVars ++ u.freeVars := Name.fresh_not_mem x _
        generalize x.fresh (t.freeVars ++ u.freeVars) = z at hfresh
        simp only [List.mem_append, not_or] at hfresh
        have ht : (abs z (t.rename x z)).nameless = (abs x t).nameless := by
          simpa only [nameless_eq] using namelessWith_abs_rename hfresh.1 .free
        have hu : (abs z (u.rename y z)).nameless = (abs y u).nameless := by
          simpa only [nameless_eq] using namelessWith_abs_rename hfresh.2 .free
        rw [← ht, ← hu, nameless_abs_iff]
        exact ih _ (size_rename ..)
    | app fn arg => simp [alphaEq, nameless_eq, namelessWith]
  | app fn arg ihf iha =>
    cases u with
    | var y => simp [alphaEq, nameless_eq, namelessWith]
    | abs y body => simp [alphaEq, nameless_eq, namelessWith]
    | app fn' arg' =>
      rw [alphaEq, Bool.and_eq_true, ihf, iha]
      simp only [nameless_eq, namelessWith, Nameless.app.injEq]

/-- `alphaEq` decides equality of the nameless forms, and so it is an equivalence that contexts respect. -/
theorem alphaEq_decides :
    (∀ t u : Term, t.alphaEq u = true ↔ t.nameless = u.nameless) ∧
      Equivalence (fun t u : Term => t.alphaEq u = true) ∧
      (∀ (x : Name) (t u : Term), t.alphaEq u = true → (abs x t).alphaEq (abs x u) = true) ∧
      ∀ fn fn' arg arg' : Term, fn.alphaEq fn' = true → arg.alphaEq arg' = true →
        (app fn arg).alphaEq (app fn' arg') = true := by
  refine ⟨fun t u => alphaEq_iff, ⟨?refl, ?symm, ?trans⟩, ?abs, ?app⟩
  case refl => exact fun t => alphaEq_iff.2 rfl
  case symm => exact fun h => alphaEq_iff.2 (alphaEq_iff.1 h).symm
  case trans => exact fun h h' => alphaEq_iff.2 ((alphaEq_iff.1 h).trans (alphaEq_iff.1 h'))
  case abs =>
    intro x t u h
    rw [alphaEq_iff, nameless_abs_iff]
    exact alphaEq_iff.1 h
  case app =>
    intro fn fn' arg arg' hf ha
    rw [alphaEq, hf, ha]
    rfl

/-- The fresh name `x1` for the two binders is also the name of a binder inside the first term. -/
theorem alphaEq_decides_inner_binder :
    (abs "x" (abs "x1" (var "x"))).alphaEq (abs "y" (abs "z" (var "y"))) = true ∧
      (abs "y" (abs "z" (var "y"))).alphaEq (abs "x" (abs "x1" (var "x"))) = true ∧
      (abs "w" (abs "x" (abs "x1" (var "x")))).alphaEq (abs "w" (abs "y" (abs "z" (var "y")))) = true := by
  have h : (abs "x" (abs "x1" (var "x"))).alphaEq (abs "y" (abs "z" (var "y"))) = true :=
    (alphaEq_decides.1 _ _).2 (by decide)
  exact ⟨h, alphaEq_decides.2.1.symm h, alphaEq_decides.2.2.1 "w" _ _ h⟩

end LambdaCalculus.Term
