import LambdaCalculus.Term.Basic

/-!
# The written form of a term

`render` writes a term with as few parentheses as possible: the body of an abstraction reaches as far to the right
as it can and application associates to the left, so only an abstraction in function position and a compound
argument are put in parentheses.  The text is built from left to right by `renderOnto`; `render_var`, `render_abs`
and `render_app` are the equations of the result.
-/

namespace LambdaCalculus.Term

/-- Appends the written form of a term to `out`. -/
def renderOnto (out : String) : Term → String
  | var x => out ++ x
  | abs x body => renderOnto (out ++ "λ" ++ x ++ ".") body
  | app fn arg =>
    let out := if fn.isAbs then renderOnto (out ++ "(") fn ++ ")" else renderOnto out fn
    if arg.isVar then renderOnto (out ++ " ") arg else renderOnto (out ++ " " ++ "(") arg ++ ")"

/-- The written form of a term. -/
def render (t : Term) : String :=
  renderOnto "" t

private theorem exists_renderOnto_eq (t : Term) : ∃ text, ∀ out, renderOnto out t = out ++ text := by
  induction t with
  | var x => exact ⟨x, fun _ => rfl⟩
  | abs x body ih =>
    obtain ⟨text, h⟩ := ih
    exact ⟨"λ" ++ x ++ "." ++ text, fun out => by simp [renderOnto, h, String.append_assoc]⟩
  | app fn arg ihf iha =>
    obtain ⟨f, hf⟩ := ihf
    obtain ⟨a, ha⟩ := iha
    refine ⟨renderOnto "" (app fn arg), fun out => ?_⟩
    simp only [renderOnto, hf, ha]
    split <;> split <;> simp [String.append_assoc]

private theorem renderOnto_eq (out : String) (t : Term) : renderOnto out t = out ++ t.render := by
  obtain ⟨text, h⟩ := exists_renderOnto_eq t
  simp [render, h]

@[simp] theorem render_var (x : Name) : (var x).render = x := by
  simp [render, renderOnto]

@[simp] theorem render_abs (x : Name) (body : Term) : (abs x body).render = "λ" ++ x ++ "." ++ body.render := by
  rw [render, renderOnto, renderOnto_eq]
  simp

theorem render_app (fn arg : Term) :
    (app fn arg).render =
      (if fn.isAbs then "(" ++ fn.render ++ ")" else fn.render) ++ " " ++
        (if arg.isVar then arg.render else "(" ++ arg.render ++ ")") := by
  rw [render, renderOnto]
  split <;> split <;> simp only [renderOnto_eq, String.append_assoc, String.empty_append]

instance : ToString Term := ⟨render⟩

end LambdaCalculus.Term
