import LambdaCalculus.Proofs.Substitution
import LambdaCalculus.Session.Basic

/-!
# Resolution replaces the defined names all at once

On nameless forms the resolution of a term is the replacement of its free names by their definitions
(`Bindings.nameless_resolve`), for any names of binders and definitions.  The key fact is `namelessWith_resolveIn`:
resolution below some binders changes the assignment of the names that are defined and not bound further out.

The list of shadowed names needs no relation to the binders in scope.  A binder of the result may have any name that
is free in none of the definitions put in below it, and it is this condition that the renaming of a binder brings
about (`not_mem_insertedVars_rename`).
-/

namespace LambdaCalculus

namespace Term

variable {define : Name → Option Term} {shadowed : List Name}

/-! ### The names that are put in -/

theorem mem_insertedVars {y : Name} {t : Term} :
    y ∈ insertedVars define shadowed t ↔
      ∃ x ∈ t.freeVars, x ∉ shadowed ∧ ∃ d, define x = some d ∧ y ∈ d.freeVars := by
  simp only [insertedVars, List.mem_flatMap, List.mem_filter]
  constructor
  · rintro ⟨x, ⟨hx, hshadowed⟩, hy⟩
    cases hd : define x with
    | none => simp [hd] at hy
    | some d => exact ⟨x, hx, by simpa using hshadowed, d, hd ▸ rfl, by simpa [hd] using hy⟩
  · rintro ⟨x, hx, hshadowed, d, hd, hy⟩
    exact ⟨x, ⟨hx, by simpa using hshadowed⟩, by simpa [hd] using hy⟩

/-- After the renaming of a binder its new name is in no definition that is put in below it. -/
private theorem not_mem_insertedVars_rename {x z : Name} {body : Term}
    (hz : z ∉ insertedVars define (x :: shadowed) body) :
    z ∉ insertedVars define (z :: shadowed) (body.rename x z) := by
  rw [mem_insertedVars] at hz ⊢
  rintro ⟨y, hy, hshadowed, d, hd, hzd⟩
  rw [List.mem_cons, not_or] at hshadowed
  rw [rename, freeVars_subst, List.mem_flatMap] at hy
  obtain ⟨w, hw, hy⟩ := hy
  split at hy
  · exact hshadowed.1 (List.mem_singleton.1 hy)
  · rename_i hxw
    rw [List.mem_singleton] at hy
    subst hy
    refine hz ⟨y, hw, ?_, d, hd, hzd⟩
    rw [List.mem_cons, not_or]
    exact ⟨Ne.symm hxw, hshadowed.2⟩

/-! ### Resolution as a change of the assignment -/

/-- `ρ` with the forms of the definitions for the defined names outside `shadowed`. -/
def resolved (define : Name → Option Term) (shadowed : List Name) (ρ : Name → Nameless) (x : Name) : Nameless :=
  if x ∈ shadowed then ρ x else ((define x).map (namelessWith ρ)).getD (ρ x)

private theorem resolved_of_mem {x : Name} (h : x ∈ shadowed) (ρ : Name → Nameless) :
    resolved define shadowed ρ x = ρ x :=
  if_pos h

private theorem resolved_of_not_mem {x : Name} (h : x ∉ shadowed) (ρ : Name → Nameless) :
    resolved define shadowed ρ x = ((define x).map (namelessWith ρ)).getD (ρ x) :=
  if_neg h

/-- A binder with a name that is in no definition put in below it can be passed. -/
private theorem resolved_withParam {z : Name} {u : Term} (hz : z ∉ insertedVars define (z :: shadowed) u)
    (ρ : Name → Nameless) {y : Name} (hy : y ∈ u.freeVars) :
    resolved define (z :: shadowed) (withParam z ρ) y = withParam z (resolved define shadowed ρ) y := by
  by_cases hyz : y = z
  · rw [hyz, resolved_of_mem (List.mem_cons_self ..), withParam_self, withParam_self]
  rw [withParam_of_ne _ hyz]
  by_cases hshadowed : y ∈ shadowed
  · rw [resolved_of_mem (List.mem_cons_of_mem _ hshadowed), resolved_of_mem hshadowed, withParam_of_ne _ hyz]
  have hcons : y ∉ z :: shadowed := by simp [hyz, hshadowed]
  rw [resolved_of_not_mem hcons, resolved_of_not_mem hshadowed]
  cases hd : define y with
  | none => exact withParam_of_ne ρ hyz
  | some d =>
    have hzd : z ∉ d.freeVars := fun hzd => hz (mem_insertedVars.2 ⟨y, hy, hcons, d, hd, hzd⟩)
    exact namelessWith_withParam_of_not_mem hzd ρ

/-- Resolution changes the assignment of the defined names that are not shadowed. -/
private theorem namelessWith_resolveIn (t : Term) (shadowed : List Name) (ρ : Name → Nameless) :
    (t.resolveIn define shadowed).namelessWith ρ = t.namelessWith (resolved define shadowed ρ) := by
  induction t using inductionUpToSize generalizing shadowed ρ with
  | var x =>
    rw [resolveIn, namelessWith]
    by_cases hx : x ∈ shadowed
    · rw [if_pos (List.contains_iff_mem.2 hx), resolved_of_mem hx, namelessWith]
    · rw [if_neg (by simpa using hx), resolved_of_not_mem hx]
      cases define x <;> rfl
  | abs x body ih =>
    rw [resolveIn]
    -- with or without a renaming, the result has a binder `z` above a body `u` of the right size
    have hbinder : ∀ (z : Name) (u : Term), u.size = body.size → z ∉ insertedVars define (z :: shadowed) u →
        (abs z (u.resolveIn define (z :: shadowed))).namelessWith ρ =
          (abs z u).namelessWith (resolved define shadowed ρ) := by
      intro z u hu hz
      rw [namelessWith, namelessWith, ih u hu]
      exact congrArg Nameless.abs (namelessWith_congr fun y hy => resolved_withParam hz ρ hy)
    split
    · have hfresh := Name.fresh_not_mem x (insertedVars define (x :: shadowed) body ++ body.freeVars)
      rw [List.mem_append, not_or] at hfresh
      rw [hbinder _ _ (size_rename ..) (not_mem_insertedVars_rename hfresh.1)]
      exact namelessWith_abs_rename hfresh.2 _
    · rename_i hx
      exact hbinder x body rfl (by simpa using hx)
  | app fn arg ihf iha => rw [resolveIn, namelessWith, namelessWith, ihf, iha]

end Term

namespace Bindings

open Term (namelessWith_resolveIn)

/-- A defined name stands for its definition, which is not resolved again. -/
theorem resolve_var {bindings : Bindings} {x : Name} {t : Term} (h : bindings[x]? = some t) :
    bindings.resolve (.var x) = t := by
  simp [resolve, Term.resolveIn, h]

/-- Resolution on nameless forms. -/
theorem nameless_resolve (bindings : Bindings) (t : Term) :
    (bindings.resolve t).nameless = t.nameless.bind fun x => (bindings[x]?.map Term.nameless).getD (.free x) := by
  have hresolved : Term.resolved (bindings[·]?) [] .free =
      fun x => (bindings[x]?.map Term.nameless).getD (.free x) := by
    funext x
    rw [Term.resolved_of_not_mem List.not_mem_nil, funext Term.nameless_eq]
  have hlift : ∀ x, ((bindings[x]?.map Term.nameless).getD (.free x)).lift =
      (bindings[x]?.map Term.nameless).getD (.free x) := by
    intro x
    cases bindings[x]? with
    | none => rfl
    | some d => exact Term.lift_nameless d
  rw [resolve, Term.nameless_eq, namelessWith_resolveIn, hresolved, Nameless.bind_eq_inst _ hlift]
  exact Term.namelessWith_eq_inst t _

/-- The free occurrences after a resolution. -/
theorem freeVars_resolve (bindings : Bindings) (t : Term) :
    (bindings.resolve t).freeVars = t.freeVars.flatMap fun x => (bindings[x]?.map Term.freeVars).getD [x] := by
  rw [← Term.names_nameless, nameless_resolve, Nameless.names_bind, Term.names_nameless]
  congr 1
  funext x
  cases bindings[x]? with
  | none => rfl
  | some d => exact Term.names_nameless d

/-- Resolution puts the definitions for all free names of a term at once, as they are: the forms of the definitions
stand for the free occurrences of their names, and what is free in them, or has no definition, is free in the result. -/
theorem resolve_replaces_at_once (bindings : Bindings) (t : Term) :
    (bindings.resolve t).nameless =
        (t.nameless.bind fun x => (bindings[x]?.map Term.nameless).getD (.free x)) ∧
      (bindings.resolve t).freeVars = t.freeVars.flatMap fun x => (bindings[x]?.map Term.freeVars).getD [x] :=
  ⟨nameless_resolve bindings t, freeVars_resolve bindings t⟩

/-- The two definitions mention each other's names, and the free name of one of them is that of a binder. -/
example :
    Bindings.resolve (.ofList [("K", Term.abs "a" (.var "y")), ("y", Term.var "K")])
        (.app (.abs "y" (.app (.var "K") (.var "y"))) (.var "y")) =
      .app (.abs "y1" (.app (.abs "a" (.var "y")) (.var "y1"))) (.var "K") := by
  decide +kernel

end Bindings

end LambdaCalculus
