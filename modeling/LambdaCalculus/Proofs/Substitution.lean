import LambdaCalculus.Proofs.Alpha

/-!
# Substitution avoids capture

On nameless forms the substitution of terms is the plain replacement of a free name (`nameless_subst`), for any names
of binders.  So a substitution puts the free occurrences of the replacement, all of them still free, for each free
occurrence of the variable and leaves the other free occurrences where they are (`freeVars_subst`), and it respects
alpha-equivalence (`alphaEq_subst`).

Two substitutions can change places if the first is made in the replacement of the other too (`nameless_subst_subst`).
Their results need not be the same terms, because each order meets other names when it has to rename a binder, but two
updates of an assignment at different names commute.
-/

namespace LambdaCalculus.Term

/-- Substitution on nameless forms. -/
theorem nameless_subst (t : Term) (x : Name) (r : Term) :
    (t.subst x r).nameless = t.nameless.subst x r.nameless := by
  have hlift : ∀ y, (if x = y then r.nameless else Nameless.free y).lift =
      if x = y then r.nameless else Nameless.free y := by
    intro y
    split
    · exact lift_nameless r
    · rfl
  rw [nameless_eq, namelessWith_subst, Nameless.subst, Nameless.bind_eq_inst _ hlift, ← namelessWith_eq_inst,
    ← nameless_eq]
  refine namelessWith_congr fun y _ => ?_
  by_cases hxy : x = y
  · rw [hxy, Function.update_self, if_pos rfl]
  · rw [Function.update_of_ne (Ne.symm hxy), if_neg hxy]

/-- The free occurrences after a substitution. -/
theorem freeVars_subst (t : Term) (x : Name) (r : Term) :
    (t.subst x r).freeVars = t.freeVars.flatMap fun y => if x = y then r.freeVars else [y] := by
  rw [← names_nameless, nameless_eq, namelessWith_subst, names_namelessWith, ← nameless_eq]
  congr 1
  funext y
  by_cases hxy : x = y
  · rw [hxy, Function.update_self, if_pos rfl, names_nameless]
  · rw [Function.update_of_ne (Ne.symm hxy), if_neg hxy]
    rfl

/-- The free names after a substitution. -/
theorem mem_freeVars_subst_iff {t r : Term} {x y : Name} :
    y ∈ (t.subst x r).freeVars ↔ y ∈ t.freeVars ∧ y ≠ x ∨ x ∈ t.freeVars ∧ y ∈ r.freeVars := by
  rw [freeVars_subst, List.mem_flatMap]
  constructor
  · rintro ⟨z, hz, hy⟩
    split at hy
    · rename_i hxz
      exact .inr ⟨hxz ▸ hz, hy⟩
    · rename_i hxz
      rw [List.mem_singleton] at hy
      exact .inl ⟨hy ▸ hz, hy ▸ Ne.symm hxz⟩
  · rintro (⟨hy, hyx⟩ | ⟨hx, hy⟩)
    · exact ⟨y, hy, by simp [Ne.symm hyx]⟩
    · exact ⟨x, hx, by simpa using hy⟩

theorem alphaEq_subst {t t' r r' : Term} (x : Name) (ht : t.alphaEq t' = true) (hr : r.alphaEq r' = true) :
    (t.subst x r).alphaEq (t'.subst x r') = true := by
  rw [alphaEq_iff] at ht hr ⊢
  rw [nameless_subst, nameless_subst, ht, hr]

/-- Substitution is the replacement of a name in nameless forms: no free occurrence is captured or lost, and
alpha-equivalent terms have alpha-equivalent results. -/
theorem subst_avoids_capture (t : Term) (x : Name) (r : Term) :
    (t.subst x r).nameless = t.nameless.subst x r.nameless ∧
      (t.subst x r).freeVars = (t.freeVars.flatMap fun y => if x = y then r.freeVars else [y]) ∧
      ∀ t' r' : Term, t.alphaEq t' = true → r.alphaEq r' = true →
        (t.subst x r).alphaEq (t'.subst x r') = true :=
  ⟨nameless_subst t x r, freeVars_subst t x r, fun _ _ => alphaEq_subst x⟩

/-- The outer binder has to be renamed, and the name it would get first is the one of the inner binder. -/
theorem subst_avoids_capture_nested :
    ((abs "y" (abs "y1" (app (app (var "x") (var "y")) (var "y1")))).subst "x" (var "y")).nameless =
        .abs (.abs (.app (.app (.free "y") (.bound 1)) (.bound 0))) ∧
      ((abs "y" (abs "y1" (app (app (var "x") (var "y")) (var "y1")))).subst "x" (var "y")).alphaEq
        ((abs "a" (abs "b" (app (app (var "x") (var "a")) (var "b")))).subst "x" (var "y")) = true :=
  have h := subst_avoids_capture (abs "y" (abs "y1" (app (app (var "x") (var "y")) (var "y1")))) "x" (var "y")
  ⟨h.1, h.2.2 _ _ (alphaEq_iff.2 (by decide)) (alphaEq_iff.2 rfl)⟩

/-! ### Substitutions in a row -/

/-- A name that is not free can be assigned anything. -/
private theorem namelessWith_update_of_not_mem {x : Name} {t : Term} (hx : x ∉ t.freeVars) (ρ : Name → Nameless)
    (v : Nameless) : t.namelessWith (Function.update ρ x v) = t.namelessWith ρ := by
  refine namelessWith_congr fun y hy => Function.update_of_ne ?_ ..
  rintro rfl
  exact hx hy

/-- A substitution for a name that is not free renames binders at most. -/
private theorem nameless_subst_of_not_mem {x : Name} {t : Term} (hx : x ∉ t.freeVars) (r : Term) :
    (t.subst x r).nameless = t.nameless := by
  rw [nameless_eq, namelessWith_subst, namelessWith_update_of_not_mem hx, nameless_eq]

/-- A substitution can be made first if it is made in the replacement of the other too. -/
theorem nameless_subst_subst {x y : Name} (hxy : x ≠ y) (t r : Term) {s : Term} (hx : x ∉ s.freeVars) :
    ((t.subst x r).subst y s).nameless = ((t.subst y s).subst x (r.subst y s)).nameless := by
  let ρ := Function.update Nameless.free y s.nameless
  let v := r.namelessWith ρ
  have hr : (r.subst y s).namelessWith .free = v := by rw [namelessWith_subst, ← nameless_eq]
  have hs : s.namelessWith (Function.update .free x v) = s.nameless := by
    rw [namelessWith_update_of_not_mem hx, nameless_eq]
  calc ((t.subst x r).subst y s).nameless
      = t.namelessWith (Function.update ρ x v) := by
        rw [nameless_eq, namelessWith_subst, namelessWith_subst, ← nameless_eq]
    _ = t.namelessWith (Function.update (Function.update .free x v) y s.nameless) := by
        rw [Function.update_comm hxy]
    _ = ((t.subst y s).subst x (r.subst y s)).nameless := by
        rw [nameless_eq (Term.subst ..), namelessWith_subst, namelessWith_subst, hr, hs]

/-- Substitutions for different names, of which the second puts in no occurrence of the first name, can be made in the
other order, if the second is made in the replacement of the first too; where that has no occurrence of the second
name, they commute. -/
theorem substitutions_change_places {x y : Name} (hxy : x ≠ y) (t r : Term) {s : Term} (hx : x ∉ s.freeVars) :
    ((t.subst x r).subst y s).alphaEq ((t.subst y s).subst x (r.subst y s)) = true ∧
      (y ∉ r.freeVars → ((t.subst x r).subst y s).alphaEq ((t.subst y s).subst x r) = true) := by
  simp only [alphaEq_iff]
  have hsubst := nameless_subst_subst hxy t r hx
  refine ⟨hsubst, fun hy => ?_⟩
  rw [hsubst, nameless_subst, nameless_subst (t.subst y s), nameless_subst_of_not_mem hy]

/-- The binder of `z` is in the way of the first replacement, and its new name `z1` in the way of the second. -/
theorem substitutions_change_places_renamed_twice :
    let t := abs "z" (app (app (var "x") (var "y")) (var "z"))
    let r := app (var "z") (var "y")
    let s := var "z1"
    (t.subst "x" r).subst "y" s = abs "z11" (app (app (app (var "z") s) s) (var "z11")) ∧
      (t.subst "y" s).subst "x" (r.subst "y" s) = abs "z2" (app (app (app (var "z") s) s) (var "z2")) ∧
      ((t.subst "x" r).subst "y" s).alphaEq ((t.subst "y" s).subst "x" (r.subst "y" s)) = true ∧
      ((t.subst "x" (var "z")).subst "y" s).alphaEq ((t.subst "y" s).subst "x" (var "z")) = true := by
  intro t r s
  have hxy : "x" ≠ "y" := by decide
  have hx : "x" ∉ s.freeVars := by decide
  refine ⟨?_, ?_, (substitutions_change_places hxy t r hx).1, (substitutions_change_places hxy t _ hx).2 (by decide)⟩
  · decide +kernel
  · decide +kernel

end LambdaCalculus.Term
