import LambdaCalculus.Church.Encodings
import LambdaCalculus.Proofs.Church.Encodings
import LambdaCalculus.Proofs.Fresh
import LambdaCalculus.Proofs.Reduction.Evaluation
import LambdaCalculus.Proofs.Source.RoundTrip

/-!
# Names stay identifiers

A term whose names are all identifiers keeps this under everything that is done with it: the new names that
substitution and resolution choose for binders are old ones with a numeral behind them, and no other names come in.
So what such a term reduces to is of that kind (`Reduces.wellNamed`), and so is what comes of it when the names defined
as such terms are resolved in it (`Bindings.WellNamed.resolve`).
-/

namespace LambdaCalculus

open Source (isIdentifier)

/-! ### Terms -/

namespace Term

private theorem WellNamed.subst {t r : Term} (ht : t.WellNamed) (hr : r.WellNamed) (x : Name) :
    (t.subst x r).WellNamed := by
  induction t using inductionUpToSize generalizing x r with
  | var y =>
    rw [subst_var]
    split
    · exact hr
    · exact ht
  | abs y body ih =>
    obtain ⟨hy, hbody⟩ := wellNamed_abs.1 ht
    by_cases hxy : x = y
    · rwa [hxy, subst_abs_self]
    cases hfree : r.hasFree y with
    | true =>
      rw [subst_abs_of_hasFree body hxy hfree]
      have hz : isIdentifier (clearParam x r y body) = true := Name.isIdentifier_fresh hy _
      have hrenamed : (body.rename y (clearParam x r y body)).WellNamed := ih body rfl hbody (wellNamed_var.2 hz) y
      exact wellNamed_abs.2 ⟨hz, ih _ (size_rename ..) hrenamed hr x⟩
    | false =>
      rw [subst_abs_of_not_hasFree body hxy hfree]
      exact wellNamed_abs.2 ⟨hy, ih body rfl hbody hr x⟩
  | app fn arg ihf iha =>
    rw [wellNamed_app] at ht
    rw [subst_app, wellNamed_app]
    exact ⟨ihf ht.1 hr x, iha ht.2 hr x⟩

private theorem WellNamed.rename {t : Term} {y : Name} (ht : t.WellNamed) (hy : isIdentifier y = true) (x : Name) :
    (t.rename x y).WellNamed :=
  ht.subst (wellNamed_var.2 hy) x

private theorem WellNamed.resolveIn {define : Name → Option Term} {t : Term} (ht : t.WellNamed)
    (hdefine : ∀ x u, define x = some u → u.WellNamed) (shadowed : List Name) :
    (t.resolveIn define shadowed).WellNamed := by
  induction t using inductionUpToSize generalizing shadowed with
  | var x =>
    rw [Term.resolveIn]
    split
    · exact ht
    · cases h : define x with
      | none => exact ht
      | some u => exact hdefine x u h
  | abs x body ih =>
    obtain ⟨hx, hbody⟩ := wellNamed_abs.1 ht
    rw [Term.resolveIn]
    split
    · have hy : isIdentifier (x.fresh (insertedVars define (x :: shadowed) body ++ body.freeVars)) = true :=
        Name.isIdentifier_fresh hx _
      exact wellNamed_abs.2 ⟨hy, ih _ (size_rename ..) (hbody.rename hy x) _⟩
    · exact wellNamed_abs.2 ⟨hx, ih body rfl hbody _⟩
  | app fn arg ihf iha =>
    rw [wellNamed_app] at ht
    rw [Term.resolveIn, wellNamed_app]
    exact ⟨ihf ht.1 shadowed, iha ht.2 shadowed⟩

theorem Contracts.wellNamed {t u : Term} (h : Contracts t u) (ht : t.WellNamed) : u.WellNamed := by
  induction h using Contracts.induction with
  | redex x body arg =>
    rw [wellNamed_app, wellNamed_abs] at ht
    exact ht.1.2.subst ht.2 x
  | body x _ ih =>
    rw [wellNamed_abs] at ht ⊢
    exact ⟨ht.1, ih ht.2⟩
  | fn arg _ ih =>
    rw [wellNamed_app] at ht ⊢
    exact ⟨ih ht.1, ht.2⟩
  | arg fn _ ih =>
    rw [wellNamed_app] at ht ⊢
    exact ⟨ht.1, ih ht.2⟩

/-- What a term reduces to has identifiers for names if the term has. -/
theorem Reduces.wellNamed {t u : Term} (h : Reduces t u) (ht : t.WellNamed) : u.WellNamed := by
  induction h with
  | refl => exact ht
  | tail _ h ih => exact h.wellNamed ih

instance (t : Term) : Decidable t.WellNamed :=
  inferInstanceAs (Decidable (∀ x ∈ t.names, isIdentifier x = true))

end Term

/-! ### Definitions -/

namespace Bindings

/-- Whether the defined names and all names in their definitions are identifiers. -/
def WellNamed (bindings : Bindings) : Prop :=
  ∀ (name : Name) (t : Term), bindings[name]? = some t → isIdentifier name = true ∧ t.WellNamed

variable {bindings : Bindings}

theorem WellNamed.insert {name : Name} {t : Term} (h : bindings.WellNamed) (hname : isIdentifier name = true)
    (ht : t.WellNamed) : WellNamed (bindings.insert name t) := by
  intro x u hu
  rw [Std.TreeMap.getElem?_insert] at hu
  split at hu
  · rename_i hx
    cases hu
    rw [Std.compare_eq_iff_eq] at hx
    exact ⟨hx ▸ hname, ht⟩
  · exact h x u hu

theorem WellNamed.resolve {t : Term} (h : bindings.WellNamed) (ht : t.WellNamed) : (bindings.resolve t).WellNamed :=
  ht.resolveIn (fun x u hu => (h x u hu).2) []

end Bindings

namespace Church

theorem wellNamed_bindings : bindings.WellNamed := by
  have hlist : ∀ p ∈ bindings.toList, isIdentifier p.1 = true ∧ p.2.WellNamed := by decide +kernel
  intro name t h
  exact hlist (name, t) (Std.TreeMap.mem_toList_iff_getElem?_eq_some.2 h)

theorem wellNamed_numeral (n : Nat) : (numeral n).WellNamed := by
  have hzero : zero.WellNamed := by decide +kernel
  have hsucc : succ.WellNamed := by decide +kernel
  induction n with
  | zero => exact hzero
  | succ n ih => exact Term.wellNamed_app.2 ⟨hsucc, ih⟩

end Church

end LambdaCalculus
