import LambdaCalculus.Proofs.Nameless.Reduction

/-!
# Normal order on nameless terms

`normalStep?` contracts the leftmost of the outermost redexes.  Repeating it reaches the normal form of every term
that has one (`normalReduces_of_reduces`).

The proof brings a reduction into a standard order.  A head step contracts the redex in the position of the function
of the whole term; `Standard t u` says that `u` comes from `t` by head steps until its outermost node appears, and
then, in each of the children, by a standard reduction again.  A standard reduction followed by a contraction, wherever
it happens, is a standard reduction (`Standard.step`), because a redex contracted later can be contracted earlier,
among the head steps; so all reductions are (`Standard.of_reduces`).  A standard reduction to a normal form is one in
normal order (`Standard.normalReduces`).
-/

namespace LambdaCalculus.Nameless

open Relation (ReflTransGen)

/-! ### Head steps -/

/-- The contraction of the redex in function position. -/
inductive HeadStep : Nameless → Nameless → Prop where
  | contract (body arg : Nameless) : HeadStep (app (abs body) arg) (body.contract arg)
  | fn {fn fn' : Nameless} (h : HeadStep fn fn') (arg : Nameless) : HeadStep (app fn arg) (app fn' arg)

abbrev HeadReduces : Nameless → Nameless → Prop :=
  ReflTransGen HeadStep

private theorem HeadStep.step {t u : Nameless} (h : HeadStep t u) : Step t u := by
  induction h with
  | contract body arg => exact .contract body arg
  | fn _ arg ih => exact .fn ih arg

theorem HeadReduces.reduces {t u : Nameless} (h : HeadReduces t u) : Reduces t u :=
  ReflTransGen.mono (fun _ _ => HeadStep.step) _ _ h

private theorem HeadStep.inst {t u : Nameless} (h : HeadStep t u) (τ : Nat → Nameless) (σ : Name → Nameless) :
    HeadStep (t.inst τ σ) (u.inst τ σ) := by
  induction h with
  | contract body arg =>
    rw [inst_contract]
    exact .contract _ _
  | fn _ arg ih => exact .fn ih _

private theorem HeadReduces.inst {t u : Nameless} (h : HeadReduces t u) (τ : Nat → Nameless) (σ : Name → Nameless) :
    HeadReduces (t.inst τ σ) (u.inst τ σ) :=
  ReflTransGen.lift (Nameless.inst τ σ) (fun _ _ hs => HeadStep.inst hs τ σ) _ _ h

theorem HeadReduces.fn {fn fn' : Nameless} (h : HeadReduces fn fn') (arg : Nameless) :
    HeadReduces (app fn arg) (app fn' arg) :=
  ReflTransGen.lift (app · arg) (fun _ _ hs => HeadStep.fn hs arg) _ _ h

/-! ### Standard reductions -/

/-- Head steps up to the outermost node of the result, then standard reductions of its children. -/
inductive Standard : Nameless → Nameless → Prop where
  | bound {t : Nameless} {i : Nat} (h : HeadReduces t (bound i)) : Standard t (bound i)
  | free {t : Nameless} {x : Name} (h : HeadReduces t (free x)) : Standard t (free x)
  | abs {t body body' : Nameless} (h : HeadReduces t (abs body)) (hb : Standard body body') : Standard t (abs body')
  | app {t fn fn' arg arg' : Nameless} (h : HeadReduces t (app fn arg)) (hf : Standard fn fn')
      (ha : Standard arg arg') : Standard t (app fn' arg')

private theorem Standard.refl (t : Nameless) : Standard t t := by
  induction t with
  | bound i => exact .bound .refl
  | free x => exact .free .refl
  | abs body ih => exact .abs .refl ih
  | app fn arg ihf iha => exact .app .refl ihf iha

private theorem Standard.of_headReduces {t u v : Nameless} (h : HeadReduces t u) (hs : Standard u v) :
    Standard t v := by
  cases hs with
  | bound h' => exact .bound (h.trans h')
  | free h' => exact .free (h.trans h')
  | abs h' hb => exact .abs (h.trans h') hb
  | app h' hf ha => exact .app (h.trans h') hf ha

private theorem Standard.reindex {t u : Nameless} (h : Standard t u) (f : Nat → Nat) :
    Standard (t.reindex f) (u.reindex f) := by
  have hhead : ∀ {t u : Nameless} (f : Nat → Nat), HeadReduces t u → HeadReduces (t.reindex f) (u.reindex f) := by
    intro t u f h
    simpa only [reindex_eq_inst] using h.inst _ _
  induction h generalizing f with
  | bound h => exact .bound (hhead f h)
  | free h => exact .free (hhead f h)
  | abs h _ ih => exact .abs (hhead f h) (ih _)
  | app h _ _ ihf iha => exact .app (hhead f h) (ihf f) (iha f)

private theorem Standard.extend {τ τ' : Nat → Nameless} (h : ∀ i, Standard (τ i) (τ' i)) (i : Nat) :
    Standard (extend τ i) (extend τ' i) := by
  cases i with
  | zero => exact .bound .refl
  | succ i => exact (h i).reindex _

private theorem Standard.inst {t u : Nameless} (h : Standard t u) {τ τ' : Nat → Nameless} {σ σ' : Name → Nameless}
    (hτ : ∀ i, Standard (τ i) (τ' i)) (hσ : ∀ x, Standard (σ x) (σ' x)) :
    Standard (t.inst τ σ) (u.inst τ' σ') := by
  induction h generalizing τ τ' σ σ' with
  | bound h => exact .of_headReduces (h.inst τ σ) (hτ _)
  | free h => exact .of_headReduces (h.inst τ σ) (hσ _)
  | abs h _ ih => exact .abs (h.inst τ σ) (ih (.extend hτ) fun x => (hσ x).reindex _)
  | app h _ _ ihf iha => exact .app (h.inst τ σ) (ihf hτ hσ) (iha hτ hσ)

private theorem Standard.contract_congr {body body' arg arg' : Nameless} (hb : Standard body body')
    (ha : Standard arg arg') : Standard (body.contract arg) (body'.contract arg') := by
  refine hb.inst (fun i => ?_) fun x => .free .refl
  cases i with
  | zero => exact ha
  | succ i => exact .bound .refl

/-- A contraction after a standard reduction can be brought into its place. -/
private theorem Standard.step {t u v : Nameless} (h : Standard t u) (hs : Step u v) : Standard t v := by
  induction hs generalizing t with
  | contract body' arg' =>
    cases h with
    | app h hf ha =>
      cases hf with
      | abs hfn hb =>
        -- the redex appears at the head before any child is reduced, and is contracted there
        have hredex := h.trans (HeadReduces.fn hfn _)
        exact .of_headReduces (hredex.tail (.contract _ _)) (hb.contract_congr ha)
  | body _ ih =>
    cases h with
    | abs h hb => exact .abs h (ih hb)
  | fn _ arg ih =>
    cases h with
    | app h hf ha => exact .app h (ih hf) ha
  | arg fn _ ih =>
    cases h with
    | app h hf ha => exact .app h hf (ih ha)

private theorem Standard.of_reduces {t u : Nameless} (h : Reduces t u) : Standard t u := by
  induction h with
  | refl => exact .refl t
  | tail _ hs ih => exact ih.step hs

/-! ### Normal order -/

/-- Contracts the leftmost of the outermost redexes. -/
def normalStep? : Nameless → Option Nameless
  | bound _ => none
  | free _ => none
  | abs body => body.normalStep?.map abs
  | app (abs body) arg => some (body.contract arg)
  | app fn arg =>
    match fn.normalStep? with
    | some fn => some (app fn arg)
    | none => arg.normalStep?.map (app fn)

theorem normalStep?_app_of_not_isAbs {fn : Nameless} (h : fn.isAbs = false) (arg : Nameless) :
    (app fn arg).normalStep? =
      match fn.normalStep? with
      | some fn => some (app fn arg)
      | none => arg.normalStep?.map (app fn) := by
  cases fn with
  | abs body => simp [isAbs] at h
  | _ => rfl

private theorem normalStep?_eq_none_of_isNormal {t : Nameless} (h : t.isNormal = true) : t.normalStep? = none := by
  induction t with
  | bound i => rfl
  | free x => rfl
  | abs body ih => rw [normalStep?, ih h, Option.map_none]
  | app fn arg ihf iha =>
    simp only [isNormal, Bool.and_eq_true, Bool.not_eq_true'] at h
    rw [normalStep?_app_of_not_isAbs h.1.1, ihf h.1.2, iha h.2]
    rfl

/-- Steps in normal order. -/
abbrev NormalReduces : Nameless → Nameless → Prop :=
  ReflTransGen fun t u => t.normalStep? = some u

private theorem HeadStep.normalStep? {t u : Nameless} (h : HeadStep t u) : t.normalStep? = some u := by
  induction h with
  | contract body arg => rfl
  | @fn fn fn' h arg ih =>
    have hfn : fn.isAbs = false := by cases h <;> rfl
    rw [normalStep?_app_of_not_isAbs hfn, ih]

theorem HeadReduces.normalReduces {t u : Nameless} (h : HeadReduces t u) : NormalReduces t u :=
  ReflTransGen.mono (fun _ _ => HeadStep.normalStep?) _ _ h

private theorem NormalReduces.abs {body body' : Nameless} (h : NormalReduces body body') :
    NormalReduces (abs body) (abs body') := by
  refine ReflTransGen.lift Nameless.abs (fun t u hs => ?_) _ _ h
  change (Nameless.abs t).normalStep? = some (Nameless.abs u)
  rw [Nameless.normalStep?, hs, Option.map_some]

private theorem NormalReduces.isAbs {t u : Nameless} (h : NormalReduces t u) (ht : t.isAbs = true) :
    u.isAbs = true := by
  induction h with
  | refl => exact ht
  | @tail v u _ hs ih =>
    cases v with
    | abs body =>
      obtain ⟨body', -, rfl⟩ := Option.map_eq_some_iff.1 hs
      rfl
    | _ => simp [Nameless.isAbs] at ih

/-- While the function becomes something else than an abstraction, it is none, and its steps are those of the whole. -/
private theorem NormalReduces.fn {fn fn' : Nameless} (h : NormalReduces fn fn') (hfn' : fn'.isAbs = false)
    (arg : Nameless) : NormalReduces (app fn arg) (app fn' arg) := by
  induction h using ReflTransGen.head_induction_on with
  | refl => exact .refl
  | @head t u hs h ih =>
    refine .head ?_ ih
    have ht : t.isAbs = false := by
      rw [← Bool.not_eq_true]
      intro ht
      have := NormalReduces.isAbs (.head hs h) ht
      rw [hfn'] at this
      exact absurd this (by decide)
    rw [normalStep?_app_of_not_isAbs ht, hs]

private theorem NormalReduces.arg {fn arg arg' : Nameless} (h : NormalReduces arg arg') (hfn : fn.isAbs = false)
    (hnormal : fn.isNormal = true) : NormalReduces (app fn arg) (app fn arg') := by
  refine ReflTransGen.lift (app fn) (fun t u hs => ?_) _ _ h
  change (app fn t).normalStep? = some (app fn u)
  rw [normalStep?_app_of_not_isAbs hfn, normalStep?_eq_none_of_isNormal hnormal, hs, Option.map_some]

/-- A standard reduction to a normal form keeps to normal order. -/
private theorem Standard.normalReduces {t u : Nameless} (h : Standard t u) (hu : u.isNormal = true) :
    NormalReduces t u := by
  induction h with
  | bound h => exact h.normalReduces
  | free h => exact h.normalReduces
  | abs h _ ih => exact h.normalReduces.trans (ih hu).abs
  | app h _ _ ihf iha =>
    simp only [isNormal, Bool.and_eq_true, Bool.not_eq_true'] at hu
    obtain ⟨⟨hfn, hf⟩, ha⟩ := hu
    calc NormalReduces _ _ := h.normalReduces
      NormalReduces _ _ := (ihf hf).fn hfn _
      NormalReduces _ _ := (iha ha).arg hfn hf

/-- Normal order reaches every normal form that any reduction reaches. -/
theorem normalReduces_of_reduces {t u : Nameless} (h : Reduces t u) (hu : u.isNormal = true) : NormalReduces t u :=
  (Standard.of_reduces h).normalReduces hu

end LambdaCalculus.Nameless
