import LambdaCalculus.Proofs.Nameless.Instantiation
import LambdaCalculus.Term.Path
import Mathlib.Logic.Relation

/-!
# Reduction of nameless terms

`Step` contracts one redex anywhere in a term.  A term has at most one normal form (`Reduces.normal_unique`): `Parallel`
contracts any choice of the redexes of a term at once, so that one step of it covers a `Step`, and all parallel steps
from a term meet in the term with all its redexes contracted (`Parallel.develop`).

A path leads to the same place of a nameless term as of a term with names, so redexes are addressed by paths here too
(`contractAt?`, `innermostRedex?`).
-/

namespace LambdaCalculus.Nameless

open Relation (ReflTransGen)

def isAbs : Nameless → Bool
  | abs _ => true
  | _ => false

/-- Whether no subterm is a redex. -/
def isNormal : Nameless → Bool
  | bound _ => true
  | free _ => true
  | abs body => body.isNormal
  | app fn arg => !fn.isAbs && fn.isNormal && arg.isNormal

/-- Whether the term is normal and makes no redex with an argument either. -/
def isNeutral (t : Nameless) : Bool :=
  !t.isAbs && t.isNormal

theorem isNormal_of_isNeutral {t : Nameless} (h : t.isNeutral = true) : t.isNormal = true := by
  rw [isNeutral, Bool.and_eq_true] at h
  exact h.2

@[simp] theorem isAbs_reindex (t : Nameless) (f : Nat → Nat) : (t.reindex f).isAbs = t.isAbs := by
  cases t <;> rfl

@[simp] theorem isNormal_reindex (t : Nameless) (f : Nat → Nat) : (t.reindex f).isNormal = t.isNormal := by
  induction t generalizing f with
  | bound i => rfl
  | free x => rfl
  | abs body ih => exact ih _
  | app fn arg ihf iha => rw [reindex, isNormal, isNormal, isAbs_reindex, ihf, iha]

@[simp] theorem isNeutral_lift (t : Nameless) : t.lift.isNeutral = t.isNeutral := by
  rw [lift, isNeutral, isNeutral, isAbs_reindex, isNormal_reindex]

/-- The contraction of one redex. -/
inductive Step : Nameless → Nameless → Prop where
  | contract (body arg : Nameless) : Step (app (abs body) arg) (body.contract arg)
  | body {body body' : Nameless} (h : Step body body') : Step (abs body) (abs body')
  | fn {fn fn' : Nameless} (h : Step fn fn') (arg : Nameless) : Step (app fn arg) (app fn' arg)
  | arg (fn : Nameless) {arg arg' : Nameless} (h : Step arg arg') : Step (app fn arg) (app fn arg')

/-- Any number of contractions, one after the other. -/
abbrev Reduces : Nameless → Nameless → Prop :=
  ReflTransGen Step

theorem Reduces.abs {body body' : Nameless} (h : Reduces body body') : Reduces (abs body) (abs body') :=
  ReflTransGen.lift Nameless.abs (fun _ _ => Step.body) _ _ h

theorem Reduces.app {fn fn' arg arg' : Nameless} (hf : Reduces fn fn') (ha : Reduces arg arg') :
    Reduces (app fn arg) (app fn' arg') :=
  calc Reduces _ _ := ReflTransGen.lift (Nameless.app · arg) (fun _ _ hs => Step.fn hs arg) _ _ hf
    Reduces _ _ := ReflTransGen.lift (Nameless.app fn') (fun _ _ hs => Step.arg fn' hs) _ _ ha

private theorem Step.reindex {t u : Nameless} (h : Step t u) (f : Nat → Nat) : Step (t.reindex f) (u.reindex f) := by
  induction h generalizing f with
  | contract body arg =>
    rw [reindex_contract]
    exact .contract _ _
  | body _ ih => exact .body (ih _)
  | fn _ arg ih => exact .fn (ih f) _
  | arg fn _ ih => exact .arg _ (ih f)

theorem Reduces.lift {t u : Nameless} (h : Reduces t u) : Reduces t.lift u.lift :=
  ReflTransGen.lift Nameless.lift (fun _ _ hs => Step.reindex hs _) _ _ h

/-! ### Redexes and their paths -/

/-- Contracts the redex at the end of a path. -/
def contractAt? (t : Nameless) (path : Path) : Option Nameless :=
  match path, t with
  | [], app (abs body) arg => some (body.contract arg)
  | .left :: path, app fn arg => (fn.contractAt? path).map (app · arg)
  | .right :: path, app fn arg => (arg.contractAt? path).map (app fn)
  | .body :: path, abs body => (body.contractAt? path).map abs
  | _, _ => none

/-- The path to the rightmost of the innermost redexes. -/
def innermostRedex? : Nameless → Option Path
  | bound _ => none
  | free _ => none
  | abs body => body.innermostRedex?.map (.body :: ·)
  | app fn arg =>
    match arg.innermostRedex? with
    | some path => some (.right :: path)
    | none =>
      match fn.innermostRedex? with
      | some path => some (.left :: path)
      | none => if fn.isAbs then some [] else none

/-- Contracts the rightmost of the innermost redexes. -/
def applicativeStep? (t : Nameless) : Option Nameless := do
  t.contractAt? (← t.innermostRedex?)

theorem step_of_contractAt? {t u : Nameless} {path : Path} (h : t.contractAt? path = some u) : Step t u := by
  fun_induction contractAt? t path generalizing u with
  | case1 body arg =>
    cases h
    exact .contract body arg
  | case2 path fn arg ih =>
    obtain ⟨fn', hfn, rfl⟩ := Option.map_eq_some_iff.1 h
    exact .fn (ih hfn) arg
  | case3 path fn arg ih =>
    obtain ⟨arg', harg, rfl⟩ := Option.map_eq_some_iff.1 h
    exact .arg fn (ih harg)
  | case4 path body ih =>
    obtain ⟨body', hbody, rfl⟩ := Option.map_eq_some_iff.1 h
    exact .body (ih hbody)
  | case5 => cases h

/-! ### Contraction of many redexes at once -/

/-- The contraction of some of the redexes of a term, all at once. -/
inductive Parallel : Nameless → Nameless → Prop where
  | bound (i : Nat) : Parallel (bound i) (bound i)
  | free (x : Name) : Parallel (free x) (free x)
  | abs {body body' : Nameless} (h : Parallel body body') : Parallel (abs body) (abs body')
  | app {fn fn' arg arg' : Nameless} (hf : Parallel fn fn') (ha : Parallel arg arg') :
      Parallel (app fn arg) (app fn' arg')
  | contract {body body' arg arg' : Nameless} (hb : Parallel body body') (ha : Parallel arg arg') :
      Parallel (app (abs body) arg) (body'.contract arg')

private theorem Parallel.refl (t : Nameless) : Parallel t t := by
  induction t with
  | bound i => exact .bound i
  | free x => exact .free x
  | abs body ih => exact .abs ih
  | app fn arg ihf iha => exact .app ihf iha

private theorem Step.parallel {t u : Nameless} (h : Step t u) : Parallel t u := by
  induction h with
  | contract body arg => exact .contract (.refl body) (.refl arg)
  | body _ ih => exact .abs ih
  | fn _ arg ih => exact .app ih (.refl arg)
  | arg fn _ ih => exact .app (.refl fn) ih

private theorem Parallel.reindex {t u : Nameless} (h : Parallel t u) (f : Nat → Nat) :
    Parallel (t.reindex f) (u.reindex f) := by
  induction h generalizing f with
  | bound i => exact .bound (f i)
  | free x => exact .free x
  | abs _ ih => exact .abs (ih _)
  | app _ _ ihf iha => exact .app (ihf f) (iha f)
  | contract _ _ ihb iha =>
    rw [reindex_contract]
    exact .contract (ihb _) (iha f)

private theorem Parallel.extend {τ τ' : Nat → Nameless} (h : ∀ i, Parallel (τ i) (τ' i)) (i : Nat) :
    Parallel (extend τ i) (extend τ' i) := by
  cases i with
  | zero => exact .bound 0
  | succ i => exact (h i).reindex _

private theorem Parallel.inst {t u : Nameless} (h : Parallel t u) {τ τ' : Nat → Nameless} {σ σ' : Name → Nameless}
    (hτ : ∀ i, Parallel (τ i) (τ' i)) (hσ : ∀ x, Parallel (σ x) (σ' x)) :
    Parallel (t.inst τ σ) (u.inst τ' σ') := by
  induction h generalizing τ τ' σ σ' with
  | bound i => exact hτ i
  | free x => exact hσ x
  | abs _ ih => exact .abs (ih (.extend hτ) fun x => (hσ x).reindex _)
  | app _ _ ihf iha => exact .app (ihf hτ hσ) (iha hτ hσ)
  | contract _ _ ihb iha =>
    rw [inst_contract]
    exact .contract (ihb (.extend hτ) fun x => (hσ x).reindex _) (iha hτ hσ)

private theorem Parallel.contract_congr {body body' arg arg' : Nameless} (hb : Parallel body body')
    (ha : Parallel arg arg') : Parallel (body.contract arg) (body'.contract arg') := by
  refine hb.inst (fun i => ?_) .free
  cases i with
  | zero => exact ha
  | succ i => exact .bound i

/-- The term with all its redexes contracted, but not those that come up on the way. -/
def develop : Nameless → Nameless
  | bound i => bound i
  | free x => free x
  | abs body => abs body.develop
  | app (abs body) arg => body.develop.contract arg.develop
  | app fn arg => app fn.develop arg.develop

private theorem develop_app_of_not_isAbs {fn : Nameless} (h : fn.isAbs = false) (arg : Nameless) :
    (app fn arg).develop = app fn.develop arg.develop := by
  cases fn with
  | abs body => simp [isAbs] at h
  | _ => rfl

/-- All parallel steps from a term lead on to its development. -/
private theorem Parallel.develop {t u : Nameless} (h : Parallel t u) : Parallel u t.develop := by
  induction h with
  | bound i => exact .bound i
  | free x => exact .free x
  | abs _ ih => exact .abs ih
  | @app fn fn' arg arg' hf _ ihf iha =>
    cases hfn : fn.isAbs with
    | false =>
      rw [develop_app_of_not_isAbs hfn]
      exact .app ihf iha
    | true =>
      -- the redex was left out: it is still there after the step, with a body that develops
      cases hf with
      | abs hb =>
        cases ihf with
        | abs hb' => exact .contract hb' iha
      | _ => simp [isAbs] at hfn
  | contract _ _ ihb iha => exact ihb.contract_congr iha

/-! ### Normal forms -/

private theorem Parallel.eq_of_isNormal {t u : Nameless} (h : Parallel t u) (ht : t.isNormal = true) : u = t := by
  induction h with
  | bound i => rfl
  | free x => rfl
  | abs _ ih => rw [ih ht]
  | app _ _ ihf iha =>
    simp only [isNormal, Bool.and_eq_true] at ht
    rw [ihf ht.1.2, iha ht.2]
  | contract _ _ _ _ => simp [isNormal, isAbs] at ht

private theorem eq_of_parallels_of_isNormal {t u : Nameless} (h : ReflTransGen Parallel t u)
    (ht : t.isNormal = true) : u = t := by
  induction h with
  | refl => rfl
  | tail _ hstep ih =>
    rw [ih] at hstep
    exact hstep.eq_of_isNormal ht

/-- A term has at most one normal form. -/
theorem Reduces.normal_unique {t u v : Nameless} (htu : Reduces t u) (htv : Reduces t v)
    (hu : u.isNormal = true) (hv : v.isNormal = true) : u = v := by
  have hpar : Step ≤ Parallel := fun _ _ => Step.parallel
  obtain ⟨w, huw, hvw⟩ := Relation.church_rosser
    (fun a _ _ hb hc => ⟨a.develop, .single hb.develop, .single hc.develop⟩)
    (ReflTransGen.mono hpar _ _ htu) (ReflTransGen.mono hpar _ _ htv)
  rw [← eq_of_parallels_of_isNormal huw hu, ← eq_of_parallels_of_isNormal hvw hv]

end LambdaCalculus.Nameless
