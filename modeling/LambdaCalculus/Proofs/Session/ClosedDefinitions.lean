import LambdaCalculus.Proofs.Church.Encodings
import LambdaCalculus.Term.Path
import Mathlib.Logic.Function.Basic

/-!
# Closed definitions are put in one by one

A closed definition cannot be captured, so no binder has to be renamed on its account.  `graft` puts definitions in
without looking at binders at all.  With closed definitions it is what resolution does (`resolveIn_eq_graft`), and with
one closed definition it is a substitution (`subst_eq_graft`).

The key fact is `graft_graft`: two grafts in a row are one, in which the first has precedence, because there is nothing
to put in for in a closed definition that has been put in already.  So substitutions in a row come to one graft
(`substInTurn_eq_graft`), in which the order of the entries does not matter when their names differ, and a second
resolution finds nothing to do.
-/

namespace LambdaCalculus

namespace Term

/-- Puts definitions for the free names and leaves all binders as they are. -/
def graft (define : Name → Option Term) : Term → Term
  | var x => (define x).getD (var x)
  | abs x body => abs x (body.graft (Function.update define x none))
  | app fn arg => app (fn.graft define) (arg.graft define)

variable {define define' : Name → Option Term}

/-- A term none of whose free names is defined stays as it is. -/
private theorem graft_eq_self {t : Term} (h : ∀ x ∈ t.freeVars, define x = none) : t.graft define = t := by
  induction t generalizing define with
  | var x => rw [graft, h x (List.mem_singleton_self x), Option.getD_none]
  | abs x body ih =>
    refine congrArg (abs x) (ih fun y hy => ?_)
    by_cases hyx : y = x
    · rw [hyx, Function.update_self]
    · rw [Function.update_of_ne hyx]
      exact h y (by simp [freeVars, hy, hyx])
  | app fn arg ihf iha =>
    have hf := ihf fun x hx => h x (List.mem_append_left _ hx)
    have ha := iha fun x hx => h x (List.mem_append_right _ hx)
    rw [graft, hf, ha]

/-- Whether all definitions are closed. -/
def DefinesClosed (define : Name → Option Term) : Prop :=
  ∀ x d, define x = some d → d.freeVars = []

private theorem DefinesClosed.update_none (h : DefinesClosed define) (x : Name) :
    DefinesClosed (Function.update define x none) := by
  intro y d hd
  by_cases hyx : y = x
  · rw [hyx, Function.update_self] at hd
    cases hd
  · rw [Function.update_of_ne hyx] at hd
    exact h y d hd

private theorem update_none_or (define define' : Name → Option Term) (x : Name) :
    Function.update (fun y => (define y).or (define' y)) x none =
      fun y => (Function.update define x none y).or (Function.update define' x none y) := by
  funext y
  by_cases hyx : y = x
  · rw [hyx, Function.update_self, Function.update_self, Function.update_self, Option.or_none]
  · rw [Function.update_of_ne hyx, Function.update_of_ne hyx, Function.update_of_ne hyx]

/-- Two grafts in a row are one, in which the definitions of the first have precedence. -/
private theorem graft_graft (h : DefinesClosed define) (t : Term) :
    (t.graft define).graft define' = t.graft fun x => (define x).or (define' x) := by
  induction t generalizing define define' with
  | var x =>
    rw [graft, graft]
    cases hd : define x with
    | none => rw [Option.getD_none, Option.none_or, graft]
    | some d =>
      rw [Option.getD_some, Option.some_or, Option.getD_some]
      -- in a closed definition there is nothing to put a definition in for
      exact graft_eq_self (by simp [h x d hd])
  | abs x body ih => rw [graft, graft, graft, ih (h.update_none x), update_none_or]
  | app fn arg ihf iha => rw [graft, graft, graft, ihf h, iha h]

/-! ### Resolution and substitution as grafts -/

private theorem insertedVars_eq_nil (h : DefinesClosed define) (shadowed : List Name) (t : Term) :
    insertedVars define shadowed t = [] := by
  refine List.eq_nil_iff_forall_not_mem.2 fun y hy => ?_
  obtain ⟨x, -, -, d, hd, hyd⟩ := mem_insertedVars.1 hy
  rw [h x d hd] at hyd
  cases hyd

/-- `define` without the names in `shadowed`. -/
private def outside (define : Name → Option Term) (shadowed : List Name) (x : Name) : Option Term :=
  if x ∈ shadowed then none else define x

private theorem update_outside (define : Name → Option Term) (shadowed : List Name) (x : Name) :
    Function.update (outside define shadowed) x none = outside define (x :: shadowed) := by
  funext y
  by_cases hyx : y = x
  · rw [hyx, Function.update_self, outside, if_pos (List.mem_cons_self ..)]
  · rw [Function.update_of_ne hyx, outside, outside]
    simp [hyx]

/-- Closed definitions are put in without renaming a binder. -/
private theorem resolveIn_eq_graft (h : DefinesClosed define) (shadowed : List Name) (t : Term) :
    t.resolveIn define shadowed = t.graft (outside define shadowed) := by
  induction t generalizing shadowed with
  | var x =>
    rw [resolveIn, graft, outside]
    by_cases hx : x ∈ shadowed
    · rw [if_pos (List.contains_iff_mem.2 hx), if_pos hx, Option.getD_none]
    · rw [if_neg (by simpa using hx), if_neg hx]
  | abs x body ih =>
    rw [resolveIn, insertedVars_eq_nil h, graft, update_outside, ih]
    rfl
  | app fn arg ihf iha => rw [resolveIn, graft, ihf, iha]

/-- The definition of one name. -/
def defineOnly (x : Name) (d : Term) (y : Name) : Option Term :=
  if y = x then some d else none

private theorem subst_eq_graft {d : Term} (hd : d.freeVars = []) (x : Name) (t : Term) :
    t.subst x d = t.graft (defineOnly x d) := by
  induction t with
  | var y =>
    rw [subst_var, graft, defineOnly]
    by_cases hxy : x = y
    · rw [if_pos hxy, if_pos hxy.symm, Option.getD_some]
    · rw [if_neg hxy, if_neg (Ne.symm hxy), Option.getD_none]
  | abs y body ih =>
    by_cases hxy : x = y
    · subst hxy
      rw [subst_abs_self]
      refine (graft_eq_self fun z hz => ?_).symm
      have hzx : z ≠ x := by simpa using (List.mem_filter.1 hz).2
      exact if_neg hzx
    · have hy : d.hasFree y = false := hasFree_eq_false_iff.2 (by simp [hd])
      have hupdate : Function.update (defineOnly x d) y none = defineOnly x d :=
        Function.update_eq_self_iff.2 (if_neg (Ne.symm hxy)).symm
      rw [subst_abs_of_not_hasFree body hxy hy, graft, hupdate, ih]
  | app fn arg ihf iha => rw [subst_app, graft, ihf, iha]

/-- Substitutions for the entries, one after the other. -/
def substInTurn (t : Term) (entries : List (Name × Term)) : Term :=
  entries.foldl (fun u entry => u.subst entry.1 entry.2) t

/-- Closed terms are put in for the first entry that each name has. -/
private theorem substInTurn_eq_graft {entries : List (Name × Term)} (h : ∀ entry ∈ entries, entry.2.freeVars = [])
    (t : Term) : t.substInTurn entries = t.graft (entries.lookup ·) := by
  induction entries generalizing t with
  | nil => exact (graft_eq_self fun _ _ => rfl).symm
  | cons entry entries ih =>
    obtain ⟨x, d⟩ := entry
    rw [List.forall_mem_cons] at h
    have hclosed : DefinesClosed (defineOnly x d) := by
      intro y d' hd'
      rw [defineOnly] at hd'
      split at hd'
      · cases hd'
        exact h.1
      · cases hd'
    have hcons : t.substInTurn ((x, d) :: entries) = (t.subst x d).substInTurn entries := rfl
    rw [hcons, ih h.2, subst_eq_graft h.1, graft_graft hclosed]
    refine congrArg (graft · t) (funext fun y => ?_)
    rw [defineOnly, List.lookup_cons]
    by_cases hyx : y = x
    · rw [if_pos hyx, hyx, beq_self_eq_true, Option.some_or]
    · rw [if_neg hyx, beq_eq_false_iff_ne.2 hyx, Option.none_or]

/-! ### Binders -/

/-- Whether every binder of `t` stands in the same place of `u`, with the same name. -/
def KeepsBinders (t u : Term) : Prop :=
  ∀ path x body, t.subterm? path = some (abs x body) → ∃ body', u.subterm? path = some (abs x body')

private theorem keepsBinders_graft (define : Name → Option Term) (t : Term) : t.KeepsBinders (t.graft define) := by
  induction t generalizing define with
  | var x =>
    intro path y body h
    cases path with
    | nil => cases h
    | cons direction path => cases h
  | abs x body ih =>
    intro path y body' h
    match path, h with
    | [], h =>
      cases h
      exact ⟨_, rfl⟩
    | .body :: path, h => exact ih _ path y body' h
  | app fn arg ihf iha =>
    intro path y body h
    match path, h with
    | .left :: path, h => exact ihf _ path y body h
    | .right :: path, h => exact iha _ path y body h

end Term

namespace Bindings

variable {bindings : Bindings}

private theorem Closed.resolve_eq_graft (h : bindings.Closed) (t : Term) :
    bindings.resolve t = t.graft (bindings[·]?) := by
  rw [resolve, Term.resolveIn_eq_graft h]
  rfl

/-- The entries in any order give every name its definition. -/
private theorem lookup_eq_getElem? {entries : List (Name × Term)} (h : entries.Perm bindings.toList) (x : Name) :
    entries.lookup x = bindings[x]? := by
  have hentry : ∀ d, (x, d) ∈ entries ↔ bindings[x]? = some d := fun d => by
    rw [h.mem_iff, Std.TreeMap.mem_toList_iff_getElem?_eq_some]
  cases hlookup : entries.lookup x with
  | none =>
    refine (Option.eq_none_iff_forall_ne_some.2 fun d hd => ?_).symm
    have hne := List.lookup_eq_none_iff.1 hlookup (x, d) ((hentry d).2 hd)
    simp at hne
  | some d =>
    obtain ⟨before, behind, rfl, -⟩ := List.lookup_eq_some_iff.1 hlookup
    exact ((hentry d).1 (by simp)).symm

private theorem Closed.freeVars_of_mem (h : bindings.Closed) {entries : List (Name × Term)}
    (hentries : entries.Perm bindings.toList) {entry : Name × Term} (hmem : entry ∈ entries) :
    entry.2.freeVars = [] :=
  h entry.1 entry.2 (Std.TreeMap.mem_toList_iff_getElem?_eq_some.1 (hentries.mem_iff.1 hmem))

/-- Closed definitions can be put in by substitutions, one after the other and in any order.  No binder is renamed on
the way, and to resolve the result again changes nothing. -/
theorem closed_definitions_put_in_one_by_one (h : bindings.Closed) (t : Term) :
    (∀ entries, entries.Perm bindings.toList →
        bindings.resolve t = t.substInTurn entries ∧
          ∀ done, done <+: entries → t.KeepsBinders (t.substInTurn done)) ∧
      t.KeepsBinders (bindings.resolve t) ∧ bindings.resolve (bindings.resolve t) = bindings.resolve t := by
  refine ⟨fun entries hentries => ⟨?substitutions, fun done hdone => ?done⟩, ?binders, ?again⟩
  case substitutions =>
    rw [h.resolve_eq_graft, Term.substInTurn_eq_graft fun _ => h.freeVars_of_mem hentries,
      funext (lookup_eq_getElem? hentries)]
  case done =>
    rw [Term.substInTurn_eq_graft fun _ hmem => h.freeVars_of_mem hentries (hdone.subset hmem)]
    exact Term.keepsBinders_graft _ t
  case binders =>
    rw [h.resolve_eq_graft]
    exact Term.keepsBinders_graft _ t
  case again =>
    rw [h.resolve_eq_graft, h.resolve_eq_graft, Term.graft_graft h]
    simp only [Option.or_self]

/-- The name of one encoding is bound, and the last of the entries comes first. -/
theorem closed_definitions_put_in_one_by_one_shadowed_name :
    let t := Term.abs "TRUE" (.app (.app (.var "AND") (.var "TRUE")) (.app (.var "NOT") (.var "x")))
    let u := Term.abs "TRUE" (.app (.app Church.and (.var "TRUE")) (.app Church.not (.var "x")))
    let entries := Church.bindings.toList.reverse
    Church.bindings.Closed ∧ entries.Perm Church.bindings.toList ∧ Church.bindings.resolve t = u ∧
      t.substInTurn entries = u ∧ t.KeepsBinders (t.substInTurn (entries.take 9)) ∧ t.KeepsBinders u ∧
      Church.bindings.resolve u = u := by
  intro t u entries
  have hperm : entries.Perm Church.bindings.toList := List.reverse_perm _
  have hresolve : Church.bindings.resolve t = u := by decide +kernel
  obtain ⟨hsubst, hbinders, hagain⟩ := closed_definitions_put_in_one_by_one Church.closed_bindings t
  obtain ⟨hentries, hdone⟩ := hsubst entries hperm
  rw [hresolve] at hentries hbinders hagain
  exact ⟨Church.closed_bindings, hperm, hresolve, hentries.symm, hdone _ (List.take_prefix 9 entries), hbinders, hagain⟩

end Bindings

end LambdaCalculus
