import LambdaCalculus.Proofs.Nameless.NormalOrder
import LambdaCalculus.Proofs.Reduction.Redexes

/-!
# The steps of the strategies

Both strategies make a contraction (`contracts_of_step?`) unless the term is normal (`step?_eq_none_iff`), because they
contract the first and the last of its redexes.  Their steps are those of the nameless form (`normalStep?_namelessIn`,
`applicativeStep?_namelessIn`).
-/

namespace LambdaCalculus

namespace Term

/-! ### Normal order -/

/-- The step in normal order is the same on nameless forms. -/
private theorem normalStep?_namelessIn (t : Term) (scope : List Name) :
    (t.namelessIn scope).normalStep? = t.normalStep?.map (·.namelessIn scope) := by
  induction t generalizing scope with
  | var x =>
    rw [namelessIn]
    split <;> rfl
  | abs x body ih =>
    rw [namelessIn, Nameless.normalStep?, ih, normalStep?, Option.map_map, Option.map_map]
    rfl
  | app fn arg ihf iha =>
    cases hfn : fn.isAbs with
    | true =>
      obtain ⟨x, body, rfl⟩ := exists_eq_abs_of_isAbs hfn
      rw [normalStep?_redex, Option.map_some, namelessIn_subst]
      rfl
    | false =>
      rw [namelessIn, Nameless.normalStep?_app_of_not_isAbs (by rw [isAbs_namelessIn, hfn]),
        normalStep?_app_of_not_isAbs hfn, ihf, iha]
      cases fn.normalStep? with
      | some fn' => rfl
      | none => cases arg.normalStep? <;> rfl

theorem contracts_of_normalStep? {t u : Term} (h : t.normalStep? = some u) : Contracts t u := by
  rw [normalStep?_eq] at h
  obtain ⟨path, -, h⟩ := Option.bind_eq_some_iff.1 h
  exact ⟨path, h⟩

theorem normalStep?_eq_none_iff {t : Term} : t.normalStep? = none ↔ t.isNormal = true := by
  rw [← redexes_eq_nil_iff, normalStep?_eq]
  cases h : t.redexes with
  | nil => simp
  | cons path paths =>
    obtain ⟨u, hu⟩ := exists_contractAt?_of_mem_redexes (h ▸ List.mem_cons_self : path ∈ t.redexes)
    simp [hu]

/-! ### Applicative order -/

/-- The search for the innermost redex gives the same path on nameless forms. -/
theorem innermostRedex?_namelessIn (t : Term) (scope : List Name) :
    (t.namelessIn scope).innermostRedex? = t.innermostRedex? := by
  induction t generalizing scope with
  | var x =>
    rw [namelessIn]
    split <;> rfl
  | abs x body ih => rw [namelessIn, Nameless.innermostRedex?, ih, innermostRedex?]
  | app fn arg ihf iha =>
    rw [namelessIn, Nameless.innermostRedex?, ihf, iha, isAbs_namelessIn]
    rfl

/-- The step in applicative order is the same on nameless forms. -/
private theorem applicativeStep?_namelessIn (t : Term) (scope : List Name) :
    (t.namelessIn scope).applicativeStep? = t.applicativeStep?.map (·.namelessIn scope) := by
  rw [Nameless.applicativeStep?, innermostRedex?_namelessIn, applicativeStep?]
  cases t.innermostRedex? with
  | none => rfl
  | some path => exact contractAt?_namelessIn t path scope

theorem innermostRedex?_eq_none_iff {t : Term} : t.innermostRedex? = none ↔ t.isNormal = true := by
  rw [innermostRedex?_eq, List.getLast?_eq_none_iff, redexes_eq_nil_iff]

/-- There is a redex at the path that applicative order finds. -/
theorem exists_contractAt?_of_innermostRedex? {t : Term} {path : Path} (h : t.innermostRedex? = some path) :
    ∃ u, t.contractAt? path = some u := by
  rw [innermostRedex?_eq] at h
  exact exists_contractAt?_of_mem_redexes (List.mem_of_getLast? h)

private theorem contracts_of_applicativeStep? {t u : Term} (h : t.applicativeStep? = some u) : Contracts t u := by
  obtain ⟨path, -, h⟩ := Option.bind_eq_some_iff.1 h
  exact ⟨path, h⟩

private theorem applicativeStep?_eq_none_iff {t : Term} : t.applicativeStep? = none ↔ t.isNormal = true := by
  rw [← innermostRedex?_eq_none_iff]
  cases h : t.innermostRedex? with
  | none => simp [applicativeStep?, h]
  | some path =>
    obtain ⟨u, hu⟩ := exists_contractAt?_of_innermostRedex? h
    simp [applicativeStep?, h, hu]

end Term

namespace Strategy

theorem contracts_of_step? {s : Strategy} {t u : Term} (h : s.step? t = some u) : Term.Contracts t u := by
  cases s with
  | normal => exact Term.contracts_of_normalStep? h
  | applicative => exact Term.contracts_of_applicativeStep? h

/-- One step on nameless forms. -/
def namelessStep? : Strategy → Nameless → Option Nameless
  | normal => Nameless.normalStep?
  | applicative => Nameless.applicativeStep?

theorem namelessStep?_nameless (s : Strategy) (t : Term) :
    s.namelessStep? t.nameless = (s.step? t).map Term.nameless := by
  cases s with
  | normal => exact Term.normalStep?_namelessIn t []
  | applicative => exact Term.applicativeStep?_namelessIn t []

theorem step?_eq_none_iff {s : Strategy} {t : Term} : s.step? t = none ↔ t.isNormal = true := by
  cases s with
  | normal => exact Term.normalStep?_eq_none_iff
  | applicative => exact Term.applicativeStep?_eq_none_iff

end Strategy

end LambdaCalculus
