import LambdaCalculus.Proofs.Reduction.Evaluation

/-!
# The redex of a step, and steps without faults

A step in applicative order looks for a redex first and then goes to the place that was found: it looks the redex up,
contracts it and puts the result in its place.  Each of the three could fail on a path that leads nowhere or to another
term.  `checkedStep` and `checkedRun` tell such a fault from a term without a redex, and it never comes up
(`checkedStep_eq_ok`, `checkedRun_eq_ok`), because there is a redex at the path that the search finds.

The search keeps one path, which it extends on the way down and takes back behind a child without a redex
(`searchInnermost`).  So it ends with the path to the last redex or with the path it began with
(`searchInnermost_eq`).
-/

namespace LambdaCalculus

/-- What must not come up in a step. -/
inductive Fault where
  /-- The path leads to no subterm of the term. -/
  | noSubterm (path : Path) (t : Term)
  /-- The subterm at the end of the path is no redex. -/
  | noRedex (path : Path) (u : Term)
  deriving DecidableEq, Repr

/-- The value, which is there unless the fault has come up. -/
def Fault.orValue {α : Type} (fault : Fault) : Option α → Except Fault α
  | some a => .ok a
  | none => .error fault

private theorem Fault.orValue_eq_ok_iff {α : Type} {fault : Fault} {o : Option α} {a : α} :
    fault.orValue o = .ok a ↔ o = some a := by
  cases o <;> simp [orValue]

namespace Term

/-! ### The search on one path -/

/-- Looks for the rightmost of the innermost redexes below the end of a path, which becomes the path to that redex. -/
def searchInnermost : Term → Path → Bool × Path
  | var _, path => (false, path)
  | abs _ body, path =>
    match body.searchInnermost (path ++ [.body]) with
    | (true, path) => (true, path)
    | (false, path) => (false, path.dropLast)
  | app fn arg, path =>
    match arg.searchInnermost (path ++ [.right]) with
    | (true, path) => (true, path)
    | (false, path) =>
      match fn.searchInnermost (path.dropLast ++ [.left]) with
      | (true, path) => (true, path)
      | (false, path) => (isRedex (app fn arg), path.dropLast)

/-- Behind a search without success the path is the one it began with. -/
private theorem searchInnermost_eq (t : Term) (path : Path) :
    t.searchInnermost path =
      match t.innermostRedex? with
      | some p => (true, path ++ p)
      | none => (false, path) := by
  induction t generalizing path with
  | var x => rfl
  | abs x body ih =>
    rw [searchInnermost, ih, innermostRedex?]
    cases body.innermostRedex? <;> simp
  | app fn arg ihf iha =>
    rw [searchInnermost, iha, innermostRedex?]
    cases arg.innermostRedex? with
    | some p => simp
    | none =>
      simp only [List.dropLast_concat, ihf]
      cases fn.innermostRedex? with
      | some p => simp
      | none => by_cases h : isRedex (app fn arg) = true <;> simp [h]

/-! ### Steps and runs -/

/-- The contraction at the end of a path, or what is wrong with the path. -/
def contractAt (t : Term) (path : Path) : Except Fault Term := do
  let redex ← (Fault.noSubterm path t).orValue (t.subterm? path)
  let reduced ← (Fault.noRedex path redex).orValue redex.contract?
  (Fault.noSubterm path t).orValue (t.replace? path reduced)

/-- A fault comes up exactly where there is nothing to contract. -/
private theorem contractAt_eq_ok_iff {t u : Term} {path : Path} :
    t.contractAt path = .ok u ↔ t.contractAt? path = some u := by
  rw [contractAt, contractAt?]
  cases t.subterm? path with
  | none => simp [Fault.orValue, Bind.bind, Except.bind]
  | some redex =>
    cases hreduced : redex.contract? with
    | none => simp [Fault.orValue, Bind.bind, Except.bind, hreduced]
    | some reduced => simpa [Fault.orValue, Bind.bind, Except.bind, hreduced] using Fault.orValue_eq_ok_iff

example : (abs "x" (var "x")).contractAt [.body, .left] = .error (.noSubterm [.body, .left] (abs "x" (var "x"))) :=
  rfl

example : (abs "x" (var "x")).contractAt [.body] = .error (.noRedex [.body] (var "x")) :=
  rfl

end Term

namespace Strategy

/-- One step, unless there is no redex, or what went wrong in it. -/
def checkedStep : Strategy → Term → Except Fault (Option Term)
  | normal, t => .ok t.normalStep?
  | applicative, t =>
    match t.innermostRedex? with
    | none => .ok none
    | some path => some <$> t.contractAt path

private theorem checkedStep_eq_ok (s : Strategy) (t : Term) : s.checkedStep t = .ok (s.step? t) := by
  cases s with
  | normal => rfl
  | applicative =>
    cases h : t.innermostRedex? with
    | none => simp [checkedStep, step?, Term.applicativeStep?, h]
    | some path =>
      obtain ⟨u, hu⟩ := Term.exists_contractAt?_of_innermostRedex? h
      have hchecked := Term.contractAt_eq_ok_iff.2 hu
      simp [checkedStep, step?, Term.applicativeStep?, h, hu, hchecked, Functor.map, Except.map]

end Strategy

namespace Reduction

/-- Takes up to `budget` further steps, as far as nothing goes wrong in them. -/
def checkedRun (s : Strategy) (record : Bool) : Nat → Reduction → Except Fault Reduction
  | 0, r => .ok r
  | budget + 1, r => do
    match ← s.checkedStep r.term with
    | none => return r.stop
    | some t => checkedRun s record budget (r.advance record t)

private theorem checkedRun_eq_ok (s : Strategy) (record : Bool) (budget : Nat) (r : Reduction) :
    checkedRun s record budget r = .ok (run s.step? record budget r) := by
  induction budget generalizing r with
  | zero => rfl
  | succ budget ih =>
    rw [checkedRun, s.checkedStep_eq_ok]
    cases h : s.step? r.term with
    | none =>
      rw [run_succ_of_none h]
      rfl
    | some t =>
      rw [run_succ_of_some h, ← ih]
      rfl

end Reduction

namespace Evaluator

/-- Reduces a term within the budget, as far as nothing goes wrong. -/
def checkedEvaluate (e : Evaluator) (t : Term) : Except Fault Reduction :=
  Reduction.checkedRun e.strategy e.trace e.maxSteps (.start t)

private theorem checkedEvaluate_eq_ok (e : Evaluator) (t : Term) : e.checkedEvaluate t = .ok (e.evaluate t) :=
  Reduction.checkedRun_eq_ok e.strategy e.trace e.maxSteps (.start t)

end Evaluator

/-! ### The redex of a step -/

/-- A term with a redex has exactly one that precedes all others, and normal order contracts it; it has exactly one
that all others precede, and applicative order finds its path and contracts it.  At both paths there is a redex, which
can be replaced, and no evaluation comes upon a fault. -/
theorem Strategy.contracts_promised_redex :
    (∀ t : Term, (∃ path, t.RedexAt path) →
      ((∃! p, t.IsFirstRedex p) ∧ ∀ p, t.IsFirstRedex p → ∃ x body arg u,
        t.subterm? p = some (.app (.abs x body) arg) ∧ t.replace? p (body.subst x arg) = some u ∧
          t.normalStep? = some u) ∧
      (∃! p, t.IsLastRedex p) ∧ ∀ p, t.IsLastRedex p →
        t.innermostRedex? = some p ∧ t.searchInnermost [] = (true, p) ∧ ∃ x body arg u,
          t.subterm? p = some (.app (.abs x body) arg) ∧ t.replace? p (body.subst x arg) = some u ∧
            t.applicativeStep? = some u) ∧
      ∀ (e : Evaluator) (t : Term), e.checkedEvaluate t = .ok (e.evaluate t) := by
  refine ⟨fun t ht => ⟨⟨t.existsUnique_isFirstRedex ht, ?first⟩, t.existsUnique_isLastRedex ht, ?last⟩, ?faults⟩
  case first =>
    intro p hp
    obtain ⟨u, hu⟩ := hp.1.exists_contractAt?
    obtain ⟨x, body, arg, hredex, hreplaced⟩ := Term.contractAt?_eq_some_iff.1 hu
    exact ⟨x, body, arg, u, hredex, hreplaced, hp.normalStep?.trans hu⟩
  case last =>
    intro p hp
    obtain ⟨u, hu⟩ := hp.1.exists_contractAt?
    obtain ⟨x, body, arg, hredex, hreplaced⟩ := Term.contractAt?_eq_some_iff.1 hu
    refine ⟨hp.innermostRedex?, ?_, x, body, arg, u, hredex, hreplaced, hp.applicativeStep?.trans hu⟩
    rw [Term.searchInnermost_eq, hp.innermostRedex?]
    rfl
  case faults => exact Evaluator.checkedEvaluate_eq_ok

/-- The first redex of three is on the left and its argument would be captured, and the last is inside the second. -/
theorem Strategy.contracts_promised_redex_of_three :
    let t : Term := .abs "z" (.app (.app (.var "f") (.app (.abs "x" (.abs "a" (.var "x"))) (.var "a")))
      (.app (.abs "x" (.app (.abs "y" (.var "y")) (.var "x"))) (.var "z")))
    let first : Path := [.body, .left, .right]
    let last : Path := [.body, .right, .left, .body]
    let e : Evaluator := { strategy := .applicative, maxSteps := 9, trace := true }
    t.RedexAt [.body, .right] ∧ t.IsFirstRedex first ∧ t.IsLastRedex last ∧
      (∃ x body arg u, t.subterm? first = some (.app (.abs x body) arg) ∧
        t.replace? first (body.subst x arg) = some u ∧ t.normalStep? = some u) ∧
      t.innermostRedex? = some last ∧ e.checkedEvaluate t = .ok (e.evaluate t) := by
  intro t first last e
  have hmiddle : t.RedexAt [.body, .right] := ⟨_, rfl, rfl⟩
  have hfirst : t.IsFirstRedex first := Term.isFirstRedex_iff.2 rfl
  have hlast : t.IsLastRedex last := Term.isLastRedex_iff.2 rfl
  obtain ⟨⟨-, hnormal⟩, -, happlicative⟩ := contracts_promised_redex.1 t ⟨_, hmiddle⟩
  exact ⟨hmiddle, hfirst, hlast, hnormal first hfirst, (happlicative last hlast).1, contracts_promised_redex.2 e t⟩

end LambdaCalculus
