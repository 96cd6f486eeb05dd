import LambdaCalculus.Proofs.Alpha
import LambdaCalculus.Proofs.Nameless.Numeral
import LambdaCalculus.Church.Encodings

/-!
# Reading numbers and booleans

A term with the nameless form of a numeral is read as its number (`readNumeral_of_nameless`), whatever the names of its
two binders: only in the numeral of zero can they have one name.  A term with the nameless form of a boolean is read as
that boolean.

Numbers are read by the names alone (`readNumeral_eq_some_iff`).  So the terms that are read as numbers are the numerals
and, beside them, the terms `λf.λf.f (f … f)`, in which every `f` belongs to the inner binder.
-/

namespace LambdaCalculus

namespace Term

variable {t : Term} {scope : List Name}

/-! ### Terms by their nameless forms -/

theorem exists_of_namelessIn_eq_bound {i : Nat} (h : t.namelessIn scope = .bound i) :
    ∃ x, t = var x ∧ scope[i]? = some x := by
  cases t with
  | var x =>
    rw [namelessIn] at h
    split at h
    · rename_i j hj
      cases h
      obtain ⟨hi, hx, -⟩ := List.idxOf?_eq_some_iff.1 hj
      exact ⟨x, rfl, by rw [List.getElem?_eq_getElem hi, hx]⟩
    · cases h
  | abs x body => cases h
  | app fn arg => cases h

private theorem exists_of_namelessIn_eq_app {u v : Nameless} (h : t.namelessIn scope = .app u v) :
    ∃ fn arg, t = app fn arg ∧ fn.namelessIn scope = u ∧ arg.namelessIn scope = v := by
  cases t with
  | var x =>
    rw [namelessIn] at h
    split at h <;> cases h
  | abs x body => cases h
  | app fn arg =>
    cases h
    exact ⟨fn, arg, rfl, rfl, rfl⟩

theorem exists_of_namelessIn_eq_abs {u : Nameless} (h : t.namelessIn scope = .abs u) :
    ∃ x body, t = abs x body ∧ body.namelessIn (x :: scope) = u := by
  cases t with
  | var x =>
    rw [namelessIn] at h
    split at h <;> cases h
  | abs x body =>
    cases h
    exact ⟨x, body, rfl, rfl⟩
  | app fn arg => cases h

end Term

namespace Church

open Nameless (app bound)

/-! ### Numbers -/

private theorem countApps_of_namelessIn {f x : Name} {n : Nat} {t : Term}
    (h : t.namelessIn [x, f] = (app (bound 1))^[n] (bound 0)) : countApps f x t = some n := by
  induction n generalizing t with
  | zero =>
    obtain ⟨y, rfl, hy⟩ := Term.exists_of_namelessIn_eq_bound h
    cases hy
    rw [countApps, if_pos rfl]
  | succ n ih =>
    rw [Function.iterate_succ_apply'] at h
    obtain ⟨fn, arg, rfl, hfn, harg⟩ := Term.exists_of_namelessIn_eq_app h
    obtain ⟨g, rfl, hg⟩ := Term.exists_of_namelessIn_eq_bound hfn
    cases hg
    rw [countApps, if_pos rfl, ih harg, Option.map_some]

theorem readNumeral_of_nameless {t : Term} {n : Nat} (h : t.nameless = Nameless.church n) : readNumeral t = some n := by
  obtain ⟨f, u, rfl, hu⟩ := Term.exists_of_namelessIn_eq_abs h
  obtain ⟨x, body, rfl, hbody⟩ := Term.exists_of_namelessIn_eq_abs hu
  exact countApps_of_namelessIn hbody

/-- The term `λf.λx.f (f … x)` with `n` applications, for any two names. -/
def iterated (f x : Name) (n : Nat) : Term :=
  .abs f (.abs x ((Term.app (.var f))^[n] (.var x)))

private theorem countApps_eq_some_iff {f x : Name} {n : Nat} {t : Term} :
    countApps f x t = some n ↔ t = (Term.app (.var f))^[n] (.var x) := by
  induction n generalizing t with
  | zero =>
    rw [Function.iterate_zero_apply]
    unfold countApps
    split
    · simp
    · simp
    · rename_i hvar _
      exact iff_of_false nofun (hvar x)
  | succ n ih =>
    rw [Function.iterate_succ_apply']
    unfold countApps
    split
    · simp
    · simp [ih]
    · rename_i happ
      exact iff_of_false nofun (happ f _)

private theorem readNumeral_eq_some_iff {t : Term} {n : Nat} : readNumeral t = some n ↔ ∃ f x, t = iterated f x n := by
  constructor
  · intro h
    unfold readNumeral at h
    split at h
    · rename_i f x body
      have hbody : body = (Term.app (.var f))^[n] (.var x) := countApps_eq_some_iff.1 h
      exact ⟨f, x, by rw [hbody, iterated]⟩
    · cases h
  · rintro ⟨f, x, rfl⟩
    exact countApps_eq_some_iff.2 rfl

private theorem nameless_iterated {f x : Name} (h : f ≠ x) (n : Nat) :
    (iterated f x n).nameless = Nameless.church n := by
  have hcommutes : Function.Semiconj (Term.namelessIn [x, f]) (Term.app (.var f)) (app (bound 1)) := by
    intro t
    simp [Term.namelessIn, List.idxOf?_cons, Ne.symm h]
  have hbody : ((Term.app (.var f))^[n] (.var x)).namelessIn [x, f] = (app (bound 1))^[n] (bound 0) := by
    rw [hcommutes.iterate_right n]
    simp [Term.namelessIn, List.idxOf?_cons]
  rw [Nameless.church_eq, ← hbody]
  rfl

/-- With one name for both binders, every occurrence belongs to the inner one. -/
private theorem nameless_iterated_self (g : Name) (n : Nat) :
    (iterated g g n).nameless = .abs (.abs ((app (bound 0))^[n] (bound 0))) := by
  have hcommutes : Function.Semiconj (Term.namelessIn [g, g]) (Term.app (.var g)) (app (bound 0)) := by
    intro t
    simp [Term.namelessIn, List.idxOf?_cons]
  have hbody : ((Term.app (.var g))^[n] (.var g)).namelessIn [g, g] = (app (bound 0))^[n] (bound 0) := by
    rw [hcommutes.iterate_right n]
    simp [Term.namelessIn, List.idxOf?_cons]
  rw [← hbody]
  rfl

private theorem nameless_iterated_self_ne_church (g : Name) {n : Nat} (hn : 0 < n) (m : Nat) :
    (iterated g g n).nameless ≠ Nameless.church m := by
  obtain ⟨n, rfl⟩ := Nat.exists_eq_add_one.2 hn
  rw [nameless_iterated_self, Nameless.church_eq, Function.iterate_succ_apply']
  cases m with
  | zero => simp
  | succ m =>
    rw [Function.iterate_succ_apply']
    simp

/-- The terms that are read as `n` are those with the form of its numeral and one more for each name of a binder. -/
private theorem readNumeral_eq_some_iff_nameless {t : Term} {n : Nat} :
    readNumeral t = some n ↔ t.nameless = Nameless.church n ∨ 0 < n ∧ ∃ g, t = iterated g g n := by
  constructor
  · intro h
    obtain ⟨f, x, rfl⟩ := readNumeral_eq_some_iff.1 h
    by_cases hfx : f = x
    · subst hfx
      cases n with
      | zero => exact .inl (nameless_iterated_self f 0)
      | succ n => exact .inr ⟨Nat.succ_pos n, f, rfl⟩
    · exact .inl (nameless_iterated hfx n)
  · rintro (h | ⟨-, g, rfl⟩)
    · exact readNumeral_of_nameless h
    · exact readNumeral_eq_some_iff.2 ⟨g, g, rfl⟩

/-- A term is read as a number exactly if it is the numeral up to the names of its binders or `λg.λg.g (g … g)`, which
is no numeral.  These terms apart, alpha-equivalent terms are read alike. -/
theorem numerals_are_read_by_name {f x : Name} (hfx : f ≠ x) :
    (∀ (t : Term) (n : Nat),
        readNumeral t = some n ↔ t.alphaEq (iterated f x n) = true ∨ 0 < n ∧ ∃ g, t = iterated g g n) ∧
      (∀ (g : Name) (n m : Nat), 0 < n → (iterated g g n).alphaEq (iterated f x m) = false) ∧
      ∀ t t' : Term, t.alphaEq t' = true → (∀ g n, 0 < n → t ≠ iterated g g n ∧ t' ≠ iterated g g n) →
        readNumeral t = readNumeral t' := by
  refine ⟨?numeral, ?apart, ?alpha⟩
  case numeral =>
    intro t n
    rw [readNumeral_eq_some_iff_nameless, Term.alphaEq_iff, nameless_iterated hfx]
  case apart =>
    intro g n m hn
    rw [Bool.eq_false_iff, Ne, Term.alphaEq_iff, nameless_iterated hfx]
    exact nameless_iterated_self_ne_church g hn m
  case alpha =>
    intro t t' h hdistinct
    have hread : ∀ n, readNumeral t = some n ↔ readNumeral t' = some n := by
      intro n
      have ht : ¬(0 < n ∧ ∃ g, t = iterated g g n) := fun ⟨hn, g, hg⟩ => (hdistinct g n hn).1 hg
      have ht' : ¬(0 < n ∧ ∃ g, t' = iterated g g n) := fun ⟨hn, g, hg⟩ => (hdistinct g n hn).2 hg
      rw [readNumeral_eq_some_iff_nameless, readNumeral_eq_some_iff_nameless, or_iff_left ht, or_iff_left ht',
        Term.alphaEq_iff.1 h]
    exact Option.ext hread

/-- The numeral of two with its names exchanged, and the term that is read as two without being a numeral. -/
theorem numerals_are_read_by_name_swapped :
    "f" ≠ "x" ∧ (iterated "x" "f" 2).alphaEq (iterated "f" "x" 2) = true ∧ readNumeral (iterated "x" "f" 2) = some 2 ∧
      (iterated "f" "f" 2).alphaEq (iterated "f" "x" 2) = false ∧ readNumeral (iterated "f" "f" 2) = some 2 := by
  have hfx : "f" ≠ "x" := by decide
  obtain ⟨hread, hapart, -⟩ := numerals_are_read_by_name hfx
  have halpha : (iterated "x" "f" 2).alphaEq (iterated "f" "x" 2) = true := by decide +kernel
  exact ⟨hfx, halpha, (hread _ 2).2 (.inl halpha), hapart "f" 2 2 (by decide),
    (hread _ 2).2 (.inr ⟨by decide, "f", rfl⟩)⟩

/-- The term `λf.λf.f f` is read as one, although it is no numeral and the same term with another name for its inner
binder is not read as a number. -/
theorem numeral_of_one_with_equal_binders :
    let t := Term.abs "f" (.abs "f" (.app (.var "f") (.var "f")))
    let t' := Term.abs "f" (.abs "x" (.app (.var "x") (.var "x")))
    readNumeral t = some 1 ∧ t.alphaEq (.abs "f" (.abs "x" (.app (.var "f") (.var "x")))) = false ∧
      t.alphaEq t' = true ∧ readNumeral t' = none := by
  decide +kernel

/-! ### Booleans -/

theorem readBoolean_of_nameless {t : Term} {b : Bool} (h : t.nameless = Nameless.boolean b) :
    readBoolean t = some b := by
  have htru : t.alphaEq tru = b := by
    rw [Bool.eq_iff_iff, Term.alphaEq_iff, h]
    cases b <;> decide
  have hfls : t.alphaEq fls = !b := by
    rw [Bool.eq_iff_iff, Term.alphaEq_iff, h]
    cases b <;> decide
  rw [readBoolean, htru, hfls]
  cases b <;> rfl

/-- A term is read as a boolean exactly if it is one up to the names of its binders. -/
theorem readBoolean_eq_some_iff {t : Term} {b : Bool} :
    readBoolean t = some b ↔ t.alphaEq (if b then tru else fls) = true := by
  constructor
  · intro h
    rw [readBoolean] at h
    split at h
    · rename_i htru
      cases h
      exact htru
    · split at h
      · rename_i hfls
        cases h
        exact hfls
      · cases h
  · intro h
    rw [Term.alphaEq_iff] at h
    refine readBoolean_of_nameless (h.trans ?_)
    cases b <;> decide

end Church

end LambdaCalculus
