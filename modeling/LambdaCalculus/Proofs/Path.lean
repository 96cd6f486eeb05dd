import LambdaCalculus.Term.Path

/-!
# Lookup and replacement at a path

A step to a child is a lens: what has been put there is found there (`child?_of_setChild?`), putting back what is there
changes nothing (`setChild?_of_child?`), the last of several terms put there stays (`setChild?_of_setChild?`), and the
other children do not notice (`child?_of_setChild?_of_ne`, `setChild?_comm`).  A replacement at the end of a path goes
down to a child, replaces there and puts the result back (`replace?_cons`).  So the laws of one step carry over to paths
by induction, and two paths that part at some node meet different children there.
-/

namespace LambdaCalculus

/-! ### Paths that part -/

namespace Path

/-- The paths part at some node: from there they go on to different children. -/
inductive Forks : Path → Path → Prop where
  | here {d d' : Direction} (hd : d ≠ d') (p q : Path) : Forks (d :: p) (d' :: q)
  | cons (d : Direction) {p q : Path} (h : Forks p q) : Forks (d :: p) (d :: q)

private theorem forks_of_not_prefix {p q : Path} (hpq : ¬ p <+: q) (hqp : ¬ q <+: p) : Forks p q := by
  induction p generalizing q with
  | nil => exact absurd List.nil_prefix hpq
  | cons d p ih =>
    cases q with
    | nil => exact absurd List.nil_prefix hqp
    | cons d' q =>
      by_cases hd : d = d'
      · subst hd
        rw [List.cons_prefix_cons, and_iff_right rfl] at hpq hqp
        exact .cons d (ih hpq hqp)
      · exact .here hd p q

end Path

namespace Term

variable {t u r : Term}

/-! ### One step -/

/-- The term with `c` in place of the child in the given direction. -/
def setChild? : Term → Direction → Term → Option Term
  | app _ arg, .left, c => some (app c arg)
  | app fn _, .right, c => some (app fn c)
  | abs x _, .body, c => some (abs x c)
  | _, _, _ => none

private theorem isSome_setChild? (t : Term) (d : Direction) (c : Term) :
    (t.setChild? d c).isSome = (t.child? d).isSome := by
  cases t <;> cases d <;> rfl

private theorem child?_of_setChild? {d : Direction} {c : Term} (h : t.setChild? d c = some u) :
    u.child? d = some c := by
  cases t <;> cases d <;> cases h <;> rfl

private theorem setChild?_of_child? {d : Direction} {c : Term} (h : t.child? d = some c) :
    t.setChild? d c = some t := by
  cases t <;> cases d <;> cases h <;> rfl

private theorem setChild?_of_setChild? {d : Direction} {c : Term} (h : t.setChild? d c = some u) (c' : Term) :
    u.setChild? d c' = t.setChild? d c' := by
  cases t <;> cases d <;> cases h <;> rfl

private theorem child?_of_setChild?_of_ne {d d' : Direction} {c : Term} (hd : d ≠ d') (h : t.setChild? d c = some u) :
    u.child? d' = t.child? d' := by
  cases t <;> cases d <;> cases h <;> cases d' <;> simp_all [child?]

private theorem setChild?_comm {d d' : Direction} (hd : d ≠ d') (t c c' : Term) :
    (t.setChild? d c).bind (·.setChild? d' c') = (t.setChild? d' c').bind (·.setChild? d c) := by
  cases t <;> cases d <;> cases d' <;> simp_all [setChild?]

/-! ### Paths -/

private theorem replace?_nil (t r : Term) : t.replace? [] r = some r := by
  rw [replace?]

theorem replace?_cons (t : Term) (d : Direction) (p : Path) (r : Term) :
    t.replace? (d :: p) r = ((t.child? d).bind (·.replace? p r)).bind (t.setChild? d) := by
  cases t <;> cases d <;> simp only [replace?, child?, Option.bind_some, Option.bind_none] <;>
    exact Option.map_eq_bind

private theorem replace?_cons_eq_some_iff {d : Direction} {p : Path} :
    t.replace? (d :: p) r = some u ↔
      ∃ c s, t.child? d = some c ∧ c.replace? p r = some s ∧ t.setChild? d s = some u := by
  rw [replace?_cons, Option.bind_assoc]
  simp only [Option.bind_eq_some_iff, exists_and_left]

/-- A subterm can be replaced exactly where there is one. -/
theorem isSome_replace? (t : Term) (p : Path) (r : Term) : (t.replace? p r).isSome = (t.subterm? p).isSome := by
  induction p generalizing t with
  | nil => rw [replace?_nil, subterm?, Option.isSome_some, Option.isSome_some]
  | cons d p ih =>
    rw [replace?_cons, subterm?]
    cases hc : t.child? d with
    | none => rfl
    | some c =>
      rw [Option.bind_some, Option.bind_some, ← ih]
      cases c.replace? p r with
      | none => rfl
      | some s => rw [Option.bind_some, isSome_setChild?, hc, Option.isSome_some, Option.isSome_some]

/-- What has been put in is found there. -/
private theorem subterm?_of_replace? {p : Path} (h : t.replace? p r = some u) : u.subterm? p = some r := by
  induction p generalizing t u with
  | nil =>
    rw [replace?_nil] at h
    exact h.symm
  | cons d p ih =>
    obtain ⟨c, s, -, hs, hset⟩ := replace?_cons_eq_some_iff.1 h
    rw [subterm?, child?_of_setChild? hset]
    exact ih hs

/-- Putting in the subterm that is there changes nothing. -/
private theorem replace?_of_subterm? {s : Term} {p : Path} (h : t.subterm? p = some s) : t.replace? p s = some t := by
  induction p generalizing t with
  | nil =>
    rw [replace?_nil]
    exact h.symm
  | cons d p ih =>
    obtain ⟨c, hc, hs⟩ := Option.bind_eq_some_iff.1 h
    exact replace?_cons_eq_some_iff.2 ⟨c, c, hc, ih hs, setChild?_of_child? hc⟩

/-- The last of several terms put in stays. -/
private theorem replace?_of_replace? {p : Path} (h : t.replace? p r = some u) (r' : Term) :
    u.replace? p r' = t.replace? p r' := by
  induction p generalizing t u with
  | nil => rw [replace?_nil, replace?_nil]
  | cons d p ih =>
    obtain ⟨c, s, hc, hs, hset⟩ := replace?_cons_eq_some_iff.1 h
    rw [replace?_cons, replace?_cons, child?_of_setChild? hset, hc, Option.bind_some, Option.bind_some, ih hs,
      funext (setChild?_of_setChild? hset)]

/-! ### Replacements at two paths -/

/-- A replacement is not noticed at a path that parts from its own. -/
private theorem subterm?_of_replace?_of_forks {p q : Path} (hpq : p.Forks q) (h : t.replace? p r = some u) :
    u.subterm? q = t.subterm? q := by
  induction hpq generalizing t u with
  | here hd p q =>
    obtain ⟨c, s, -, -, hset⟩ := replace?_cons_eq_some_iff.1 h
    rw [subterm?, subterm?, child?_of_setChild?_of_ne hd hset]
  | cons d _ ih =>
    obtain ⟨c, s, hc, hs, hset⟩ := replace?_cons_eq_some_iff.1 h
    rw [subterm?, subterm?, child?_of_setChild? hset, hc]
    exact ih hs

/-- Two replacements below different children are made apart from each other and put back one after the other. -/
private theorem replace?_bind_replace?_of_ne {d d' : Direction} (hd : d ≠ d') (t : Term) (p q : Path) (r r' : Term) :
    (t.replace? (d :: p) r).bind (·.replace? (d' :: q) r') =
      ((t.child? d).bind (·.replace? p r)).bind fun s =>
        ((t.child? d').bind (·.replace? q r')).bind fun s' => (t.setChild? d s).bind (·.setChild? d' s') := by
  rw [replace?_cons, Option.bind_assoc]
  refine Option.bind_congr fun s _ => ?_
  cases hset : t.setChild? d s with
  | none => simp only [Option.bind_none, Option.bind_fun_none]
  | some u =>
    rw [Option.bind_some, replace?_cons, child?_of_setChild?_of_ne hd hset]
    rfl

/-- Two replacements below the same child are made within this child. -/
private theorem replace?_bind_replace?_of_child? {d : Direction} {c : Term} (hc : t.child? d = some c) (p q : Path)
    (r r' : Term) :
    (t.replace? (d :: p) r).bind (·.replace? (d :: q) r') =
      ((c.replace? p r).bind (·.replace? q r')).bind (t.setChild? d) := by
  rw [replace?_cons, hc, Option.bind_some, Option.bind_assoc, Option.bind_assoc]
  refine Option.bind_congr fun s _ => ?_
  have hsome : (t.setChild? d s).isSome = true := by rw [isSome_setChild?, hc, Option.isSome_some]
  obtain ⟨u, hset⟩ := Option.isSome_iff_exists.1 hsome
  rw [hset, Option.bind_some, replace?_cons, child?_of_setChild? hset, Option.bind_some,
    funext (setChild?_of_setChild? hset)]

/-- Replacements at paths that part can be made in any order. -/
private theorem replace?_comm {p q : Path} (hpq : p.Forks q) (t r r' : Term) :
    (t.replace? p r).bind (·.replace? q r') = (t.replace? q r').bind (·.replace? p r) := by
  induction hpq generalizing t with
  | here hd p q =>
    rw [replace?_bind_replace?_of_ne hd, replace?_bind_replace?_of_ne hd.symm, Option.bind_comm]
    simp only [setChild?_comm hd]
  | @cons d p q _ ih =>
    cases hc : t.child? d with
    | none => rw [replace?_cons, replace?_cons, hc]; rfl
    | some c => rw [replace?_bind_replace?_of_child? hc, replace?_bind_replace?_of_child? hc, ih]

/-- Lookup and replacement at a path form a lens: both are possible at the same paths, what has been put in is found
there, putting in what is there changes nothing, and the last of several terms put in stays.  At a path that parts from
it, a replacement is not noticed, and two such replacements can be made in any order. -/
theorem replacement_is_lens (t : Term) (p : Path) (r : Term) :
    (t.replace? p r = none ↔ t.subterm? p = none) ∧
      (∀ u, t.replace? p r = some u → u.subterm? p = some r ∧ ∀ r', u.replace? p r' = t.replace? p r') ∧
      (∀ s, t.subterm? p = some s → t.replace? p s = some t) ∧
      ∀ q, ¬ p <+: q → ¬ q <+: p →
        (∀ u, t.replace? p r = some u → u.subterm? q = t.subterm? q) ∧
          ∀ r', (t.replace? p r).bind (·.replace? q r') = (t.replace? q r').bind (·.replace? p r) := by
  refine ⟨?_, fun u hu => ⟨subterm?_of_replace? hu, replace?_of_replace? hu⟩, fun s => replace?_of_subterm?,
    fun q hpq hqp => ?_⟩
  · rw [← Option.not_isSome_iff_eq_none, ← Option.not_isSome_iff_eq_none, isSome_replace?]
  · have hforks := Path.forks_of_not_prefix hpq hqp
    exact ⟨fun u => subterm?_of_replace?_of_forks hforks, replace?_comm hforks t r⟩

/-- Two places on different sides of an application below a binder, and a path that leaves the term behind the fork. -/
theorem replacement_is_lens_below_binder :
    let t := abs "x" (app (abs "y" (app (var "y") (var "z"))) (var "x"))
    let p : Path := [.body, .left, .body, .right]
    let q : Path := [.body, .right]
    let beyond : Path := [.body, .right, .left]
    let u := abs "x" (app (abs "y" (app (var "y") (var "y"))) (var "x"))
    t.replace? p (var "y") = some u ∧ u.subterm? p = some (var "y") ∧ u.replace? p (var "z") = some t ∧
      u.subterm? q = some (var "x") ∧ u.subterm? beyond = none ∧
      (t.replace? p (var "y")).bind (·.replace? q t) = (t.replace? q t).bind (·.replace? p (var "y")) := by
  intro t p q beyond u
  obtain ⟨-, hget, hput, haway⟩ := replacement_is_lens t p (var "y")
  obtain ⟨hnotice, hcomm⟩ := haway q (by decide) (by decide)
  obtain ⟨hfound, hagain⟩ := hget u rfl
  refine ⟨rfl, hfound, ?_, hnotice u rfl, ?_, hcomm t⟩
  · rw [hagain, hput (var "z") rfl]
  · exact (haway beyond (by decide) (by decide)).1 u rfl

end Term

end LambdaCalculus
