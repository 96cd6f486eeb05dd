import LambdaCalculus.Proofs.Reduction.Contraction
import LambdaCalculus.Reduction.Strategy
import Mathlib.Data.List.Lex

/-!
# The redexes of a term in order

A path precedes another (`Path.Precedes`) if the other goes on from its end, or if the two part at an application and
the first goes left there.  `redexes` lists the paths to the redexes of a term in this order (`mem_redexes_iff`,
`pairwise_redexes`), so the first of the list is the leftmost of the outermost redexes and the last of the list is the
rightmost of the innermost ones.  The two strategies search the list from its two ends: normal order contracts the
first redex (`normalStep?_eq`) and applicative order finds the last (`innermostRedex?_eq`).  The list is empty exactly
if the term is normal (`redexes_eq_nil_iff`).
-/

namespace LambdaCalculus

/-! ### The order of paths -/

namespace Path

/-- `q` goes on from the end of `p`, or where they first differ, `p` goes left and `q` goes right. -/
def Precedes (p q : Path) : Prop :=
  (p <+: q ∧ p ≠ q) ∨ ∃ common p' q' : Path, p = common ++ .left :: p' ∧ q = common ++ .right :: q'

private theorem precedes_nil_cons (d : Direction) (q : Path) : Precedes [] (d :: q) :=
  .inl ⟨List.nil_prefix, (List.cons_ne_nil d q).symm⟩

private theorem precedes_left_right (p q : Path) : Precedes (.left :: p) (.right :: q) :=
  .inr ⟨[], p, q, rfl, rfl⟩

private theorem Precedes.cons {p q : Path} (h : Precedes p q) (d : Direction) : Precedes (d :: p) (d :: q) := by
  rcases h with ⟨hpq, hne⟩ | ⟨common, p', q', rfl, rfl⟩
  · left
    refine ⟨List.cons_prefix_cons.2 ⟨rfl, hpq⟩, ?_⟩
    intro h
    exact hne (List.cons.inj h).2
  · right
    exact ⟨d :: common, p', q', rfl, rfl⟩

/-- Of two directions, the one goes left where the other goes right. -/
private def IsLeftOf (d d' : Direction) : Prop :=
  d = .left ∧ d' = .right

private instance : Std.Asymm IsLeftOf where
  asymm := by
    rintro d d' ⟨rfl, -⟩ ⟨-, h⟩
    cases h

/-- The order is asymmetric as a lexicographic one. -/
private theorem Precedes.lex {p q : Path} (h : Precedes p q) : List.Lex IsLeftOf p q := by
  rcases h with ⟨⟨rest, rfl⟩, hne⟩ | ⟨common, p', q', rfl, rfl⟩
  · cases rest with
    | nil => exact absurd (List.append_nil p).symm hne
    | cons d rest => simpa using List.Lex.append_left IsLeftOf (.nil (a := d) (l := rest)) p
  · exact List.Lex.append_left IsLeftOf (.rel ⟨rfl, rfl⟩) common

private theorem Precedes.asymm {p q : Path} (h : Precedes p q) : ¬ Precedes q p :=
  fun h' => Std.Asymm.asymm _ _ h.lex h'.lex

end Path

namespace Term

/-! ### Redexes by their paths -/

/-- There is a redex at the end of the path. -/
def RedexAt (t : Term) (path : Path) : Prop :=
  ∃ redex, t.subterm? path = some redex ∧ redex.isRedex = true

theorem contractAt?_eq_some_iff {t u : Term} {path : Path} :
    t.contractAt? path = some u ↔
      ∃ x body arg, t.subterm? path = some (app (abs x body) arg) ∧ t.replace? path (body.subst x arg) = some u := by
  constructor
  · intro h
    obtain ⟨redex, hredex, h⟩ := Option.bind_eq_some_iff.1 h
    obtain ⟨reduced, hreduced, h⟩ := Option.bind_eq_some_iff.1 h
    obtain ⟨x, body, arg, rfl, rfl⟩ := contract?_eq_some_iff.1 hreduced
    exact ⟨x, body, arg, hredex, h⟩
  · rintro ⟨x, body, arg, hredex, h⟩
    simp [contractAt?, hredex, contract?, h]

/-- A redex can be contracted. -/
theorem RedexAt.exists_contractAt? {t : Term} {path : Path} (h : t.RedexAt path) :
    ∃ u, t.contractAt? path = some u := by
  obtain ⟨redex, hredex, hisRedex⟩ := h
  cases redex with
  | app fn arg =>
    obtain ⟨x, body, rfl⟩ := exists_eq_abs_of_isAbs hisRedex
    have hsome : (t.replace? path (body.subst x arg)).isSome = true := by
      rw [isSome_replace?, hredex, Option.isSome_some]
    obtain ⟨u, hu⟩ := Option.isSome_iff_exists.1 hsome
    exact ⟨u, contractAt?_eq_some_iff.2 ⟨x, body, arg, hredex, hu⟩⟩
  | _ => cases hisRedex

/-- The paths to the redexes: first the term itself, then to the left, then to the right. -/
def redexes : Term → List Path
  | var _ => []
  | abs _ body => body.redexes.map (.body :: ·)
  | app fn arg =>
    (if isRedex (app fn arg) then [[]] else []) ++
      (fn.redexes.map (.left :: ·) ++ arg.redexes.map (.right :: ·))

theorem mem_redexes_iff {t : Term} {path : Path} : path ∈ t.redexes ↔ t.RedexAt path := by
  induction t generalizing path with
  | var x =>
    cases path with
    | nil => simp [redexes, RedexAt, subterm?, isRedex]
    | cons d path => simp [redexes, RedexAt, subterm?, child?]
  | abs x body ih =>
    cases path with
    | nil => simp [redexes, RedexAt, subterm?, isRedex]
    | cons d path =>
      simp only [redexes, List.mem_map, ih]
      cases d <;> simp [RedexAt, subterm?, child?]
  | app fn arg ihf iha =>
    simp only [redexes, List.mem_append, List.mem_map, ihf, iha]
    cases path with
    | nil => simp [RedexAt, subterm?]
    | cons d path => cases d <;> simp [RedexAt, subterm?, child?]

theorem exists_contractAt?_of_mem_redexes {t : Term} {path : Path} (h : path ∈ t.redexes) :
    ∃ u, t.contractAt? path = some u :=
  (mem_redexes_iff.1 h).exists_contractAt?

theorem redexes_eq_nil_iff {t : Term} : t.redexes = [] ↔ t.isNormal = true := by
  induction t with
  | var x => simp [redexes, isNormal]
  | abs x body ih => rw [redexes, List.map_eq_nil_iff, ih, isNormal]
  | app fn arg ihf iha =>
    rw [redexes, List.append_eq_nil_iff, List.append_eq_nil_iff, List.map_eq_nil_iff, List.map_eq_nil_iff, ihf, iha,
      isRedex, isNormal]
    cases fn.isAbs <;> simp

private theorem pairwise_redexes (t : Term) : t.redexes.Pairwise Path.Precedes := by
  have hcons : ∀ {l : List Path} (d : Direction), l.Pairwise Path.Precedes →
      (l.map (d :: ·)).Pairwise Path.Precedes := by
    intro l d hl
    exact List.pairwise_map.2 (hl.imp fun h => h.cons d)
  induction t with
  | var x => exact .nil
  | abs x body ih => exact hcons .body ih
  | app fn arg ihf iha =>
    rw [redexes, List.pairwise_append, List.pairwise_append]
    refine ⟨?_, ⟨hcons .left ihf, hcons .right iha, ?_⟩, ?_⟩
    · split <;> simp
    · -- the two parts of the application
      intro p hp q hq
      obtain ⟨p, -, rfl⟩ := List.mem_map.1 hp
      obtain ⟨q, -, rfl⟩ := List.mem_map.1 hq
      exact Path.precedes_left_right p q
    · -- the application itself and what is below it
      intro p hp q hq
      have hnil : p = [] := by
        split at hp
        · exact List.mem_singleton.1 hp
        · cases hp
      subst hnil
      rcases List.mem_append.1 hq with hq | hq
      · obtain ⟨q, -, rfl⟩ := List.mem_map.1 hq
        exact Path.precedes_nil_cons _ q
      · obtain ⟨q, -, rfl⟩ := List.mem_map.1 hq
        exact Path.precedes_nil_cons _ q

/-! ### The ends of the list -/

/-- The redex at the end of the path precedes all others. -/
def IsFirstRedex (t : Term) (p : Path) : Prop :=
  t.RedexAt p ∧ ∀ q, t.RedexAt q → q ≠ p → p.Precedes q

/-- All others precede the redex at the end of the path. -/
def IsLastRedex (t : Term) (p : Path) : Prop :=
  t.RedexAt p ∧ ∀ q, t.RedexAt q → q ≠ p → q.Precedes p

/-- The first entry of a list in the order of an asymmetric relation. -/
private theorem head?_eq_some_iff_of_pairwise {α : Type} {R : α → α → Prop} (hR : ∀ {a b}, R a b → ¬ R b a)
    {l : List α} (hl : l.Pairwise R) {a : α} : l.head? = some a ↔ a ∈ l ∧ ∀ b ∈ l, b ≠ a → R a b := by
  cases l with
  | nil => simp
  | cons c l =>
    rw [List.pairwise_cons] at hl
    rw [List.head?_cons, Option.some.injEq]
    constructor
    · rintro rfl
      refine ⟨List.mem_cons_self .., fun b hb hne => ?_⟩
      rcases List.mem_cons.1 hb with rfl | hb
      · exact absurd rfl hne
      · exact hl.1 b hb
    · rintro ⟨ha, hfirst⟩
      rcases List.mem_cons.1 ha with rfl | ha
      · rfl
      · by_cases hca : c = a
        · exact hca
        · exact absurd (hl.1 a ha) (hR (hfirst c (List.mem_cons_self ..) hca))

theorem isFirstRedex_iff {t : Term} {p : Path} : t.IsFirstRedex p ↔ t.redexes.head? = some p := by
  rw [head?_eq_some_iff_of_pairwise Path.Precedes.asymm t.pairwise_redexes]
  simp only [mem_redexes_iff, IsFirstRedex]

theorem isLastRedex_iff {t : Term} {p : Path} : t.IsLastRedex p ↔ t.redexes.getLast? = some p := by
  have hreverse : t.redexes.reverse.Pairwise (fun p q => Path.Precedes q p) :=
    List.pairwise_reverse.2 t.pairwise_redexes
  rw [← List.head?_reverse, head?_eq_some_iff_of_pairwise (fun h => h.asymm) hreverse]
  simp only [List.mem_reverse, mem_redexes_iff, IsLastRedex]

theorem normalStep?_redex (x : Name) (body arg : Term) :
    (app (abs x body) arg).normalStep? = some (body.subst x arg) :=
  rfl

theorem normalStep?_app_of_not_isAbs {fn : Term} (h : fn.isAbs = false) (arg : Term) :
    (app fn arg).normalStep? =
      match fn.normalStep? with
      | some fn => some (app fn arg)
      | none => arg.normalStep?.map (app fn) := by
  cases fn with
  | abs x body => simp [isAbs] at h
  | _ => rfl

/-- Normal order contracts the first redex. -/
theorem normalStep?_eq (t : Term) : t.normalStep? = t.redexes.head?.bind t.contractAt? := by
  induction t with
  | var x => rfl
  | abs x body ih =>
    rw [normalStep?, ih, redexes, List.head?_map]
    cases body.redexes.head? with
    | none => rfl
    | some p => exact (contractAt?_body x body p).symm
  | app fn arg ihf iha =>
    cases hfn : fn.isAbs with
    | true =>
      obtain ⟨x, body, rfl⟩ := exists_eq_abs_of_isAbs hfn
      rw [normalStep?_redex, redexes]
      simp [isRedex, isAbs, contractAt?_nil, contract?]
    | false =>
      have hredexes : (app fn arg).redexes = fn.redexes.map (.left :: ·) ++ arg.redexes.map (.right :: ·) := by
        simp [redexes, isRedex, hfn]
      rw [normalStep?_app_of_not_isAbs hfn, ihf, iha, hredexes, List.head?_append, List.head?_map, List.head?_map]
      cases hp : fn.redexes.head? with
      | none =>
        cases arg.redexes.head? with
        | none => rfl
        | some q => exact (contractAt?_right fn arg q).symm
      | some p =>
        -- the search goes on to the right only if there is no redex on the left, and this one can be contracted
        obtain ⟨fn', hfn'⟩ := exists_contractAt?_of_mem_redexes (List.mem_of_head? hp)
        simp [hfn', contractAt?_left]

/-- Applicative order finds the last redex. -/
theorem innermostRedex?_eq (t : Term) : t.innermostRedex? = t.redexes.getLast? := by
  induction t with
  | var x => rfl
  | abs x body ih => rw [innermostRedex?, ih, redexes, List.getLast?_map]
  | app fn arg ihf iha =>
    rw [innermostRedex?, ihf, iha, redexes, List.getLast?_append, List.getLast?_append, List.getLast?_map,
      List.getLast?_map]
    cases arg.redexes.getLast? with
    | some p => rfl
    | none =>
      cases fn.redexes.getLast? with
      | some p => rfl
      | none => by_cases h : isRedex (app fn arg) = true <;> simp [h]

/-! ### The redexes of the strategies -/

private theorem existsUnique_eq_some {α : Type} {o : Option α} (h : o ≠ none) : ∃! a, o = some a := by
  obtain ⟨a, ha⟩ := Option.ne_none_iff_exists'.1 h
  exact ⟨a, ha, fun b hb => Option.some.inj (hb.symm.trans ha)⟩

theorem existsUnique_isFirstRedex {t : Term} (h : ∃ path, t.RedexAt path) : ∃! p, t.IsFirstRedex p := by
  obtain ⟨path, hpath⟩ := h
  have hne : t.redexes ≠ [] := List.ne_nil_of_mem (mem_redexes_iff.2 hpath)
  simp only [isFirstRedex_iff]
  exact existsUnique_eq_some (mt List.head?_eq_none_iff.1 hne)

theorem existsUnique_isLastRedex {t : Term} (h : ∃ path, t.RedexAt path) : ∃! p, t.IsLastRedex p := by
  obtain ⟨path, hpath⟩ := h
  have hne : t.redexes ≠ [] := List.ne_nil_of_mem (mem_redexes_iff.2 hpath)
  simp only [isLastRedex_iff]
  exact existsUnique_eq_some (mt List.getLast?_eq_none_iff.1 hne)

theorem IsFirstRedex.normalStep? {t : Term} {p : Path} (h : t.IsFirstRedex p) :
    t.normalStep? = t.contractAt? p := by
  rw [normalStep?_eq, isFirstRedex_iff.1 h, Option.bind_some]

theorem IsLastRedex.innermostRedex? {t : Term} {p : Path} (h : t.IsLastRedex p) : t.innermostRedex? = some p := by
  rw [innermostRedex?_eq, isLastRedex_iff.1 h]

theorem IsLastRedex.applicativeStep? {t : Term} {p : Path} (h : t.IsLastRedex p) :
    t.applicativeStep? = t.contractAt? p := by
  rw [Term.applicativeStep?, h.innermostRedex?]
  rfl

end Term

end LambdaCalculus
