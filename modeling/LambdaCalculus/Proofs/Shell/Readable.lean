import LambdaCalculus.Proofs.Shell.Command
import LambdaCalculus.Proofs.Shell.Run
import LambdaCalculus.Proofs.Source.Identifiers

/-!
# What the shell shows can be read

Behind any inputs all defined names, and all names in the definitions, are identifiers (`wellNamed_after`).  The names
that an input brings in are those of terms that have been read, and the name in a `let` is checked, so a command has
such names (`wellNamed_of_read`); and the definition it makes then has them too (`wellNamed_of_made?`).

A term that is shown under a name is the definition of that name (`get?_of_mem_shown`), so the shown text is read as
that definition.
-/

namespace LambdaCalculus.Shell

open Source (isIdentifier parse)

/-! ### Names in commands -/

/-- Whether all names in a command are identifiers. -/
def Command.WellNamed : Command → Prop
  | define name t => isIdentifier name = true ∧ t.WellNamed
  | step t => t.WellNamed
  | reduce _ t => t.WellNamed
  | extract t => t.WellNamed
  | bool t => t.WellNamed
  | free t => t.WellNamed
  | alpha t u => t.WellNamed ∧ u.WellNamed
  | term t => t.WellNamed
  | _ => True

private theorem wellNamed_of_readTerm {source : List Char} {t : Term} (h : readTerm source = .ok t) : t.WellNamed :=
  Source.wellNamed_of_parse (readTerm_eq_ok_iff.1 h)

private theorem wellNamed_of_readArgument {word : Word} {source : List Char} {t : Term}
    (h : readArgument word source = .ok t) : t.WellNamed := by
  rw [readArgument] at h
  split at h
  · cases h
  · exact wellNamed_of_readTerm h

private theorem Word.Reads.wellNamed {word : Word} {args : List Char} {c : Command} (h : word.Reads args c) :
    c.WellNamed := by
  cases h with
  | define hcut hname ht => exact ⟨hname, wellNamed_of_readArgument ht⟩
  | step ht => exact wellNamed_of_readArgument ht
  | beta ht => exact wellNamed_of_readArgument ht
  | normal ht => exact wellNamed_of_readArgument ht
  | app ht => exact wellNamed_of_readArgument ht
  | trace ht => exact wellNamed_of_readArgument ht
  | extract ht => exact wellNamed_of_readArgument ht
  | bool ht => exact wellNamed_of_readArgument ht
  | free ht => exact wellNamed_of_readArgument ht
  | alpha hcut ht hu => exact ⟨wellNamed_of_readArgument ht, wellNamed_of_readArgument hu⟩
  | _ => trivial

private theorem wellNamed_of_read {input : String} {c : Command} (h : Command.read input = .ok c) : c.WellNamed := by
  cases reads_of_read h with
  | blank => trivial
  | word hblank hword h => exact h.wellNamed
  | term hblank hword ht => exact wellNamed_of_readTerm ht

/-! ### Definitions -/

variable {s : Shell}

private theorem isIdentifier_it : isIdentifier Session.it = true := by
  decide +kernel

/-- A step of a term, or the term if there is none, has identifiers for names. -/
private theorem wellNamed_normalStep? {t : Term} (ht : t.WellNamed) : (t.normalStep?.getD t).WellNamed := by
  cases h : t.normalStep? with
  | none => exact ht
  | some u => exact (Term.contracts_of_normalStep? h).wellNamed ht

/-- The definition that a command makes has identifiers for names if the command and the definitions so far have. -/
private theorem wellNamed_of_made? {c : Command} {name : Name} {t : Term} (hs : s.session.bindings.WellNamed)
    (hc : c.WellNamed) (h : s.made? c = some (name, t)) : isIdentifier name = true ∧ t.WellNamed := by
  cases c with
  | define x u =>
    cases h
    exact ⟨hc.1, hs.resolve hc.2⟩
  | step u =>
    cases h
    exact ⟨isIdentifier_it, wellNamed_normalStep? (hs.resolve hc)⟩
  | reduce mode u =>
    cases h
    exact ⟨isIdentifier_it, (Evaluator.reduces_evaluate _ _).wellNamed (hs.resolve hc)⟩
  | church n =>
    cases h
    exact ⟨isIdentifier_it, Church.wellNamed_numeral n⟩
  | term u =>
    cases h
    exact ⟨isIdentifier_it, hs.resolve hc⟩
  | _ => cases h

private theorem wellNamed_run {c : Command} (hs : s.session.bindings.WellNamed) (hc : c.WellNamed) :
    (s.run c).1.session.bindings.WellNamed := by
  rw [session_run]
  cases h : s.made? c with
  | none => exact hs
  | some p =>
    obtain ⟨hname, ht⟩ := wellNamed_of_made? hs hc h
    exact hs.insert hname ht

private theorem wellNamed_execute (hs : s.session.bindings.WellNamed) (input : String) :
    (s.execute input).1.session.bindings.WellNamed := by
  cases h : Command.read input with
  | error error =>
    rw [execute_of_read_eq_error h]
    exact hs
  | ok c =>
    rw [execute_of_read_eq_ok h]
    exact wellNamed_run hs (wellNamed_of_read h)

/-- Behind any inputs the defined names and all names in their definitions are identifiers. -/
private theorem wellNamed_after (e : Evaluator) (inputs : List String) :
    ((start e).after inputs).session.bindings.WellNamed :=
  after_induction (motive := fun s => s.session.bindings.WellNamed) Church.wellNamed_bindings
    (fun _ input hs => wellNamed_execute hs input) inputs

/-! ### What is shown -/

/-- A term in a response, what stands in front of it in its line, and the name it is the definition of. -/
structure Shown where
  label : String
  name : Name
  term : Term

/-- The terms that a response shows as definitions. -/
def Response.shown : Response → List Shown
  | vars entries => entries.map fun (name, t) => { label := "  " ++ name ++ " = ", name, term := t }
  | defined name t => [{ label := "Defined " ++ name ++ " = ", name, term := t }]
  | stepped t => [{ label := "Result: ", name := Session.it, term := t }]
  | reduced r => [{ label := "Result: ", name := Session.it, term := r.term }]
  | numeral n t => [{ label := "Church numeral for " ++ toString n ++ ": ", name := Session.it, term := t }]
  | term t => [{ label := "Parsed: ", name := Session.it, term := t }]
  | _ => []

private theorem mem_lines_of_mem_shown {response : Response} {shown : Shown} (h : shown ∈ response.shown) :
    shown.label ++ shown.term.render ∈ response.lines := by
  cases response with
  | vars entries =>
    obtain ⟨⟨name, t⟩, hmem, rfl⟩ := List.mem_map.1 h
    exact List.mem_cons_of_mem _ (List.mem_map.2 ⟨(name, t), hmem, rfl⟩)
  | reduced r =>
    cases List.mem_singleton.1 h
    simp [Response.lines]
  | defined name t =>
    cases List.mem_singleton.1 h
    exact List.mem_singleton.2 rfl
  | stepped t =>
    cases List.mem_singleton.1 h
    exact List.mem_singleton.2 rfl
  | numeral n t =>
    cases List.mem_singleton.1 h
    exact List.mem_singleton.2 rfl
  | term t =>
    cases List.mem_singleton.1 h
    exact List.mem_singleton.2 rfl
  | _ => cases h

/-- What a response shows as a definition is one, behind the command. -/
private theorem get?_of_mem_shown {c : Command} {shown : Shown} (h : shown ∈ (s.run c).2.shown) :
    (s.run c).1.session.get? shown.name = some shown.term := by
  cases c with
  | vars =>
    obtain ⟨⟨name, t⟩, hmem, rfl⟩ := List.mem_map.1 h
    exact Session.mem_toList_iff.1 hmem
  | step t =>
    rw [run] at h ⊢
    cases hstep : (s.session.resolve t).normalStep? with
    | none => simp [hstep, Response.shown] at h
    | some u =>
      simp only [hstep] at h ⊢
      cases List.mem_singleton.1 h
      exact Session.get?_define_self ..
  | define name t =>
    cases List.mem_singleton.1 h
    exact Session.get?_define_self ..
  | reduce mode t =>
    cases List.mem_singleton.1 h
    exact Session.get?_define_self ..
  | church n =>
    cases List.mem_singleton.1 h
    exact Session.get?_define_self ..
  | term t =>
    cases List.mem_singleton.1 h
    exact Session.get?_define_self ..
  | _ => cases h

/-- Behind any inputs every definition is listed in a form that is read as the term that is defined, and so is every
term that is shown as a definition in the response to a further input. -/
theorem shown_terms_are_read_back (e : Evaluator) (inputs : List String) :
    let s := (start e).after inputs
    (∀ name t, s.session.get? name = some t →
        isIdentifier name = true ∧ (∀ x ∈ t.names, isIdentifier x = true) ∧
          "  " ++ name ++ " = " ++ t.render ∈ (Response.vars s.session.toList).lines ∧ parse t.render = .ok t) ∧
      1 ≤ s.evaluator.maxSteps ∧
      (s.execute "vars").2 = .ok (.vars s.session.toList) ∧
      ∀ input response, (s.execute input).2 = .ok response →
        ∀ shown ∈ response.shown,
          shown.label ++ shown.term.render ∈ response.lines ∧
            (s.execute input).1.session.get? shown.name = some shown.term ∧
            parse shown.term.render = .ok shown.term := by
  intro s
  have hs : s.session.bindings.WellNamed := wellNamed_after e inputs
  refine ⟨?definitions, s.evaluator.maxSteps_pos, ?vars, ?responses⟩
  case definitions =>
    intro name t h
    obtain ⟨hname, ht⟩ := hs name t h
    have hmem : (name, t) ∈ s.session.toList := Session.mem_toList_iff.2 h
    exact ⟨hname, ht, List.mem_cons_of_mem _ (List.mem_map.2 ⟨(name, t), hmem, rfl⟩), Source.parse_render ht⟩
  case vars =>
    have hread : Command.read "vars" = .ok .vars := by decide +kernel
    rw [execute_of_read_eq_ok hread]
    rfl
  case responses =>
    intro input response h shown hshown
    obtain ⟨c, hread, rfl⟩ := exists_read_of_execute_eq_ok h
    have hget := get?_of_mem_shown hshown
    rw [execute_of_read_eq_ok hread]
    obtain ⟨-, ht⟩ := wellNamed_run hs (wellNamed_of_read hread) shown.name shown.term hget
    exact ⟨mem_lines_of_mem_shown hshown, hget, Source.parse_render ht⟩

/-- The binder below the substitution is renamed, behind an input that is refused and one that quits. -/
theorem shown_terms_are_read_back_renamed_binder :
    let e : Evaluator := { strategy := .normal, maxSteps := 10, trace := false, maxSteps_pos := by decide }
    let s := (start e).after ["let const λx.λy.x", "let const", "quit"]
    let t : Term := .abs "x" (.abs "y" (.var "x"))
    let r : Reduction := { term := .abs "y1" (.var "y"), steps := 1, isNormal := true, trace := #[] }
    s.session.get? "const" = some t ∧ parse t.render = .ok t ∧
      (s.execute "normal const y").2 = .ok (.reduced r) ∧ parse r.term.render = .ok r.term := by
  intro e s t r
  have hconst : s.session.get? "const" = some t := by decide +kernel
  have hnormal : (s.execute "normal const y").2 = .ok (.reduced r) := by decide +kernel
  obtain ⟨hdefinitions, -, -, hresponses⟩ :=
    shown_terms_are_read_back e ["let const λx.λy.x", "let const", "quit"]
  exact ⟨hconst, (hdefinitions "const" t hconst).2.2.2, hnormal,
    (hresponses "normal const y" (.reduced r) hnormal _ (List.mem_singleton_self _)).2.2⟩

end LambdaCalculus.Shell
