import LambdaCalculus.Proofs.Source.Lexer
import LambdaCalculus.Proofs.Source.Parser
import LambdaCalculus.Term.Printer

/-!
# Reading back the written form of a term

A term is read back from its written form exactly if all its names are identifiers (`parse_render_iff`).

`tokensOf` gives the tokens of the written form.  They are the concrete form of the term (`isTerm_tokensOf`), and the
lexer finds them in the text (`writes_render`).  The latter is proved for the written form in front of any text that
does not continue an identifier, since a name may stand at the end of what is written.  In the other direction the
names of a term that has been read are those of tokens (`IsTerm.mem_tokens`), which are identifiers.
-/

namespace LambdaCalculus

namespace Term

/-- The names of the variables and of the binders, from left to right. -/
def names : Term → List Name
  | var x => [x]
  | abs x body => x :: body.names
  | app fn arg => fn.names ++ arg.names

/-- Whether all names are identifiers. -/
def WellNamed (t : Term) : Prop :=
  ∀ x ∈ t.names, Source.isIdentifier x = true

theorem wellNamed_var {x : Name} : (var x).WellNamed ↔ Source.isIdentifier x = true := by
  simp [WellNamed, names]

theorem wellNamed_abs {x : Name} {body : Term} :
    (abs x body).WellNamed ↔ Source.isIdentifier x = true ∧ body.WellNamed := by
  simp [WellNamed, names]

theorem wellNamed_app {fn arg : Term} : (app fn arg).WellNamed ↔ fn.WellNamed ∧ arg.WellNamed := by
  simp [WellNamed, names, or_imp, forall_and]

end Term

namespace Source

/-! ### The tokens of the written form -/

/-- The tokens, in parentheses if these are needed. -/
def enclose (needed : Bool) (tokens : List Token) : List Token :=
  if needed then .lparen :: tokens ++ [.rparen] else tokens

/-- The tokens of the written form of a term. -/
def tokensOf : Term → List Token
  | .var x => [.ident x]
  | .abs x body => .lambda :: .ident x :: .dot :: tokensOf body
  | .app fn arg => enclose fn.isAbs (tokensOf fn) ++ enclose (!arg.isVar) (tokensOf arg)

private theorem tokensOf_ne_nil (t : Term) : tokensOf t ≠ [] := by
  induction t with
  | var x => simp [tokensOf]
  | abs x body _ => simp [tokensOf]
  | app fn arg ihf _ =>
    rw [tokensOf, enclose]
    split <;> simp [ihf]

/-- In function position the tokens of a term are atoms. -/
private theorem IsTerm.isAtoms_enclose {t : Term} (h : IsTerm (tokensOf t) t)
    (hatoms : t.isAbs = false → IsAtoms (tokensOf t) t) : IsAtoms (enclose t.isAbs (tokensOf t)) t := by
  cases habs : t.isAbs with
  | true => exact .one (.paren h)
  | false => exact hatoms habs

/-- In argument position the tokens of a term are one atom. -/
private theorem IsTerm.isAtom_enclose {t : Term} (h : IsTerm (tokensOf t) t) :
    IsAtom (enclose (!t.isVar) (tokensOf t)) t := by
  cases t with
  | var x => exact .ident x
  | abs x body => exact .paren h
  | app fn arg => exact .paren h

private theorem isTerm_tokensOf_and (t : Term) :
    IsTerm (tokensOf t) t ∧ (t.isAbs = false → IsAtoms (tokensOf t) t) := by
  induction t with
  | var x =>
    have hatoms : IsAtoms [.ident x] (.var x) := .one (.ident x)
    exact ⟨.atoms hatoms, fun _ => hatoms⟩
  | abs x body ih => exact ⟨.abs x ih.1, fun h => by simp [Term.isAbs] at h⟩
  | app fn arg ihf iha =>
    have hatoms : IsAtoms (tokensOf (.app fn arg)) (.app fn arg) :=
      .more (ihf.1.isAtoms_enclose ihf.2) iha.1.isAtom_enclose
    exact ⟨.atoms hatoms, fun _ => hatoms⟩

private theorem isTerm_tokensOf (t : Term) : IsTerm (tokensOf t) t :=
  (isTerm_tokensOf_and t).1

/-! ### The text of the written form -/

/-- The text is cut into lexemes with the given tokens, wherever it begins. -/
def Spells (text : List Char) (tokens : List Token) : Prop :=
  ∀ offset, ∃ lexemes, Lexes offset text lexemes ∧ lexemes.map Lexeme.token = tokens

namespace Spells

variable {text : List Char} {tokens : List Token}

theorem nil : Spells [] [] :=
  fun offset => ⟨[], .nil offset, rfl⟩

theorem space {c : Char} (hc : Text.isWhiteSpace c = true) (h : Spells text tokens) : Spells (c :: text) tokens := by
  intro offset
  obtain ⟨lexemes, hlexes, htokens⟩ := h (offset + 1)
  exact ⟨lexemes, .space hc hlexes, htokens⟩

theorem char {c : Char} {token : Token} (hc : Token.ofChar? c = some token) (h : Spells text tokens) :
    Spells (c :: text) (token :: tokens) := by
  intro offset
  obtain ⟨lexemes, hlexes, htokens⟩ := h (offset + 1)
  exact ⟨_, .char hc hlexes, congrArg (token :: ·) htokens⟩

theorem ident {x : Name} (hx : isIdentifier x = true) (hend : EndsIdent text) (h : Spells text tokens) :
    Spells (x.toList ++ text) (.ident x :: tokens) := by
  intro offset
  obtain ⟨lexemes, hlexes, htokens⟩ := h (offset + x.length)
  exact ⟨_, .ident hx hend hlexes, congrArg (Token.ident x :: ·) htokens⟩

end Spells

/-- The text is cut into the tokens also in front of any text that does not continue an identifier. -/
def Writes (text : String) (tokens : List Token) : Prop :=
  ∀ text' tokens', EndsIdent text' → Spells text' tokens' → Spells (text.toList ++ text') (tokens ++ tokens')

private theorem Writes.enclose {text : String} {tokens : List Token} (h : Writes text tokens) (needed : Bool) :
    Writes (if needed then "(" ++ text ++ ")" else text) (enclose needed tokens) := by
  cases needed with
  | false => exact h
  | true =>
    intro text' tokens' _ h'
    have hclose : Spells (')' :: text') (.rparen :: tokens') := .char rfl h'
    have hopen := Spells.char (c := '(') rfl (h _ _ (.cons (by decide) text') hclose)
    simpa [Source.enclose] using hopen

/-- The written form of a well-named term is cut into its tokens. -/
private theorem writes_render {t : Term} (ht : t.WellNamed) : Writes t.render (tokensOf t) := by
  induction t with
  | var x =>
    intro text tokens hend h
    rw [Term.render_var]
    exact .ident (Term.wellNamed_var.1 ht) hend h
  | abs x body ih =>
    intro text tokens hend h
    obtain ⟨hx, hbody⟩ := Term.wellNamed_abs.1 ht
    have hdot : Spells ('.' :: (body.render.toList ++ text)) (.dot :: (tokensOf body ++ tokens)) :=
      .char rfl (ih hbody text tokens hend h)
    have hlambda := Spells.char (c := 'λ') rfl (.ident hx (.cons (by decide) _) hdot)
    simpa [tokensOf] using hlambda
  | app fn arg ihf iha =>
    intro text tokens hend h
    obtain ⟨hfn, harg⟩ := Term.wellNamed_app.1 ht
    have hrender : (Term.app fn arg).render = (if fn.isAbs then "(" ++ fn.render ++ ")" else fn.render) ++ " " ++
        (if !arg.isVar then "(" ++ arg.render ++ ")" else arg.render) := by
      rw [Term.render_app]
      cases arg.isVar <;> rfl
    have hargument := (iha harg).enclose (!arg.isVar) text tokens hend h
    have hspace := hargument.space (c := ' ') (by decide)
    have happ := (ihf hfn).enclose fn.isAbs _ _ (.cons (by decide) _) hspace
    simpa [hrender, tokensOf] using happ

/-! ### Names of what is read -/

mutual

private theorem IsAtom.mem_tokens {tokens : List Token} {t : Term} (h : IsAtom tokens t) {x : Name} (hx : x ∈ t.names) :
    .ident x ∈ tokens :=
  match h with
  | .ident y => by simpa [Term.names] using hx
  | .paren h => by simp [h.mem_tokens hx]

private theorem IsAtoms.mem_tokens {tokens : List Token} {t : Term} (h : IsAtoms tokens t) {x : Name}
    (hx : x ∈ t.names) : .ident x ∈ tokens :=
  match h with
  | .one h => h.mem_tokens hx
  | .more h h' => by
    rcases List.mem_append.1 hx with hx | hx
    · exact List.mem_append_left _ (h.mem_tokens hx)
    · exact List.mem_append_right _ (h'.mem_tokens hx)

private theorem IsTerm.mem_tokens {tokens : List Token} {t : Term} (h : IsTerm tokens t) {x : Name} (hx : x ∈ t.names) :
    .ident x ∈ tokens :=
  match h with
  | .atoms h => h.mem_tokens hx
  | .abs y h => by
    rcases List.mem_cons.1 hx with rfl | hx
    · simp
    · simp [h.mem_tokens hx]
  | .atomsAbs y h h' => by
    rcases List.mem_append.1 hx with hx | hx
    · exact List.mem_append_left _ (h.mem_tokens hx)
    · rcases List.mem_cons.1 hx with rfl | hx
      · simp
      · simp [h'.mem_tokens hx]

end

/-! ### The round trip -/

theorem wellNamed_of_parse {text : String} {t : Term} (h : parse text = .ok t) : t.WellNamed := by
  obtain ⟨lexemes, hlex, ht⟩ := parse_eq_ok_iff.1 h
  intro x hx
  exact (lexFrom_eq_ok_iff.1 hlex).1.isIdentifier (ht.mem_tokens hx)

theorem parse_render {t : Term} (ht : t.WellNamed) : parse t.render = .ok t := by
  have hspells := writes_render ht [] [] .nil .nil
  rw [List.append_nil, List.append_nil] at hspells
  obtain ⟨lexemes, hlexes, htokens⟩ := hspells 0
  have hne : lexemes ≠ [] := by
    rintro rfl
    exact tokensOf_ne_nil t htokens.symm
  exact parse_eq_ok_iff.2 ⟨lexemes, lexFrom_eq_ok_iff.2 ⟨hlexes, .inr hne⟩, htokens ▸ isTerm_tokensOf t⟩

theorem parse_render_iff {t : Term} : parse t.render = .ok t ↔ t.WellNamed :=
  ⟨wellNamed_of_parse, parse_render⟩

/-- Writing and reading are inverse to each other exactly on the terms with identifiers as names: these are the terms
that are read back from their written form, the written forms of two of them differ, and all terms that are read are
such terms. -/
theorem render_round_trips :
    (∀ t : Term, parse t.render = .ok t ↔ ∀ x ∈ t.names, isIdentifier x = true) ∧
      (∀ t u : Term, (∀ x ∈ t.names, isIdentifier x = true) → (∀ x ∈ u.names, isIdentifier x = true) →
        t.render = u.render → t = u) ∧
      ∀ (text : String) (t : Term), parse text = .ok t → parse t.render = .ok t := by
  refine ⟨fun t => parse_render_iff, ?injective, ?again⟩
  case injective =>
    intro t u ht hu h
    have hparse : parse t.render = .ok u := h ▸ parse_render hu
    rw [parse_render ht] at hparse
    exact Except.ok.inj hparse
  case again =>
    intro text t h
    exact parse_render (wellNamed_of_parse h)

/-- The written form has other parentheses than the text that was read, and a name with a blank is read as two. -/
theorem render_round_trips_other_parentheses :
    let text := "((λf.(f λx. f x))) λy.(y)"
    let t : Term := .app (.abs "f" (.app (.var "f") (.abs "x" (.app (.var "f") (.var "x"))))) (.abs "y" (.var "y"))
    let u := (parse "(λf.f (λx.f x)) (λy.y)").toOption.getD default
    parse text = .ok t ∧ t.render = "(λf.f (λx.f x)) (λy.y)" ∧ parse t.render = .ok t ∧
      t.render = u.render ∧ t = u ∧ parse (Term.var "a b").render ≠ .ok (.var "a b") := by
  intro text t u
  have hparse : parse text = .ok t := by decide +kernel
  have ht : ∀ x ∈ t.names, isIdentifier x = true := by decide +kernel
  have hu : ∀ x ∈ u.names, isIdentifier x = true := by decide +kernel
  have hrender : t.render = u.render := by decide +kernel
  refine ⟨hparse, by decide +kernel, render_round_trips.2.2 text t hparse, hrender,
    render_round_trips.2.1 t u ht hu hrender, ?_⟩
  intro h
  exact absurd ((render_round_trips.1 (.var "a b")).1 h "a b" (by decide)) (by decide +kernel)

end Source

end LambdaCalculus
