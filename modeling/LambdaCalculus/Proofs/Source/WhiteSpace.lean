import LambdaCalculus.Proofs.Source.RoundTrip
import LambdaCalculus.Proofs.Text

/-!
# White space around a term

A text that is read as a term is read as the same term when the white space around it is removed (`parse_trim`).  The
lexemes then stand in other places, but they have the same tokens.
-/

namespace LambdaCalculus.Source

open Text (trim isWhiteSpace)

/-- The tokens of a text do not depend on where it begins. -/
private theorem Lexes.spells {offset : Nat} {text : List Char} {lexemes : List Lexeme} (h : Lexes offset text lexemes) :
    Spells text (lexemes.map Lexeme.token) := by
  induction h with
  | nil => exact .nil
  | space hc _ ih => exact ih.space hc
  | char hc _ ih => exact ih.char hc
  | ident hx hend _ ih => exact ih.ident hx hend

private theorem Lexes.of_space {offset : Nat} {c : Char} {text : List Char} {lexemes : List Lexeme}
    (h : Lexes offset (c :: text) lexemes) (hc : isWhiteSpace c = true) : Lexes (offset + 1) text lexemes := by
  generalize htext : c :: text = text' at h
  cases h with
  | nil => cases htext
  | space _ h =>
    cases htext
    exact h
  | char hc' _ =>
    cases htext
    rw [(classes_of_ofChar? hc').1] at hc
    cases hc
  | @ident _ x _ _ hx _ _ =>
    have hmem : c ∈ x.toList := by
      cases hlist : x.toList with
      | nil => simp [Source.isIdentifier, hlist] at hx
      | cons d rest =>
        rw [hlist] at htext
        simp [(List.cons.inj htext).1]
    rw [isWhiteSpace_of_isIdentRest (isIdentRest_of_mem hx hmem)] at hc
    cases hc

private theorem Spells.of_space_append {before text : List Char} {tokens : List Token}
    (hbefore : ∀ c ∈ before, isWhiteSpace c = true) (h : Spells (before ++ text) tokens) : Spells text tokens := by
  induction before with
  | nil => exact h
  | cons c before ih =>
    rw [List.forall_mem_cons] at hbefore
    obtain ⟨lexemes, hlexes, rfl⟩ := h 0
    exact ih hbefore.2 (hlexes.of_space hbefore.1).spells

private theorem Lexes.spells_of_append_space {offset : Nat} {text behind : List Char} {lexemes : List Lexeme}
    (h : Lexes offset (text ++ behind) lexemes) (hbehind : ∀ c ∈ behind, isWhiteSpace c = true) :
    Spells text (lexemes.map Lexeme.token) := by
  generalize htext : text ++ behind = text' at h
  induction h generalizing text behind with
  | nil =>
    rw [(List.append_eq_nil_iff.1 htext).1]
    exact .nil
  | space hc _ ih =>
    cases text with
    | nil =>
      subst htext
      exact ih (fun d hd => hbehind d (List.mem_cons_of_mem _ hd)) rfl
    | cons d text =>
      rw [List.cons_append, List.cons.injEq] at htext
      obtain ⟨rfl, htext⟩ := htext
      exact (ih hbehind htext).space hc
  | char hc _ ih =>
    cases text with
    | nil =>
      subst htext
      have hspace := hbehind _ (List.mem_cons_self ..)
      rw [(classes_of_ofChar? hc).1] at hspace
      cases hspace
    | cons d text =>
      rw [List.cons_append, List.cons.injEq] at htext
      obtain ⟨rfl, htext⟩ := htext
      exact (ih hbehind htext).char hc
  | @ident _ x rest _ hx hend _ ih =>
    rcases List.append_eq_append_iff.1 htext with ⟨inner, hx', rfl⟩ | ⟨text', rfl, hrest⟩
    · -- No character of the identifier is white space, so the text ends behind it.
      have hinner : inner = [] := by
        refine List.eq_nil_iff_forall_not_mem.2 fun c hc => ?_
        have hident := isIdentRest_of_mem hx (hx' ▸ List.mem_append_right text hc)
        have hspace := hbehind c (List.mem_append_left rest hc)
        rw [isWhiteSpace_of_isIdentRest hident] at hspace
        cases hspace
      subst hinner
      have hend : Spells [] _ := ih hbehind rfl
      have h := hend.ident hx .nil
      rwa [hx', List.append_nil, List.append_nil] at h
    · refine (ih hbehind hrest.symm).ident hx fun c hc => hend c ?_
      rw [hrest, List.head?_append, Option.mem_def.1 hc]
      rfl

theorem parse_trim {text : String} {t : Term} (h : parse text = .ok t) :
    parse (String.ofList (trim text.toList)) = .ok t := by
  obtain ⟨lexemes, hlex, ht⟩ := parse_eq_ok_iff.1 h
  obtain ⟨before, behind, htext, hbefore, hbehind, hfirst, -⟩ := Text.exists_trim text.toList
  have hlexes := (lexFrom_eq_ok_iff.1 hlex).1
  rw [htext] at hlexes
  obtain ⟨lexemes', hlexes', htokens⟩ := (hlexes.spells_of_append_space hbehind).of_space_append hbefore 0
  have hend : (!(trim text.toList).head?.any isWhiteSpace) = true := by
    cases hhead : (trim text.toList).head? with
    | none => rfl
    | some c => simp [hfirst c hhead]
  refine parse_eq_ok_iff.2 ⟨lexemes', ?_, htokens ▸ ht⟩
  rw [lex, String.toList_ofList]
  exact lexFrom_eq_ok_iff.2 ⟨hlexes', .inl hend⟩

end LambdaCalculus.Source
