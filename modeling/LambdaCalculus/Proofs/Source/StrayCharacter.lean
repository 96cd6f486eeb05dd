import LambdaCalculus.Proofs.Source.Tiling
import Mathlib.Control.Monad.Basic

/-!
# Where the lexer stops

A character is stray if it belongs to no token: none begins with it, and it does not continue an identifier either.  A
text with a stray character has no tiling, and the lexer reports the first of them.  The only other text that it refuses
is white space alone (`lexemes_tile_text`).

`Reached` says what is known of a position to which the lexer has come: there is no stray character in front of it, and
no identifier goes on there.  Each of its moves keeps this (`Reached.space`, `Reached.char`, `Reached.ident`), and it is
why a digit or an underscore that the lexer meets is stray (`Reached.isFirstStray`).  So its whole run ends in one of
three ways (`Reached.outcome`).
-/

namespace LambdaCalculus.Source

open Text (isWhiteSpace)

variable {text : List Char} {start : Nat}

/-! ### Stray characters -/

/-- Whether the last characters of the text are an identifier. -/
def EndsWithIdent (text : List Char) : Prop :=
  ∃ x : Name, isIdentifier x = true ∧ x.toList <:+ text

/-- The character `c` at the position `i` belongs to no token. -/
structure Stray (text : List Char) (i : Nat) (c : Char) : Prop where
  at_position : text[i]? = some c
  not_space : isWhiteSpace c = false
  not_symbol : c ∉ ['(', ')', '.', 'λ', '\\']
  not_start : isIdentStart c = false
  /-- If an identifier can go on with the character, there is none in front of it. -/
  not_rest : isIdentRest c = true → ¬EndsWithIdent (text.take i)

structure IsFirstStray (text : List Char) (i : Nat) (c : Char) : Prop where
  stray : Stray text i c
  first : ∀ j < i, ∀ d, ¬Stray text j d

private theorem ofChar?_eq_none_iff {c : Char} : Token.ofChar? c = none ↔ c ∉ ['(', ')', '.', 'λ', '\\'] := by
  unfold Token.ofChar?
  split <;> simp_all

private theorem not_endsWithIdent_nil : ¬EndsWithIdent [] := by
  rintro ⟨x, hx, hsuffix⟩
  have hpos := length_pos_of_isIdentifier hx
  rw [← String.length_toList, List.suffix_nil.1 hsuffix] at hpos
  exact absurd hpos (Nat.lt_irrefl 0)

private theorem not_endsWithIdent_append {c : Char} (hc : isIdentRest c = false) (before : List Char) :
    ¬EndsWithIdent (before ++ [c]) := by
  rintro ⟨x, hx, hsuffix⟩
  rcases List.suffix_concat_iff.1 hsuffix with hnil | ⟨front, hfront, -⟩
  · exact not_endsWithIdent_nil ⟨x, hx, hnil ▸ List.suffix_rfl⟩
  · have hrest := isIdentRest_of_mem hx (hfront ▸ List.mem_append_right front (List.mem_singleton_self c))
    rw [hc] at hrest
    cases hrest

/-- The first characters of an identifier are an identifier. -/
private theorem isIdentifier_take {x : Name} (hx : isIdentifier x = true) (k : Nat) :
    isIdentifier (String.ofList (x.toList.take (k + 1))) = true := by
  unfold isIdentifier at hx ⊢
  rw [String.toList_ofList]
  cases hlist : x.toList with
  | nil => simp [hlist] at hx
  | cons c rest =>
    rw [hlist, Bool.and_eq_true, List.all_eq_true] at hx
    rw [List.take_succ_cons, Bool.and_eq_true, List.all_eq_true]
    exact ⟨hx.1, fun d hd => hx.2 d (List.mem_of_mem_take hd)⟩

private theorem isIdentStart_of_getElem? {x : Name} (hx : isIdentifier x = true) {c : Char}
    (hc : x.toList[0]? = some c) : isIdentStart c = true := by
  unfold isIdentifier at hx
  cases hlist : x.toList with
  | nil => simp [hlist] at hx
  | cons d rest =>
    rw [hlist] at hx hc
    cases hc
    exact (Bool.and_eq_true_iff.1 hx).1

/-- No character of an identifier is stray. -/
private theorem not_stray_of_ident {x : Name} (hx : isIdentifier x = true) {rest : List Char}
    (hrest : text.drop start = x.toList ++ rest) {k : Nat} (hk : k < x.length) (c : Char) :
    ¬Stray text (start + k) c := by
  intro hstray
  rw [← String.length_toList] at hk
  have hget : x.toList[k]? = some c := by
    rw [← List.getElem?_append_left hk, ← hrest, List.getElem?_drop]
    exact hstray.at_position
  cases k with
  | zero =>
    have hstart := hstray.not_start
    rw [isIdentStart_of_getElem? hx hget] at hstart
    cases hstart
  | succ k =>
    -- the characters of `x` in front of this one are an identifier already
    have htake : text.take (start + (k + 1)) = text.take start ++ x.toList.take (k + 1) :=
      calc text.take (start + (k + 1)) = text.take start ++ (text.drop start).take (k + 1) := List.take_add
        _ = text.take start ++ x.toList.take (k + 1) := by
          rw [hrest, List.take_append_of_le_length (Nat.le_of_lt hk)]
    refine hstray.not_rest (isIdentRest_of_mem hx (List.mem_of_getElem? hget)) ⟨_, isIdentifier_take hx k, ?_⟩
    rw [htake, String.toList_ofList]
    exact List.suffix_append ..

/-! ### The lexer on its way -/

/-- The lexer can be at the position, where it takes the text for blank so far unless `canEnd`. -/
structure Reached (text : List Char) (start : Nat) (canEnd : Bool) : Prop where
  le_length : start ≤ text.length
  /-- No stray character stands in front of the position. -/
  clean : ∀ i < start, ∀ c, ¬Stray text i c
  /-- No identifier goes on at the position. -/
  ends : ∀ c, text[start]? = some c → isIdentRest c = true → ¬EndsWithIdent (text.take start)
  blank : canEnd = false ↔ text.head?.any isWhiteSpace = true ∧ ∀ c ∈ text.take start, isWhiteSpace c = true

namespace Reached

variable {canEnd : Bool} {c : Char} {rest : List Char}

private theorem zero (text : List Char) : Reached text 0 (!text.head?.any isWhiteSpace) where
  le_length := Nat.zero_le _
  clean := fun _ hi => absurd hi (Nat.not_lt_zero _)
  ends := fun _ _ _ => not_endsWithIdent_nil
  blank := by simp

/-- Behind a character that is not stray and cannot continue an identifier. -/
private theorem succ (h : Reached text start canEnd) (hrest : text.drop start = c :: rest)
    (hstray : ¬Stray text start c) (hident : isIdentRest c = false) {canEnd' : Bool}
    (hblank : canEnd' = false ↔
      text.head?.any isWhiteSpace = true ∧ ∀ d ∈ text.take start ++ [c], isWhiteSpace d = true) :
    Reached text (start + 1) canEnd' := by
  obtain ⟨hc, -, htake⟩ := of_drop_eq_cons hrest
  refine ⟨(List.getElem?_eq_some_iff.1 hc).1, fun i hi d hd => ?clean, fun _ _ _ => ?ends, htake ▸ hblank⟩
  case clean =>
    rcases Nat.eq_or_lt_of_le (Nat.le_of_lt_succ hi) with rfl | hi
    · have heq := hd.at_position
      rw [hc] at heq
      cases heq
      exact hstray hd
    · exact h.clean i hi d hd
  case ends =>
    rw [htake]
    exact not_endsWithIdent_append hident _

/-- Once there is something else than white space, the text can end. -/
private theorem blank_of_mem {before : List Char} (hmem : c ∈ before) (hc : isWhiteSpace c = false) :
    true = false ↔ text.head?.any isWhiteSpace = true ∧ ∀ d ∈ before, isWhiteSpace d = true := by
  refine iff_of_false nofun fun ⟨_, hspace⟩ => ?_
  rw [hspace c hmem] at hc
  cases hc

private theorem space (h : Reached text start canEnd) (hrest : text.drop start = c :: rest)
    (hc : isWhiteSpace c = true) : Reached text (start + 1) canEnd := by
  have hstray : ¬Stray text start c := by
    intro hstray
    rw [hstray.not_space] at hc
    cases hc
  have hident : isIdentRest c = false := by
    rw [← Bool.not_eq_true]
    intro hident
    rw [isWhiteSpace_of_isIdentRest hident] at hc
    cases hc
  refine h.succ hrest hstray hident ?_
  rw [h.blank]
  simp [or_imp, forall_and, hc]

private theorem char (h : Reached text start canEnd) (hrest : text.drop start = c :: rest) {token : Token}
    (hc : Token.ofChar? c = some token) : Reached text (start + 1) true := by
  have hstray : ¬Stray text start c := by
    intro hstray
    rw [ofChar?_eq_none_iff.2 hstray.not_symbol] at hc
    cases hc
  have hmem : c ∈ text.take start ++ [c] := List.mem_append_right _ (List.mem_singleton_self c)
  exact h.succ hrest hstray (isIdentRest_of_ofChar? hc) (blank_of_mem hmem (classes_of_ofChar? hc).1)

private theorem ident (h : Reached text start canEnd) {x : Name} (hx : isIdentifier x = true) (hend : EndsIdent rest)
    (hrest : text.drop start = x.toList ++ rest) : Reached text (start + x.length) true where
  le_length := by
    have hlength := congrArg List.length hrest
    rw [List.length_drop, List.length_append, String.length_toList] at hlength
    have := h.le_length
    omega
  clean := by
    intro i hi c
    rcases Nat.lt_or_ge i start with hlt | hge
    · exact h.clean i hlt c
    · obtain ⟨k, rfl⟩ := Nat.exists_eq_add_of_le hge
      exact not_stray_of_ident hx hrest (by omega) c
  ends := by
    intro c hc hident
    rw [← List.head?_drop, drop_add_length hrest] at hc
    rw [hend c hc] at hident
    cases hident
  blank := by
    have hpos : 0 < x.toList.length := by
      rw [String.length_toList]
      exact length_pos_of_isIdentifier hx
    obtain ⟨c, hc⟩ := List.exists_mem_of_length_pos hpos
    refine blank_of_mem ?_ (isWhiteSpace_of_isIdentRest (isIdentRest_of_mem hx hc))
    rw [List.take_add, hrest, ← String.length_toList, List.take_left]
    exact List.mem_append_right _ hc

/-- A character that no token begins with is stray where the lexer meets it. -/
private theorem isFirstStray (h : Reached text start canEnd) (hrest : text.drop start = c :: rest)
    (hspace : isWhiteSpace c = false) (hstart : isIdentStart c = false) (hnone : Token.ofChar? c = none) :
    IsFirstStray text start c where
  stray :=
    have hc := (of_drop_eq_cons hrest).1
    ⟨hc, hspace, ofChar?_eq_none_iff.1 hnone, hstart, h.ends c hc⟩
  first := h.clean

private theorem blank_iff_of_isFirstStray (h : Reached text start canEnd) (hfirst : IsFirstStray text start c) :
    canEnd = false ↔ 0 < start ∧ ∀ d ∈ text.take start, isWhiteSpace d = true := by
  refine h.blank.trans (and_congr_left fun htake => ?_)
  cases text with
  | nil => cases hfirst.stray.at_position
  | cons d text =>
    cases start with
    | zero =>
      -- the stray character is itself the first one, which is no white space
      have hc := hfirst.stray.at_position
      rw [List.getElem?_cons_zero] at hc
      cases hc
      simp [hfirst.stray.not_space]
    | succ start =>
      have hd : isWhiteSpace d = true := htake d (by simp)
      simp [hd]

end Reached

/-! ### The whole run -/

/-- What the lexer can say of a text. -/
inductive Outcome (text : List Char) : Except SyntaxError (List Lexeme) → Prop
  | ok {lexemes : List Lexeme} (h : ∀ i c, ¬Stray text i c) : Outcome text (.ok lexemes)
  | stray {i : Nat} {c : Char} {canEnd : Bool} (h : IsFirstStray text i c)
      (hcanEnd : canEnd = false ↔ 0 < i ∧ ∀ d ∈ text.take i, isWhiteSpace d = true) :
      Outcome text (.error (.strayChar i c canEnd))
  | blank (hne : text ≠ []) (h : ∀ c ∈ text, isWhiteSpace c = true) : Outcome text (.error (.blank text.length))

private theorem Outcome.map {result : Except SyntaxError (List Lexeme)} (h : Outcome text result)
    (f : List Lexeme → List Lexeme) : Outcome text (result.map f) := by
  cases h with
  | ok h => exact .ok h
  | stray h hcanEnd => exact .stray h hcanEnd
  | blank hne h => exact .blank hne h

private theorem Reached.outcome {canEnd : Bool} {rest : List Char} (h : Reached text start canEnd)
    (hrest : text.drop start = rest) : Outcome text (lexFrom start canEnd rest) := by
  fun_induction lexFrom start canEnd rest with
  | case1 start =>
    refine .ok fun i c hstray => h.clean i ?_ c hstray
    have hlt := (List.getElem?_eq_some_iff.1 hstray.at_position).1
    have hlength := List.drop_eq_nil_iff.1 hrest
    omega
  | case2 start canEnd hcanEnd =>
    obtain ⟨hhead, hspace⟩ := h.blank.1 (by simpa using hcanEnd)
    have hlength : start = text.length := Nat.le_antisymm h.le_length (List.drop_eq_nil_iff.1 hrest)
    rw [hlength] at hspace ⊢
    rw [List.take_length] at hspace
    refine .blank ?_ hspace
    rintro rfl
    cases hhead
  | case3 start canEnd c rest hc ih => exact ih (h.space hrest hc) (of_drop_eq_cons hrest).2.1
  | case4 start canEnd c rest _ hc word stop ih =>
    obtain ⟨hx, hend, htext⟩ := isIdentifier_takeWhile hc rest
    have hstop : stop = start + (String.ofList word).length := by simp [stop]
    rw [htext] at hrest
    rw [hstop] at ih ⊢
    exact (ih (h.ident hx hend hrest) (drop_add_length hrest)).map _
  | case5 start canEnd c rest _ _ token hc ih => exact (ih (h.char hrest hc) (of_drop_eq_cons hrest).2.1).map _
  | case6 start canEnd c rest hspace hstart hnone =>
    rw [Bool.not_eq_true] at hspace hstart
    have hfirst := h.isFirstStray hrest hspace hstart hnone
    exact .stray hfirst (h.blank_iff_of_isFirstStray hfirst)

private theorem outcome_lex (s : String) : Outcome s.toList (lex s) :=
  (Reached.zero s.toList).outcome List.drop_zero

private theorem lex_eq_ok_iff {s : String} {lexemes : List Lexeme} :
    lex s = .ok lexemes ↔ Tiles s.toList 0 lexemes ∧ (lexemes = [] → s = "") := by
  rw [lex, lexFrom_eq_ok_iff, tiles_iff (Nat.zero_le _), List.drop_zero]
  refine and_congr_right fun hlexes => ⟨?_, fun h => ?_⟩
  · rintro (hhead | hne) rfl
    · generalize htext : s.toList = text at hlexes hhead
      cases hlexes with
      | nil => exact String.toList_eq_nil_iff.1 htext
      | space hc _ => simp [hc] at hhead
    · exact absurd rfl hne
  · by_cases hnil : lexemes = []
    · rw [h hnil]
      exact .inl rfl
    · exact .inr hnil

/-- Where there is a lexeme, there is something else than white space. -/
private theorem Tiles.eq_nil_of_space {lexemes : List Lexeme} (h : Tiles text start lexemes)
    (hspace : ∀ c ∈ text, isWhiteSpace c = true) : lexemes = [] := by
  refine List.eq_nil_iff_forall_not_mem.2 fun l hl => ?_
  obtain ⟨c, hc, hnot, -⟩ := (h.stands l hl).exists_first
  rw [hspace c (List.mem_of_getElem? hc)] at hnot
  cases hnot

/-- The lexemes of a text are its only tiling.  A text that is refused has a stray character, of which the first is
reported in its place, or it is not empty and has nothing but white space, which is reported at its end. -/
theorem lexemes_tile_text (s : String) :
    (∀ lexemes, lex s = .ok lexemes ↔ Tiles s.toList 0 lexemes ∧ (lexemes = [] → s = "")) ∧
      (∀ lexemes lexemes', Tiles s.toList 0 lexemes → Tiles s.toList 0 lexemes' → lexemes = lexemes') ∧
      (∀ j d, Stray s.toList j d → ∃ i c canEnd, IsFirstStray s.toList i c ∧ lex s = .error (.strayChar i c canEnd) ∧
        (SyntaxError.strayChar i c canEnd).found = some c.toString ∧
        (SyntaxError.strayChar i c canEnd).span = ⟨i, i + 1⟩ ∧
        (canEnd = false ↔ 0 < i ∧ ∀ d ∈ s.toList.take i, isWhiteSpace d = true)) ∧
      (s ≠ "" → (∀ c ∈ s.toList, isWhiteSpace c = true) → lex s = .error (.blank s.length) ∧
        (SyntaxError.blank s.length).found = none ∧ (SyntaxError.blank s.length).span = ⟨s.length, s.length⟩) ∧
      ∀ e, lex s = .error e →
        (∃ i c, Stray s.toList i c) ∨ s ≠ "" ∧ ∀ c ∈ s.toList, isWhiteSpace c = true := by
  refine ⟨fun _ => lex_eq_ok_iff, fun _ _ => Tiles.unique (Nat.zero_le _), ?stray, ?blank, ?refused⟩
  case stray =>
    intro j d hstray
    have houtcome := outcome_lex s
    generalize lex s = result at houtcome
    cases houtcome with
    | ok h => exact absurd hstray (h j d)
    | stray h hcanEnd => exact ⟨_, _, _, h, rfl, rfl, rfl, hcanEnd⟩
    | blank _ h =>
      have hspace := h d (List.mem_of_getElem? hstray.at_position)
      rw [hstray.not_space] at hspace
      cases hspace
  case blank =>
    intro hne hspace
    refine ⟨?_, rfl, rfl⟩
    have houtcome := outcome_lex s
    generalize hlex : lex s = result at houtcome
    cases houtcome with
    | ok _ =>
      obtain ⟨htiles, hnil⟩ := lex_eq_ok_iff.1 hlex
      exact absurd (hnil (htiles.eq_nil_of_space hspace)) hne
    | stray h _ =>
      have hc := hspace _ (List.mem_of_getElem? h.stray.at_position)
      rw [h.stray.not_space] at hc
      cases hc
    | blank _ _ => rw [String.length_toList]
  case refused =>
    intro e hlex
    have houtcome := outcome_lex s
    rw [hlex] at houtcome
    cases houtcome with
    | stray h _ => exact .inl ⟨_, _, h.stray⟩
    | blank hne h => exact .inr ⟨fun hs => hne (by rw [hs, String.toList_empty]), h⟩

/-- Digits and underscores continue an identifier, but behind white space a digit is stray. -/
theorem lexemes_tile_text_digits :
    let text := " λf1 .f_"
    let lexemes : List Lexeme := [⟨.lambda, ⟨1, 2⟩⟩, ⟨.ident "f1", ⟨2, 4⟩⟩, ⟨.dot, ⟨5, 6⟩⟩, ⟨.ident "f_", ⟨6, 8⟩⟩]
    lex text = .ok lexemes ∧ Tiles text.toList 0 lexemes ∧ (∀ other, Tiles text.toList 0 other → other = lexemes) ∧
      Stray "f1 2λ_".toList 3 '2' ∧ lex "f1 2λ_" = .error (.strayChar 3 '2' true) ∧ IsFirstStray "f1 2λ_".toList 3 '2' ∧
      lex " \u00a0" = .error (.blank 2) := by
  intro text lexemes
  have hlex : lex text = .ok lexemes := by decide +kernel
  obtain ⟨hok, hunique, -⟩ := lexemes_tile_text text
  obtain ⟨htiles, -⟩ := (hok lexemes).1 hlex
  have hstray : Stray "f1 2λ_".toList 3 '2' := by
    refine ⟨rfl, by decide, by decide, by decide, fun _ => ?_⟩
    exact not_endsWithIdent_append (c := ' ') (by decide) ['f', '1']
  obtain ⟨-, -, hreported, -, -⟩ := lexemes_tile_text "f1 2λ_"
  obtain ⟨i, c, canEnd, hfirst, hlex', -⟩ := hreported 3 '2' hstray
  have herror : lex "f1 2λ_" = .error (.strayChar 3 '2' true) := by decide +kernel
  rw [herror] at hlex'
  cases hlex'
  obtain ⟨-, -, -, hblank, -⟩ := lexemes_tile_text " \u00a0"
  have hspace : ∀ c ∈ " \u00a0".toList, isWhiteSpace c = true := List.all_eq_true.1 (by decide)
  exact ⟨hlex, htiles, fun other h => hunique other lexemes h htiles, hstray, herror, hfirst,
    (hblank (by decide) hspace).1⟩

end LambdaCalculus.Source
