import LambdaCalculus.Proofs.Source.Lexer

/-!
# Lexemes tile a text

The lexemes of a text stand in it one behind the other, each spelled in its place.  Only white space is left out, and
identifiers do not touch, so each is as long as it can be.  `Tiles` says this of all positions at once, where `Lexes`
cuts off one lexeme after the other; they come to the same (`tiles_iff`), and so a text has one tiling at most
(`Tiles.unique`).

That identifiers do not touch is what makes the two agree: a character behind an identifier that could continue it is
no white space, so it is in a lexeme, and this one would be an identifier too (`Tiles.endsIdent`).
-/

namespace LambdaCalculus.Source

open Text (isWhiteSpace)

/-! ### Tilings -/

/-- Whether the characters spell the token. -/
def Token.SpelledBy : Token → List Char → Prop
  | .lparen, word => word = ['(']
  | .rparen, word => word = [')']
  | .dot, word => word = ['.']
  | .lambda, word => word = ['λ'] ∨ word = ['\\']
  | .ident x, word => word = x.toList ∧ isIdentifier x = true

def Token.IsIdent (token : Token) : Prop :=
  ∃ x, token = .ident x

def Span.Covers (span : Span) (i : Nat) : Prop :=
  span.start ≤ i ∧ i < span.stop

/-- Whether the text in the span of a lexeme spells its token. -/
def Lexeme.StandsIn (text : List Char) (l : Lexeme) : Prop :=
  ∃ word, l.token.SpelledBy word ∧ word <+: text.drop l.span.start ∧ l.span.stop = l.span.start + word.length

/-- The lexemes tile the text from the position `start` on. -/
structure Tiles (text : List Char) (start : Nat) (lexemes : List Lexeme) : Prop where
  stands : ∀ l ∈ lexemes, l.StandsIn text
  bounded : ∀ l ∈ lexemes, start ≤ l.span.start
  ordered : lexemes.Pairwise fun l l' => l.span.stop ≤ l'.span.start
  /-- Only white space is left out. -/
  space : ∀ i c, start ≤ i → text[i]? = some c → (∀ l ∈ lexemes, ¬l.span.Covers i) → isWhiteSpace c = true
  /-- Identifiers do not touch. -/
  apart : ∀ l ∈ lexemes, ∀ l' ∈ lexemes, l.token.IsIdent → l'.token.IsIdent → l.span.stop ≠ l'.span.start

private theorem Token.spelledBy_iff {token : Token} {word : List Char} :
    token.SpelledBy word ↔
      (∃ c, ofChar? c = some token ∧ word = [c]) ∨ ∃ x, isIdentifier x = true ∧ token = .ident x ∧ word = x.toList := by
  constructor
  · intro h
    cases token with
    | lparen => exact .inl ⟨'(', rfl, h⟩
    | rparen => exact .inl ⟨')', rfl, h⟩
    | dot => exact .inl ⟨'.', rfl, h⟩
    | lambda =>
      rcases h with h | h
      · exact .inl ⟨'λ', rfl, h⟩
      · exact .inl ⟨'\\', rfl, h⟩
    | ident x => exact .inr ⟨x, h.2, rfl, h.1⟩
  · rintro (⟨c, hc, rfl⟩ | ⟨x, hx, rfl, rfl⟩)
    · unfold ofChar? at hc
      split at hc <;> cases hc <;> simp [SpelledBy]
    · exact ⟨rfl, hx⟩

theorem isIdentRest_of_ofChar? {c : Char} {token : Token} (h : Token.ofChar? c = some token) : isIdentRest c = false := by
  unfold Token.ofChar? at h
  split at h <;> first | decide | cases h

private theorem not_isIdent_of_ofChar? {c : Char} {token : Token} (h : Token.ofChar? c = some token) :
    ¬token.IsIdent := by
  rintro ⟨x, rfl⟩
  unfold Token.ofChar? at h
  split at h <;> cases h

/-- What the first character of a lexeme says. -/
theorem Lexeme.StandsIn.exists_first {text : List Char} {l : Lexeme} (h : l.StandsIn text) :
    ∃ c, text[l.span.start]? = some c ∧ isWhiteSpace c = false ∧ (l.token.IsIdent ↔ isIdentRest c = true) := by
  obtain ⟨word, hword, ⟨rest, hrest⟩, -⟩ := h
  rw [← List.head?_drop, ← hrest]
  rcases Token.spelledBy_iff.1 hword with ⟨c, hc, rfl⟩ | ⟨x, hx, htoken, rfl⟩
  · exact ⟨c, rfl, (classes_of_ofChar? hc).1, iff_of_false (not_isIdent_of_ofChar? hc) (by simp [isIdentRest_of_ofChar? hc])⟩
  · cases hlist : x.toList with
    | nil => simp [isIdentifier, hlist] at hx
    | cons c rest' =>
      have hc : isIdentRest c = true := isIdentRest_of_mem hx (by simp [hlist])
      exact ⟨c, rfl, isWhiteSpace_of_isIdentRest hc, iff_of_true ⟨x, htoken⟩ hc⟩

private theorem Lexeme.StandsIn.start_lt_stop {text : List Char} {l : Lexeme} (h : l.StandsIn text) :
    l.span.start < l.span.stop := by
  obtain ⟨word, hword, -, hstop⟩ := h
  have hpos : 0 < word.length := by
    rcases Token.spelledBy_iff.1 hword with ⟨c, -, rfl⟩ | ⟨x, hx, -, rfl⟩
    · exact Nat.one_pos
    · rw [String.length_toList]
      exact length_pos_of_isIdentifier hx
  omega

private theorem Lexeme.StandsIn.stop_le_length {text : List Char} {l : Lexeme} (h : l.StandsIn text) :
    l.span.stop ≤ text.length := by
  have hlt := h.start_lt_stop
  obtain ⟨word, -, ⟨rest, hrest⟩, hstop⟩ := h
  have hlength := congrArg List.length hrest
  rw [List.length_append, List.length_drop] at hlength
  omega

variable {text : List Char} {start : Nat} {lexemes : List Lexeme}

/-! ### Positions -/

theorem of_drop_eq_cons {c : Char} {rest : List Char} (h : text.drop start = c :: rest) :
    text[start]? = some c ∧ text.drop (start + 1) = rest ∧ text.take (start + 1) = text.take start ++ [c] := by
  have hget : text[start]? = some c := by rw [← List.head?_drop, h, List.head?_cons]
  refine ⟨hget, ?_, ?_⟩
  · rw [← List.tail_drop, h, List.tail_cons]
  · rw [List.take_add_one, hget, Option.toList_some]

theorem drop_add_length {x : Name} {rest : List Char} (h : text.drop start = x.toList ++ rest) :
    text.drop (start + x.length) = rest := by
  rw [← List.drop_drop, h, ← String.length_toList, List.drop_left]

/-! ### The lexer finds a tiling -/

private theorem Tiles.of_space (h : Tiles text (start + 1) lexemes) (hc : ∀ c ∈ text[start]?, isWhiteSpace c = true) :
    Tiles text start lexemes where
  stands := h.stands
  bounded := fun l hl => Nat.le_of_succ_le (h.bounded l hl)
  ordered := h.ordered
  space := by
    intro i c hi hic hcover
    rcases Nat.eq_or_lt_of_le hi with rfl | hi
    · exact hc c hic
    · exact h.space i c hi hic hcover
  apart := h.apart

private theorem Tiles.cons {l : Lexeme} (hl : l.StandsIn text)
    (hend : l.token.IsIdent → ∀ c ∈ text[l.span.stop]?, isIdentRest c = false) (h : Tiles text l.span.stop lexemes) :
    Tiles text l.span.start (l :: lexemes) := by
  have hlt := hl.start_lt_stop
  refine ⟨List.forall_mem_cons.2 ⟨hl, h.stands⟩, ?bounded, .cons h.bounded h.ordered, ?space, ?apart⟩
  case bounded =>
    refine List.forall_mem_cons.2 ⟨Nat.le_refl _, fun l' hl' => ?_⟩
    have := h.bounded l' hl'
    omega
  case space =>
    intro i c hi hic hcover
    rw [List.forall_mem_cons] at hcover
    have hstop : l.span.stop ≤ i := Nat.le_of_not_lt fun hlt => hcover.1 ⟨hi, hlt⟩
    exact h.space i c hstop hic hcover.2
  case apart =>
    intro l₁ h₁ l₂ h₂ hident₁ hident₂ htouch
    rcases List.mem_cons.1 h₁ with rfl | hmem₁ <;> rcases List.mem_cons.1 h₂ with rfl | hmem₂
    · omega
    · -- the first character of `l₂` would continue the identifier in front of it
      obtain ⟨c, hc, -, hrest⟩ := (h.stands l₂ hmem₂).exists_first
      rw [← htouch] at hc
      rw [hrest, hend hident₁ c hc] at hident₂
      cases hident₂
    · have := h.bounded l₁ hmem₁
      have := (h.stands l₁ hmem₁).start_lt_stop
      omega
    · exact h.apart l₁ hmem₁ l₂ hmem₂ hident₁ hident₂ htouch

private theorem Lexes.tiles {rest : List Char} (h : Lexes start rest lexemes) (hrest : text.drop start = rest) :
    Tiles text start lexemes := by
  induction h with
  | nil start =>
    refine ⟨by simp, by simp, .nil, fun i c hi hic _ => ?_, by simp⟩
    have hlength := List.drop_eq_nil_iff.1 hrest
    have hlt := (List.getElem?_eq_some_iff.1 hic).1
    omega
  | @space start c rest lexemes hc _ ih =>
    obtain ⟨hfirst, htail, -⟩ := of_drop_eq_cons hrest
    refine (ih htail).of_space fun d hd => ?_
    rw [hfirst] at hd
    cases hd
    exact hc
  | @char start c token rest lexemes hc _ ih =>
    have htail := (of_drop_eq_cons hrest).2.1
    refine Tiles.cons (l := ⟨token, ⟨start, start + 1⟩⟩) ?_ (fun h => absurd h (not_isIdent_of_ofChar? hc)) (ih htail)
    exact ⟨[c], Token.spelledBy_iff.2 (.inl ⟨c, hc, rfl⟩), ⟨rest, hrest.symm⟩, rfl⟩
  | @ident start x rest lexemes hx hend _ ih =>
    have htail := drop_add_length hrest
    refine Tiles.cons (l := ⟨.ident x, ⟨start, start + x.length⟩⟩) ?_ (fun _ c hc => ?_) (ih htail)
    · exact ⟨x.toList, ⟨rfl, hx⟩, ⟨rest, hrest.symm⟩, by rw [String.length_toList]⟩
    · rw [← List.head?_drop, htail] at hc
      exact hend c hc

/-! ### A tiling is found by the lexer -/

private theorem Tiles.tail {l : Lexeme} (h : Tiles text start (l :: lexemes)) : Tiles text l.span.stop lexemes := by
  obtain ⟨hstands, hbounded, hordered, hspace, hapart⟩ := h
  rw [List.forall_mem_cons] at hstands hbounded
  rw [List.pairwise_cons] at hordered
  refine ⟨hstands.2, hordered.1, hordered.2, ?space, ?apart⟩
  case space =>
    intro i c hi hic hcover
    have hlt := hstands.1.start_lt_stop
    have hstart := hbounded.1
    refine hspace i c (by omega) hic (List.forall_mem_cons.2 ⟨?_, hcover⟩)
    rintro ⟨-, hstop⟩
    omega
  case apart =>
    intro l₁ h₁ l₂ h₂
    exact hapart l₁ (List.mem_cons_of_mem _ h₁) l₂ (List.mem_cons_of_mem _ h₂)

/-- An identifier of a tiling ends where it cannot go on. -/
private theorem Tiles.endsIdent {l : Lexeme} (h : Tiles text start (l :: lexemes)) (hident : l.token.IsIdent) :
    EndsIdent (text.drop l.span.stop) := by
  intro c hc
  rw [List.head?_drop] at hc
  rw [← Bool.not_eq_true]
  intro hrest
  have hcovered : ¬∀ l' ∈ lexemes, ¬l'.span.Covers l.span.stop := by
    intro hcover
    have hspace := h.tail.space l.span.stop c (Nat.le_refl _) hc hcover
    rw [isWhiteSpace_of_isIdentRest hrest] at hspace
    cases hspace
  refine hcovered fun l' hl' hcover => ?_
  -- a lexeme that covers the next position begins there, and with `c` it is an identifier
  have htouch : l.span.stop = l'.span.start := Nat.le_antisymm (h.tail.bounded l' hl') hcover.1
  obtain ⟨d, hd, -, hident'⟩ := (h.tail.stands l' hl').exists_first
  rw [← htouch, Option.mem_def.1 hc] at hd
  cases hd
  exact h.apart l (List.mem_cons_self ..) l' (List.mem_cons_of_mem _ hl') hident (hident'.2 hrest) htouch

/-- White space in front of a place is left out. -/
private theorem Lexes.of_spaces {stop : Nat} (h : Lexes stop (text.drop stop) lexemes) (hle : start ≤ stop)
    (hstop : stop ≤ text.length) (hspace : ∀ i c, start ≤ i → i < stop → text[i]? = some c → isWhiteSpace c = true) :
    Lexes start (text.drop start) lexemes := by
  obtain ⟨n, rfl⟩ := Nat.exists_eq_add_of_le hle
  induction n generalizing start with
  | zero => exact h
  | succ n ih =>
    have hlt : start < text.length := by omega
    rw [List.drop_eq_getElem_cons hlt]
    refine .space (hspace start _ (Nat.le_refl _) (by omega) (List.getElem?_eq_getElem hlt)) ?_
    have hadd : start + (n + 1) = start + 1 + n := by omega
    rw [hadd] at h hstop hspace
    exact ih h (Nat.le_add_right _ _) hstop fun i c hi => hspace i c (Nat.le_of_succ_le hi)

/-- A lexeme is cut off where it stands, if it cannot go on. -/
private theorem Lexes.of_standsIn {l : Lexeme} (hl : l.StandsIn text)
    (hend : l.token.IsIdent → EndsIdent (text.drop l.span.stop))
    (h : Lexes l.span.stop (text.drop l.span.stop) lexemes) :
    Lexes l.span.start (text.drop l.span.start) (l :: lexemes) := by
  obtain ⟨token, first, stop⟩ := l
  obtain ⟨word, hword, ⟨rest, hrest⟩, rfl : stop = first + word.length⟩ := hl
  have hdrop : text.drop (first + word.length) = rest := by rw [← List.drop_drop, ← hrest, List.drop_left]
  rw [hdrop] at hend h
  rw [← hrest]
  rcases Token.spelledBy_iff.1 hword with ⟨c, hc, rfl⟩ | ⟨x, hx, rfl, rfl⟩
  · exact .char hc h
  · rw [String.length_toList] at h ⊢
    exact .ident hx (hend ⟨x, rfl⟩) h

private theorem Tiles.lexes (hstart : start ≤ text.length) (h : Tiles text start lexemes) :
    Lexes start (text.drop start) lexemes := by
  induction lexemes generalizing start with
  | nil =>
    have hnil : Lexes text.length (text.drop text.length) [] := by
      rw [List.drop_length]
      exact .nil _
    exact hnil.of_spaces hstart (Nat.le_refl _) fun i c hi _ hic => h.space i c hi hic (by simp)
  | cons l lexemes ih =>
    have hl := h.stands l (List.mem_cons_self ..)
    have hlexes : Lexes l.span.start (text.drop l.span.start) (l :: lexemes) :=
      .of_standsIn hl h.endsIdent (ih hl.stop_le_length h.tail)
    have hlt := hl.start_lt_stop
    have hfirst : l.span.start ≤ text.length := Nat.le_trans (Nat.le_of_lt hlt) hl.stop_le_length
    refine hlexes.of_spaces (h.bounded l (List.mem_cons_self ..)) hfirst fun i c hi hbefore hic => ?_
    -- no lexeme covers a position in front of the first one
    refine h.space i c hi hic (List.forall_mem_cons.2 ⟨?_, fun l' hl' => ?_⟩)
    · rintro ⟨hcover, -⟩
      omega
    · rintro ⟨hcover, -⟩
      have hordered := h.tail.bounded l' hl'
      omega

theorem tiles_iff (hstart : start ≤ text.length) :
    Tiles text start lexemes ↔ Lexes start (text.drop start) lexemes :=
  ⟨Tiles.lexes hstart, fun h => h.tiles rfl⟩

/-- A text has one tiling at most. -/
theorem Tiles.unique {lexemes' : List Lexeme} (hstart : start ≤ text.length) (h : Tiles text start lexemes)
    (h' : Tiles text start lexemes') : lexemes = lexemes' := by
  have hlex := (h.lexes hstart).lexFrom (.inl rfl)
  rw [(h'.lexes hstart).lexFrom (.inl rfl)] at hlex
  exact (Except.ok.inj hlex).symm

end LambdaCalculus.Source
