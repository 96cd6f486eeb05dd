import LambdaCalculus.Source.Parser

/-!
# What the lexer accepts

`Lexes offset text lexemes` says how a text is cut: white space is left out, a character that is a token by itself is
cut off alone, and an identifier is cut off with all characters that can continue it.  The lexer finds the lexemes of
every text that can be cut in this way, but it refuses a text of white space alone (`lexFrom_eq_ok_iff`).
-/

namespace LambdaCalculus.Source

open Text (isWhiteSpace)

/-! ### Classes of characters -/

private theorem isIdentRest_of_isIdentStart {c : Char} (h : isIdentStart c = true) : isIdentRest c = true := by
  have h : c.isAlpha = true := h
  simp [isIdentRest, Char.isAlphanum, h]

theorem isWhiteSpace_of_isIdentRest {c : Char} (h : isIdentRest c = true) : isWhiteSpace c = false := by
  have hc : 48 ≤ c.toNat ∧ c.toNat ≤ 122 := by
    change ((decide ('A'.val ≤ c.val ∧ c.val ≤ 'Z'.val) || (decide ('a'.val ≤ c.val) && decide (c.val ≤ 'z'.val))) ||
      (decide ('0'.val ≤ c.val) && decide (c.val ≤ '9'.val)) || c == '_') = true at h
    simp only [Bool.or_eq_true, Bool.and_eq_true, decide_eq_true_eq, beq_iff_eq, UInt32.le_iff_toNat_le] at h
    rcases h with ((h | h) | h) | rfl
    · change 65 ≤ c.toNat ∧ c.toNat ≤ 90 at h
      omega
    · change 97 ≤ c.toNat ∧ c.toNat ≤ 122 at h
      omega
    · change 48 ≤ c.toNat ∧ c.toNat ≤ 57 at h
      omega
    · decide
  -- these characters lie between the second and the third of the ranges of white space
  have h₁ : 0x9 ≤ c.toNat ∧ ¬c.toNat ≤ 0xD := by omega
  have h₂ : 0x20 ≤ c.toNat ∧ ¬c.toNat ≤ 0x20 := by omega
  have h₃ : ¬0x85 ≤ c.toNat := by omega
  simp [isWhiteSpace, Text.inRanges, Text.whiteSpaceRanges, h₁, h₂, h₃]

private theorem isWhiteSpace_of_isIdentStart {c : Char} (h : isIdentStart c = true) : isWhiteSpace c = false :=
  isWhiteSpace_of_isIdentRest (isIdentRest_of_isIdentStart h)

theorem classes_of_ofChar? {c : Char} {token : Token} (h : Token.ofChar? c = some token) :
    isWhiteSpace c = false ∧ isIdentStart c = false := by
  unfold Token.ofChar? at h
  split at h <;> first | decide | cases h

theorem length_pos_of_isIdentifier {x : Name} (hx : isIdentifier x = true) : 0 < x.length := by
  rw [← String.length_toList]
  refine List.length_pos_iff.2 fun hnil => ?_
  rw [isIdentifier, hnil] at hx
  cases hx

theorem isIdentRest_of_mem {x : Name} (hx : isIdentifier x = true) {c : Char} (hc : c ∈ x.toList) :
    isIdentRest c = true := by
  rw [isIdentifier] at hx
  cases hlist : x.toList with
  | nil => simp [hlist] at hx
  | cons d rest =>
    rw [hlist, Bool.and_eq_true, List.all_eq_true] at hx
    rw [hlist] at hc
    rcases List.mem_cons.1 hc with rfl | hc
    · exact isIdentRest_of_isIdentStart hx.1
    · exact hx.2 c hc

/-! ### Cutting a text -/

/-- Whether an identifier in front of the text cannot be continued by it. -/
def EndsIdent (text : List Char) : Prop :=
  ∀ c ∈ text.head?, isIdentRest c = false

theorem EndsIdent.nil : EndsIdent [] := by
  simp [EndsIdent]

theorem EndsIdent.cons {c : Char} (hc : isIdentRest c = false) (text : List Char) : EndsIdent (c :: text) := by
  simpa [EndsIdent] using hc

/-- A letter and all characters behind it that can continue an identifier are one. -/
theorem isIdentifier_takeWhile {c : Char} (hc : isIdentStart c = true) (rest : List Char) :
    isIdentifier (String.ofList (c :: rest.takeWhile isIdentRest)) = true ∧ EndsIdent (rest.dropWhile isIdentRest) ∧
      c :: rest = (String.ofList (c :: rest.takeWhile isIdentRest)).toList ++ rest.dropWhile isIdentRest := by
  refine ⟨by simp [isIdentifier, hc, List.all_takeWhile], fun d hd => ?_, by simp [List.takeWhile_append_dropWhile]⟩
  have hdrop := List.head?_dropWhile_not isIdentRest rest
  rwa [hd] at hdrop

/-- The text, of which the first character is at `offset`, is cut into the lexemes. -/
inductive Lexes : Nat → List Char → List Lexeme → Prop
  | nil (offset : Nat) : Lexes offset [] []
  | space {offset : Nat} {c : Char} {text : List Char} {lexemes : List Lexeme} (hc : isWhiteSpace c = true)
      (h : Lexes (offset + 1) text lexemes) : Lexes offset (c :: text) lexemes
  | char {offset : Nat} {c : Char} {token : Token} {text : List Char} {lexemes : List Lexeme}
      (hc : Token.ofChar? c = some token) (h : Lexes (offset + 1) text lexemes) :
      Lexes offset (c :: text) (⟨token, ⟨offset, offset + 1⟩⟩ :: lexemes)
  | ident {offset : Nat} {x : Name} {text : List Char} {lexemes : List Lexeme} (hx : isIdentifier x = true)
      (hend : EndsIdent text) (h : Lexes (offset + x.length) text lexemes) :
      Lexes offset (x.toList ++ text) (⟨.ident x, ⟨offset, offset + x.length⟩⟩ :: lexemes)

theorem Lexes.isIdentifier {offset : Nat} {text : List Char} {lexemes : List Lexeme} (h : Lexes offset text lexemes)
    {x : Name} (hx : .ident x ∈ lexemes.map Lexeme.token) : isIdentifier x = true := by
  induction h with
  | nil => cases hx
  | space _ _ ih => exact ih hx
  | @char offset c token text lexemes hc h ih =>
    rw [List.map_cons, List.mem_cons] at hx
    rcases hx with rfl | hx
    · unfold Token.ofChar? at hc
      split at hc <;> cases hc
    · exact ih hx
  | ident hy _ _ ih =>
    rw [List.map_cons, List.mem_cons] at hx
    rcases hx with hx | hx
    · cases hx
      exact hy
    · exact ih hx

/-- The lexemes lie in the text. -/
theorem Lexes.bounds {offset : Nat} {text : List Char} {lexemes : List Lexeme} (h : Lexes offset text lexemes)
    {lexeme : Lexeme} (hmem : lexeme ∈ lexemes) :
    offset ≤ lexeme.span.start ∧ lexeme.span.start < lexeme.span.stop ∧ lexeme.span.stop ≤ offset + text.length := by
  induction h with
  | nil => cases hmem
  | space _ _ ih =>
    have := ih hmem
    rw [List.length_cons]
    omega
  | char _ _ ih =>
    rw [List.length_cons]
    rcases List.mem_cons.1 hmem with rfl | hmem
    · simp only
      omega
    · have := ih hmem
      omega
  | @ident offset x _ _ hx _ _ ih =>
    rw [List.length_append, String.length_toList]
    rcases List.mem_cons.1 hmem with rfl | hmem
    · have hpos := length_pos_of_isIdentifier hx
      simp only
      omega
    · have := ih hmem
      omega

/-- The lexemes follow one another. -/
theorem Lexes.pairwise {offset : Nat} {text : List Char} {lexemes : List Lexeme} (h : Lexes offset text lexemes) :
    lexemes.Pairwise fun l l' => l.span.stop ≤ l'.span.start := by
  induction h with
  | nil => exact .nil
  | space _ _ ih => exact ih
  | char _ h ih => exact .cons (fun _ hmem => (h.bounds hmem).1) ih
  | ident _ _ h ih => exact .cons (fun _ hmem => (h.bounds hmem).1) ih

/-! ### The lexer -/

private theorem lexFrom_space {c : Char} (hc : isWhiteSpace c = true) (offset : Nat) (canEnd : Bool)
    (text : List Char) : lexFrom offset canEnd (c :: text) = lexFrom (offset + 1) canEnd text := by
  rw [lexFrom, if_pos hc]

private theorem lexFrom_char {c : Char} {token : Token} (hc : Token.ofChar? c = some token) (offset : Nat)
    (canEnd : Bool) (text : List Char) :
    lexFrom offset canEnd (c :: text) =
      (lexFrom (offset + 1) true text).map (⟨token, ⟨offset, offset + 1⟩⟩ :: ·) := by
  obtain ⟨hspace, hstart⟩ := classes_of_ofChar? hc
  rw [lexFrom, if_neg (by simp [hspace]), if_neg (by simp [hstart]), hc]

private theorem lexFrom_ident {x : Name} {text : List Char} (hx : isIdentifier x = true) (hend : EndsIdent text)
    (offset : Nat) (canEnd : Bool) :
    lexFrom offset canEnd (x.toList ++ text) =
      (lexFrom (offset + x.length) true text).map (⟨.ident x, ⟨offset, offset + x.length⟩⟩ :: ·) := by
  unfold Source.isIdentifier at hx
  cases hlist : x.toList with
  | nil => simp [hlist] at hx
  | cons c rest =>
    rw [hlist, Bool.and_eq_true, List.all_eq_true] at hx
    obtain ⟨hc, hrest⟩ := hx
    have htake : (rest ++ text).takeWhile isIdentRest = rest := by
      rw [List.takeWhile_append_of_pos hrest]
      cases text with
      | nil => simp
      | cons d text => simp [hend d rfl]
    have hdrop : (rest ++ text).dropWhile isIdentRest = text := by
      rw [List.dropWhile_append_of_pos hrest]
      cases text with
      | nil => simp
      | cons d text => simp [hend d rfl]
    have hlength : (c :: rest).length = x.length := by rw [← hlist, String.length_toList]
    rw [List.cons_append, lexFrom, if_neg (by simp [isWhiteSpace_of_isIdentStart hc]), if_pos hc]
    simp only [htake, hdrop]
    rw [hlength, ← hlist, String.ofList_toList]

theorem map_eq_ok_iff {ε α β : Type} {f : α → β} {e : Except ε α} {b : β} :
    e.map f = .ok b ↔ ∃ a, e = .ok a ∧ f a = b := by
  cases e <;> simp [Except.map]

private theorem lexes_of_lexFrom {offset : Nat} {canEnd : Bool} {text : List Char} {lexemes : List Lexeme}
    (h : lexFrom offset canEnd text = .ok lexemes) :
    Lexes offset text lexemes ∧ (canEnd = true ∨ lexemes ≠ []) := by
  fun_induction lexFrom offset canEnd text generalizing lexemes with
  | case1 offset =>
    cases h
    exact ⟨.nil offset, .inl rfl⟩
  | case2 => cases h
  | case3 offset canEnd c rest hc ih =>
    obtain ⟨hlexes, hend⟩ := ih h
    exact ⟨.space hc hlexes, hend⟩
  | case4 offset canEnd c rest _ hc word stop =>
    rename_i ih
    obtain ⟨rest', h', rfl⟩ := map_eq_ok_iff.1 h
    refine ⟨?_, .inr (by simp)⟩
    obtain ⟨hx, hend, htext⟩ := isIdentifier_takeWhile hc rest
    have hstop : stop = offset + (String.ofList word).length := by simp [stop]
    rw [hstop] at ih h' ⊢
    rw [htext]
    exact .ident hx hend (ih h').1
  | case5 offset canEnd c rest _ _ token hc ih =>
    obtain ⟨rest', h', rfl⟩ := map_eq_ok_iff.1 h
    exact ⟨.char hc (ih h').1, .inr (by simp)⟩
  | case6 => cases h

theorem Lexes.lexFrom {offset : Nat} {canEnd : Bool} {text : List Char} {lexemes : List Lexeme}
    (h : Lexes offset text lexemes) (hend : canEnd = true ∨ lexemes ≠ []) :
    lexFrom offset canEnd text = .ok lexemes := by
  induction h generalizing canEnd with
  | nil offset =>
    rcases hend with rfl | hend
    · rw [Source.lexFrom, if_pos rfl]
    · exact absurd rfl hend
  | space hc _ ih => rw [lexFrom_space hc, ih hend]
  | char hc _ ih =>
    rw [lexFrom_char hc, ih (.inl rfl)]
    rfl
  | ident hx hend' _ ih =>
    rw [lexFrom_ident hx hend', ih (.inl rfl)]
    rfl

/-- The lexer cuts every text that can be cut, except for white space alone. -/
theorem lexFrom_eq_ok_iff {offset : Nat} {canEnd : Bool} {text : List Char} {lexemes : List Lexeme} :
    lexFrom offset canEnd text = .ok lexemes ↔ Lexes offset text lexemes ∧ (canEnd = true ∨ lexemes ≠ []) :=
  ⟨lexes_of_lexFrom, fun h => h.1.lexFrom h.2⟩

end LambdaCalculus.Source
