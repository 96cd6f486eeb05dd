import LambdaCalculus.Proofs.Source.Lexer
import LambdaCalculus.Proofs.Source.Parser

/-!
# Where a text stops being a term

A text that can be cut into tokens but is not a term is refused at its first token that stands in no term behind the
tokens before it, or at its end if there is no such token (`parse_error_at_first_impossible_token`).  What the error
names as possible there is what some term has behind these tokens.

The reason is that the parser can go wrong only once: from each of its states there are tokens that lead to the end of a
term (`State.exists_completion`).  So the parser has a state behind some tokens exactly if these begin a term
(`isViable_iff`), and the tokens that the state lets pass are those that can follow.
-/

namespace LambdaCalculus.Source

/-- Whether the tokens are the concrete form of a term. -/
def IsSentence (tokens : List Token) : Prop :=
  ∃ t, IsTerm tokens t

/-- Whether the concrete form of some term begins with the tokens. -/
def IsViable (tokens : List Token) : Prop :=
  ∃ rest, IsSentence (tokens ++ rest)

/-- Whether the concrete form of some term has the symbol behind the tokens, or ends there. -/
def CanFollow (tokens : List Token) : Symbol → Prop
  | .lparen => IsViable (tokens ++ [.lparen])
  | .rparen => IsViable (tokens ++ [.rparen])
  | .dot => IsViable (tokens ++ [.dot])
  | .lambda => IsViable (tokens ++ [.lambda])
  -- the lambda is always named in its other spelling
  | .backslash => False
  | .endOfInput => IsSentence tokens

/-! ### Completion -/

namespace State

/-- Whether the input can end in the state. -/
def CanEnd (state : State) : Prop :=
  state.term?.isSome = true

/-- Whether some further tokens lead to a state in which the input can end. -/
def Completes (state : State) : Prop :=
  ∃ tokens state', state.read? tokens = some state' ∧ state'.CanEnd

private theorem Completes.of_next? {state state' : State} (token : Token) (hnext : state.next? token = some state')
    (h : state'.Completes) : state.Completes := by
  obtain ⟨tokens, last, hread, hend⟩ := h
  refine ⟨token :: tokens, last, ?_, hend⟩
  rw [read?_cons, hnext, Option.bind_some, hread]

/-- Behind at least one atom closing parentheses are enough. -/
private theorem exists_closing (stack : List Frame) (t : Term) :
    ∃ n state, (term stack (some t)).read? (List.replicate n .rparen) = some state ∧ state.CanEnd := by
  induction stack generalizing t with
  | nil => exact ⟨0, _, rfl, rfl⟩
  | cons frame stack ih =>
    cases frame with
    | paren before =>
      obtain ⟨n, state, hread, hend⟩ := ih (extend before t)
      exact ⟨n + 1, state, hread, hend⟩
    | lambda before x =>
      -- no token ends an abstraction: with it on the stack the same parentheses are read as without
      obtain ⟨n, state, hread, hend⟩ := ih (extend before (.abs x t))
      cases n with
      | zero =>
        cases hread
        exact ⟨0, _, rfl, hend⟩
      | succ n => exact ⟨n + 1, state, hread, hend⟩

/-- From every state there are tokens to the end of a term. -/
private theorem exists_completion (state : State) : state.Completes := by
  have hterm : ∀ stack current, (term stack current).Completes := by
    intro stack current
    cases current with
    | none =>
      obtain ⟨n, state, hread, hend⟩ := exists_closing stack (.var "x")
      exact .of_next? (.ident "x") rfl ⟨_, state, hread, hend⟩
    | some t =>
      obtain ⟨n, state, hread, hend⟩ := exists_closing stack t
      exact ⟨_, state, hread, hend⟩
  have hdot : ∀ stack before x, (dot stack before x).Completes :=
    fun stack before x => .of_next? .dot rfl (hterm _ _)
  cases state with
  | term stack current => exact hterm stack current
  | param stack before => exact .of_next? (.ident "x") rfl (hdot _ _ _)
  | dot stack before x => exact hdot stack before x

end State

/-! ### Tokens that begin a term -/

private theorem isSentence_iff {tokens : List Token} {state : State} (h : State.initial.read? tokens = some state) :
    IsSentence tokens ↔ state.CanEnd := by
  simp only [IsSentence, isTerm_iff, h, Option.bind_some, State.CanEnd, Option.isSome_iff_exists]

/-- The tokens that begin a term are those that the parser can read. -/
private theorem isViable_iff {tokens : List Token} : IsViable tokens ↔ (State.initial.read? tokens).isSome = true := by
  rw [Option.isSome_iff_exists]
  constructor
  · rintro ⟨rest, t, h⟩
    rw [isTerm_iff, State.read?_append, Option.bind_assoc] at h
    obtain ⟨state, hread, -⟩ := Option.bind_eq_some_iff.1 h
    exact ⟨state, hread⟩
  · rintro ⟨state, hread⟩
    obtain ⟨rest, state', hrest, hend⟩ := state.exists_completion
    refine ⟨rest, (isSentence_iff ?_).2 hend⟩
    rw [State.read?_append, hread, Option.bind_some, hrest]

private theorem isViable_append_iff {tokens : List Token} {state : State} (h : State.initial.read? tokens = some state)
    (token : Token) : IsViable (tokens ++ [token]) ↔ (state.next? token).isSome = true := by
  rw [isViable_iff, State.read?_append, h, Option.bind_some, State.read?_cons]
  cases state.next? token <;> simp

/-- Tokens that begin a term and are none go on in a term. -/
private theorem IsViable.exists_rest {tokens : List Token} (hviable : IsViable tokens) (h : ¬IsSentence tokens) :
    ∃ rest, rest ≠ [] ∧ IsSentence (tokens ++ rest) := by
  obtain ⟨rest, hrest⟩ := hviable
  refine ⟨rest, ?_, hrest⟩
  rintro rfl
  rw [List.append_nil] at hrest
  exact h hrest

/-! ### What an error names as possible -/

/-- Whether the parser goes on behind a symbol. -/
def State.allows (state : State) : Symbol → Bool
  | .lparen => (state.next? .lparen).isSome
  | .rparen => (state.next? .rparen).isSome
  | .dot => (state.next? .dot).isSome
  | .lambda => (state.next? .lambda).isSome
  | .backslash => false
  | .endOfInput => state.term?.isSome

private theorem State.mem_symbols_place (state : State) (symbol : Symbol) :
    symbol ∈ state.place.symbols ↔ state.allows symbol = true := by
  cases state with
  | term stack current =>
    cases current with
    | none => cases symbol <;> simp [place, Place.symbols, allows, next?, term?]
    | some t =>
      -- whether the end or a parenthesis can follow depends on what is left open outside the abstractions
      rcases hclose : closeAbs stack t with ⟨u, _ | ⟨before, stack'⟩⟩ <;>
        cases symbol <;> simp [place, Place.symbols, allows, next?, term?, hclose]
  | param stack before => cases symbol <;> simp [place, Place.symbols, allows, next?, term?]
  | dot stack before x => cases symbol <;> simp [place, Place.symbols, allows, next?, term?]

/-- The symbols of a state are those that can follow the tokens that lead to it. -/
private theorem mem_symbols_place_iff {tokens : List Token} {state : State}
    (h : State.initial.read? tokens = some state) (symbol : Symbol) :
    symbol ∈ state.place.symbols ↔ CanFollow tokens symbol := by
  rw [State.mem_symbols_place]
  cases symbol with
  | backslash => simp [State.allows, CanFollow]
  | endOfInput => exact (isSentence_iff h).symm
  | lparen => exact (isViable_append_iff h _).symm
  | rparen => exact (isViable_append_iff h _).symm
  | dot => exact (isViable_append_iff h _).symm
  | lambda => exact (isViable_append_iff h _).symm

/-! ### The error of a text -/

/-- Why the parser stops in a state: in front of a token that cannot stand there, or at the end of a text of the given
length. -/
inductive Stops (length : Nat) (state : State) : List Lexeme → SyntaxError → Prop
  | token {lexeme : Lexeme} (rest : List Lexeme) (h : state.next? lexeme.token = none) :
      Stops length state (lexeme :: rest) (.unexpectedToken lexeme state.place)
  | finish (h : state.term? = none) : Stops length state [] (.unexpectedEnd length state.place)

private theorem exists_stops_of_parseFrom {length : Nat} {state : State} {lexemes : List Lexeme} {e : SyntaxError}
    (h : parseFrom length state lexemes = .error e) :
    ∃ before after last, lexemes = before ++ after ∧ state.read? (before.map Lexeme.token) = some last ∧
      Stops length last after e := by
  induction lexemes generalizing state with
  | nil =>
    rw [parseFrom] at h
    split at h
    · cases h
    · rename_i hterm
      cases h
      exact ⟨[], [], state, rfl, rfl, .finish hterm⟩
  | cons lexeme rest ih =>
    rw [parseFrom] at h
    split at h
    · rename_i next hnext
      obtain ⟨before, after, last, rfl, hread, hstops⟩ := ih h
      refine ⟨lexeme :: before, after, last, rfl, ?_, hstops⟩
      rw [List.map_cons, State.read?_cons, hnext, Option.bind_some, hread]
    · rename_i hnext
      cases h
      exact ⟨[], lexeme :: rest, state, rfl, rfl, .token rest hnext⟩

private theorem parse_eq_parseFrom {text : String} {lexemes : List Lexeme} (h : lex text = .ok lexemes) :
    parse text = parseFrom text.length .initial lexemes := by
  rw [parse, h]
  rfl

/-- The lexemes up to a place in the text are counted by where they end. -/
private theorem countP_stop_le {before after : List Lexeme} {place : Nat} (hbefore : ∀ l ∈ before, l.span.stop ≤ place)
    (hafter : ∀ l ∈ after, place < l.span.stop) :
    (before ++ after).countP (·.span.stop ≤ place) = before.length := by
  have hnone : after.countP (·.span.stop ≤ place) = 0 := by
    rw [List.countP_eq_zero]
    intro l hl
    simpa using hafter l hl
  have hall : before.countP (·.span.stop ≤ place) = before.length := by
    rw [List.countP_eq_length]
    intro l hl
    simpa using hbefore l hl
  rw [List.countP_append, hall, hnone, Nat.add_zero]

/-- The lexemes that end before the place of an error are those that the parser has read. -/
private theorem Stops.countP {text : List Char} {before after : List Lexeme} {state : State} {e : SyntaxError}
    (h : Stops text.length state after e) (hlexes : Lexes 0 text (before ++ after)) :
    (before ++ after).countP (·.span.stop ≤ e.span.start) = before.length := by
  cases h with
  | @token lexeme rest h =>
    obtain ⟨-, hafter, hbefore⟩ := List.pairwise_append.1 hlexes.pairwise
    have hlexeme := hlexes.bounds (List.mem_append_right before (List.mem_cons_self ..))
    refine countP_stop_le (fun l hl => hbefore l hl lexeme (List.mem_cons_self ..)) fun l hl => ?_
    rcases List.mem_cons.1 hl with rfl | hl
    · exact hlexeme.2.1
    · have hfollows := (List.pairwise_cons.1 hafter).1 l hl
      have hl' := hlexes.bounds (List.mem_append_right before (List.mem_cons_of_mem lexeme hl))
      simp only [SyntaxError.span]
      omega
  | finish h =>
    refine countP_stop_le (fun l hl => ?_) (by simp)
    have hl' := hlexes.bounds (List.mem_append_left [] hl)
    simp only [SyntaxError.span]
    omega

/-- A text that has tokens but is no term is refused where its tokens stop being the beginning of a term: the tokens in
front of the place of the error begin one, and the symbols named as possible are those that can follow them.  Either the
error is at a token with which the tokens no longer begin a term, or it is at the end of the text, whose tokens begin
one but are none. -/
theorem parse_error_at_first_impossible_token {text : String} {lexemes : List Lexeme} {e : SyntaxError}
    (hlex : lex text = .ok lexemes) (hparse : parse text = .error e) :
    let tokens := lexemes.map Lexeme.token
    let k := lexemes.countP (·.span.stop ≤ e.span.start)
    IsViable (tokens.take k) ∧ (∀ symbol, symbol ∈ e.expected ↔ CanFollow (tokens.take k) symbol) ∧
      ((∃ lexeme, lexemes[k]? = some lexeme ∧ e.span = lexeme.span ∧ e.found = some lexeme.token.text ∧
          ¬IsViable (tokens.take (k + 1))) ∨
        (k = lexemes.length ∧ e.span = ⟨text.length, text.length + 1⟩ ∧ e.found = none ∧ ¬IsSentence tokens ∧
          ∃ rest, rest ≠ [] ∧ IsSentence (tokens ++ rest))) := by
  intro tokens k
  rw [parse_eq_parseFrom hlex] at hparse
  obtain ⟨before, after, state, rfl, hread, hstops⟩ := exists_stops_of_parseFrom hparse
  have hlexes := (lexFrom_eq_ok_iff.1 hlex).1
  rw [← String.length_toList] at hstops ⊢
  have hk : k = before.length := hstops.countP hlexes
  have htake : tokens.take k = before.map Lexeme.token := by simp [tokens, hk]
  have hviable : IsViable (before.map Lexeme.token) := isViable_iff.2 (by simp [hread])
  rw [htake]
  refine ⟨hviable, ?expected, ?place⟩
  case expected =>
    intro symbol
    rw [← mem_symbols_place_iff hread]
    cases hstops <;> rfl
  case place =>
    cases hstops with
    | @token lexeme rest hnext =>
      refine .inl ⟨lexeme, by simp [hk], rfl, rfl, ?_⟩
      have htokens : tokens = (before.map Lexeme.token ++ [lexeme.token]) ++ rest.map Lexeme.token := by simp [tokens]
      have htake' : tokens.take (k + 1) = before.map Lexeme.token ++ [lexeme.token] := by
        rw [htokens]
        exact List.take_left' (by simp [hk])
      rw [htake', isViable_append_iff hread, hnext]
      simp
    | finish hterm =>
      have htokens : tokens = before.map Lexeme.token := by simp [tokens]
      have hsentence : ¬IsSentence tokens := by
        rw [htokens, isSentence_iff hread, State.CanEnd, hterm]
        simp
      rw [← htokens] at hviable
      exact .inr ⟨by simp [hk], rfl, rfl, hsentence, hviable.exists_rest hsentence⟩

/-- Behind the parenthesis that closes the abstraction a term has been read, so the second one is refused while the end
of the input could have stood there; inside the abstraction it is the other way round. -/
theorem parse_error_at_first_impossible_token_enclosed_body :
    let text := "f (λx.x) )y"
    let lexemes := (lex text).toOption.getD []
    let e := SyntaxError.unexpectedToken ⟨.rparen, ⟨9, 10⟩⟩ .termEnd
    let read : List Token := [.ident "f", .lparen, .lambda, .ident "x", .dot, .ident "x", .rparen]
    let text' := "f (λx.x "
    let lexemes' := (lex text').toOption.getD []
    let e' := SyntaxError.unexpectedEnd 8 .closing
    let read' : List Token := [.ident "f", .lparen, .lambda, .ident "x", .dot, .ident "x"]
    lex text = .ok lexemes ∧ parse text = .error e ∧ IsSentence read ∧ ¬IsViable (read ++ [.rparen]) ∧
      lex text' = .ok lexemes' ∧ parse text' = .error e' ∧ IsViable (read' ++ [.rparen]) ∧ ¬IsSentence read' := by
  intro text lexemes e read text' lexemes' e' read'
  have hlex : lex text = .ok lexemes := by decide +kernel
  have hparse : parse text = .error e := by decide +kernel
  have hread : (lexemes.map Lexeme.token).take (lexemes.countP (·.span.stop ≤ e.span.start)) = read := by
    decide +kernel
  have hlex' : lex text' = .ok lexemes' := by decide +kernel
  have hparse' : parse text' = .error e' := by decide +kernel
  have hread' : (lexemes'.map Lexeme.token).take (lexemes'.countP (·.span.stop ≤ e'.span.start)) = read' := by
    decide +kernel
  obtain ⟨-, hexpected, -⟩ := parse_error_at_first_impossible_token hlex hparse
  obtain ⟨-, hexpected', -⟩ := parse_error_at_first_impossible_token hlex' hparse'
  rw [hread] at hexpected
  rw [hread'] at hexpected'
  exact ⟨hlex, hparse, (hexpected .endOfInput).1 (by decide), fun h => absurd ((hexpected .rparen).2 h) (by decide),
    hlex', hparse', (hexpected' .rparen).1 (by decide), fun h => absurd ((hexpected' .endOfInput).2 h) (by decide)⟩

end LambdaCalculus.Source
