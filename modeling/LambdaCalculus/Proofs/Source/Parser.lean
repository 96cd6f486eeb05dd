import LambdaCalculus.Source.Parser
import Mathlib.Control.Monad.Basic

/-!
# The parser reads the grammar

The grammar says which sequences of tokens are terms, and of which term each is the concrete form.  A term is a sequence
of atoms, the last of which may be an abstraction without parentheses; its body reaches to the end of the sequence.

A text is read as a term exactly if it can be cut into tokens and these are the concrete form of the term
(`parse_eq_ok_iff`), and no sequence of tokens is the concrete form of two terms (`IsTerm.unique`).

In one direction the states of the parser say what the tokens read so far are (`Reads`): each open parenthesis and
each open abstraction stands behind the tokens of the atoms that are applied to it, and a step keeps this
(`Reads.next?`).  In the other direction a derivation is followed token by token (`IsTerm.read?`).  An abstraction
without parentheses stays open until a parenthesis or the input ends, so behind the tokens of a term the state is not
the one with that term alone, but one that closes to the same result.
-/

namespace LambdaCalculus.Source

/-! ### The grammar -/

mutual

/-- A sequence of tokens that is a variable or a term in parentheses. -/
inductive IsAtom : List Token → Term → Prop where
  | ident (x : Name) : IsAtom [.ident x] (.var x)
  | paren {tokens : List Token} {t : Term} (h : IsTerm tokens t) : IsAtom (.lparen :: tokens ++ [.rparen]) t

/-- A sequence of one or more atoms, applied from the left to the right. -/
inductive IsAtoms : List Token → Term → Prop where
  | one {tokens : List Token} {t : Term} (h : IsAtom tokens t) : IsAtoms tokens t
  | more {tokens tokens' : List Token} {t u : Term} (h : IsAtoms tokens t) (h' : IsAtom tokens' u) :
      IsAtoms (tokens ++ tokens') (.app t u)

/-- A sequence of tokens that is a term. -/
inductive IsTerm : List Token → Term → Prop where
  | atoms {tokens : List Token} {t : Term} (h : IsAtoms tokens t) : IsTerm tokens t
  | abs (x : Name) {tokens : List Token} {t : Term} (h : IsTerm tokens t) :
      IsTerm (.lambda :: .ident x :: .dot :: tokens) (.abs x t)
  | atomsAbs (x : Name) {tokens tokens' : List Token} {t u : Term} (h : IsAtoms tokens t) (h' : IsTerm tokens' u) :
      IsTerm (tokens ++ .lambda :: .ident x :: .dot :: tokens') (.app t (.abs x u))

end

/-! ### Reading several tokens -/

/-- The state behind further tokens, unless one of them cannot stand where it does. -/
def State.read? (state : State) (tokens : List Token) : Option State :=
  tokens.foldlM State.next? state

namespace State

@[simp] theorem read?_nil (state : State) : state.read? [] = some state :=
  rfl

@[simp] theorem read?_cons (state : State) (token : Token) (tokens : List Token) :
    state.read? (token :: tokens) = (state.next? token).bind (·.read? tokens) :=
  rfl

@[simp] theorem read?_append (state : State) (tokens tokens' : List Token) :
    state.read? (tokens ++ tokens') = (state.read? tokens).bind (·.read? tokens') :=
  List.foldlM_append

end State

/-! ### What the tokens read so far are -/

/-- Whether the tokens are those of the term read so far, or none if there is no such term. -/
def IsPart (tokens : List Token) : Option Term → Prop
  | none => tokens = []
  | some t => IsAtoms tokens t

private theorem IsPart.nil : IsPart [] none :=
  rfl

private theorem IsPart.extend {part tokens : List Token} {current : Option Term} {t : Term} (h : IsPart part current)
    (ht : IsAtom tokens t) : IsPart (part ++ tokens) (some (extend current t)) := by
  cases current with
  | none =>
    cases h
    exact IsAtoms.one ht
  | some u => exact IsAtoms.more h ht

private theorem IsPart.abs {part tokens : List Token} {before : Option Term} {t : Term} (h : IsPart part before)
    (x : Name) (ht : IsTerm tokens t) :
    IsTerm (part ++ .lambda :: .ident x :: .dot :: tokens) (Source.extend before (.abs x t)) := by
  cases before with
  | none =>
    cases h
    exact .abs x ht
  | some u => exact .atomsAbs x h ht

/-- Tokens that open the frames of a stack, with the terms that are applied to what is in the frames. -/
inductive Opens : List Token → List Frame → Prop
  | nil : Opens [] []
  | paren {opened part : List Token} {stack : List Frame} {before : Option Term} (h : Opens opened stack)
      (hpart : IsPart part before) : Opens (opened ++ part ++ [.lparen]) (.paren before :: stack)
  | lambda {opened part : List Token} {stack : List Frame} {before : Option Term} (x : Name) (h : Opens opened stack)
      (hpart : IsPart part before) : Opens (opened ++ part ++ [.lambda, .ident x, .dot]) (.lambda before x :: stack)

/-- What the tokens read so far are, in each state. -/
inductive Reads : List Token → State → Prop
  | term {opened part : List Token} {stack : List Frame} {current : Option Term} (h : Opens opened stack)
      (hpart : IsPart part current) : Reads (opened ++ part) (.term stack current)
  | param {opened part : List Token} {stack : List Frame} {before : Option Term} (h : Opens opened stack)
      (hpart : IsPart part before) : Reads (opened ++ part ++ [.lambda]) (.param stack before)
  | dot {opened part : List Token} {stack : List Frame} {before : Option Term} (x : Name) (h : Opens opened stack)
      (hpart : IsPart part before) : Reads (opened ++ part ++ [.lambda, .ident x]) (.dot stack before x)

/-- What the tokens are once the abstractions around the innermost term are ended. -/
def Closes (tokens : List Token) : Term × Option (Option Term × List Frame) → Prop
  | (t, none) => IsTerm tokens t
  | (t, some (before, stack)) => ∃ opened part inner, tokens = opened ++ part ++ .lparen :: inner ∧
      Opens opened stack ∧ IsPart part before ∧ IsTerm inner t

private theorem Opens.closes {opened inner : List Token} {stack : List Frame} {t : Term} (h : Opens opened stack)
    (ht : IsTerm inner t) : Closes (opened ++ inner) (closeAbs stack t) := by
  induction h generalizing inner t with
  | nil => exact ht
  | paren h hpart => exact ⟨_, _, inner, by simp, h, hpart, ht⟩
  | lambda x _ hpart ih => simpa [closeAbs] using ih (hpart.abs x ht)

/-- A step of the parser keeps what its state says about the tokens. -/
private theorem Reads.next? {tokens : List Token} {state state' : State} {token : Token} (h : Reads tokens state)
    (hnext : state.next? token = some state') : Reads (tokens ++ [token]) state' := by
  cases h with
  | @term opened part stack current h hpart =>
    cases token with
    | ident x =>
      cases hnext
      rw [List.append_assoc]
      exact .term h (hpart.extend (.ident x))
    | lparen =>
      cases hnext
      simpa using Reads.term (h.paren hpart) .nil
    | lambda =>
      cases hnext
      exact .param h hpart
    | dot => cases hnext
    | rparen =>
      cases current with
      | none => cases hnext
      | some t =>
        -- the parenthesis that is closed is the innermost one, around the abstractions that end with it
        have hcloses := h.closes (.atoms hpart)
        rw [State.next?] at hnext
        split at hnext
        · rename_i u before stack' hclose
          cases hnext
          rw [hclose] at hcloses
          obtain ⟨opened', part', inner, heq, h', hpart', hu⟩ := hcloses
          rw [heq]
          simpa using Reads.term h' (hpart'.extend (.paren hu))
        · cases hnext
  | param h hpart =>
    cases token with
    | ident x =>
      cases hnext
      simpa using Reads.dot x h hpart
    | _ => cases hnext
  | dot x h hpart =>
    cases token with
    | dot =>
      cases hnext
      simpa using Reads.term (h.lambda x hpart) .nil
    | _ => cases hnext

private theorem Reads.read? {read tokens : List Token} {state state' : State} (h : Reads read state)
    (hread : state.read? tokens = some state') : Reads (read ++ tokens) state' := by
  induction tokens generalizing read state with
  | nil =>
    cases hread
    rwa [List.append_nil]
  | cons token tokens ih =>
    rw [State.read?_cons, Option.bind_eq_some_iff] at hread
    obtain ⟨next, hnext, hread⟩ := hread
    simpa using ih (h.next? hnext) hread

private theorem Reads.isTerm {tokens : List Token} {state : State} {t : Term} (h : Reads tokens state)
    (ht : state.term? = some t) : IsTerm tokens t := by
  cases h with
  | @term opened part stack current h hpart =>
    cases current with
    | none => cases ht
    | some u =>
      have hcloses := h.closes (.atoms hpart)
      rw [State.term?] at ht
      split at ht
      · rename_i hclose
        cases ht
        rwa [hclose] at hcloses
      · cases ht
  | param => cases ht
  | dot => cases ht

/-! ### Derivations, token by token -/

mutual

private theorem IsAtom.read? {tokens : List Token} {t : Term} (h : IsAtom tokens t) (stack : List Frame)
    (current : Option Term) :
    (State.term stack current).read? tokens = some (.term stack (some (extend current t))) :=
  match h with
  | .ident x => rfl
  | .paren h => by
    obtain ⟨stack', u, hread, hclose⟩ := h.read? (.paren current :: stack)
    simp [State.next?, hread, hclose, closeAbs]

private theorem IsAtoms.read? {tokens : List Token} {t : Term} (h : IsAtoms tokens t) (stack : List Frame) :
    (State.term stack none).read? tokens = some (.term stack (some t)) :=
  match h with
  | .one h => h.read? stack none
  | .more h h' => by
    rw [State.read?_append, h.read? stack, Option.bind_some, h'.read? stack]
    rfl

/-- Behind the tokens of a term the state closes to that term. -/
private theorem IsTerm.read? {tokens : List Token} {t : Term} (h : IsTerm tokens t) (stack : List Frame) :
    ∃ stack' u, (State.term stack none).read? tokens = some (.term stack' (some u)) ∧
      closeAbs stack' u = closeAbs stack t :=
  match h with
  | .atoms h => ⟨stack, _, h.read? stack, rfl⟩
  | .abs x h => h.read? (.lambda none x :: stack)
  | .atomsAbs x h h' => by
    obtain ⟨stack', u, hread, hclose⟩ := h'.read? (.lambda (some _) x :: stack)
    refine ⟨stack', u, ?_, hclose⟩
    rw [State.read?_append, h.read? stack]
    exact hread

end

/-! ### Acceptance -/

theorem isTerm_iff {tokens : List Token} {t : Term} :
    IsTerm tokens t ↔ (State.initial.read? tokens).bind State.term? = some t := by
  constructor
  · intro h
    obtain ⟨stack, u, hread, hclose⟩ := h.read? []
    rw [State.initial, hread, Option.bind_some, State.term?, hclose]
    rfl
  · intro h
    obtain ⟨state, hread, ht⟩ := Option.bind_eq_some_iff.1 h
    have hreads : Reads [] State.initial := .term .nil .nil
    exact (hreads.read? hread).isTerm ht

/-- A sequence of tokens is the concrete form of at most one term. -/
theorem IsTerm.unique {tokens : List Token} {t u : Term} (ht : IsTerm tokens t) (hu : IsTerm tokens u) : t = u := by
  rw [isTerm_iff] at ht hu
  exact Option.some.inj (ht.symm.trans hu)

private theorem parseFrom_eq_ok_iff {length : Nat} {state : State} {lexemes : List Lexeme} {t : Term} :
    parseFrom length state lexemes = .ok t ↔
      (state.read? (lexemes.map Lexeme.token)).bind State.term? = some t := by
  induction lexemes generalizing state with
  | nil =>
    rw [parseFrom, List.map_nil, State.read?_nil, Option.bind_some]
    cases state.term? <;> simp
  | cons lexeme rest ih =>
    rw [parseFrom, List.map_cons, State.read?_cons]
    cases state.next? lexeme.token with
    | none => simp
    | some next => exact ih

/-- The parser accepts the concrete forms of terms. -/
theorem parse_eq_ok_iff {text : String} {t : Term} :
    parse text = .ok t ↔ ∃ lexemes, lex text = .ok lexemes ∧ IsTerm (lexemes.map Lexeme.token) t := by
  rw [parse]
  cases lex text with
  | error e => simp [bind, Except.bind]
  | ok lexemes => simp [bind, Except.bind, parseFrom_eq_ok_iff, isTerm_iff]

/-- The parser accepts exactly the texts whose tokens are the concrete form of a term, and returns that term, of which
there is only one. -/
theorem parse_accepts_unambiguous_grammar :
    (∀ (text : String) (t : Term),
        parse text = .ok t ↔ ∃ lexemes, lex text = .ok lexemes ∧ IsTerm (lexemes.map Lexeme.token) t) ∧
      ∀ (tokens : List Token) (t u : Term), IsTerm tokens t → IsTerm tokens u → t = u :=
  ⟨fun _ _ => parse_eq_ok_iff, fun _ _ _ => IsTerm.unique⟩

/-- The body of an abstraction takes all atoms up to the parenthesis that encloses it, and no more. -/
theorem parse_accepts_unambiguous_grammar_enclosed_body :
    let text := "(f λx. x y)z"
    let tokens : List Token :=
      [.lparen, .ident "f", .lambda, .ident "x", .dot, .ident "x", .ident "y", .rparen, .ident "z"]
    let t : Term := .app (.app (.var "f") (.abs "x" (.app (.var "x") (.var "y")))) (.var "z")
    let u := (parse text).toOption.getD default
    IsTerm tokens t ∧ parse text = .ok u ∧ IsTerm tokens u ∧ t = u := by
  intro text tokens t u
  have hbody : IsTerm [.ident "x", .ident "y"] (.app (.var "x") (.var "y")) :=
    .atoms (.more (.one (.ident "x")) (.ident "y"))
  have hinner : IsTerm [.ident "f", .lambda, .ident "x", .dot, .ident "x", .ident "y"]
      (.app (.var "f") (.abs "x" (.app (.var "x") (.var "y")))) :=
    .atomsAbs "x" (.one (.ident "f")) hbody
  have ht : IsTerm tokens t := .atoms (.more (.one (.paren hinner)) (.ident "z"))
  have hparse : parse text = .ok u := by decide +kernel
  have htokens : (lex text).map (List.map Lexeme.token) = .ok tokens := by decide +kernel
  obtain ⟨lexemes, hlex, hu⟩ := (parse_accepts_unambiguous_grammar.1 text u).1 hparse
  rw [hlex] at htokens
  rw [Except.ok.inj htokens] at hu
  exact ⟨ht, hparse, hu, parse_accepts_unambiguous_grammar.2 tokens t u ht hu⟩

end LambdaCalculus.Source
