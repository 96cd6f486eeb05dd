import LambdaCalculus.Proofs.Shell.Run
import Mathlib.Control.Monad.Basic

/-!
# Commands carried out step by step

`execute` reads an input to its end before the shell changes.  `perform` goes through the input piece by piece instead:
it looks names up as soon as it has a term, changes the session or the evaluator where it stands, and a fault ends it
wherever it is, with the shell as it is at that moment.  Both come to the same (`outcome_perform`), because no command
can fail any more once it has changed something.

So an input that is refused changes nothing, and since it is refused for its text alone, it is as if it had not been
there.
-/

namespace LambdaCalculus.Shell

open Text (trim cutAt? isWhiteSpace readNumber)

/-! ### Actions -/

/-- Something that a shell does and that may fail on the way. -/
abbrev Action := ExceptT Error (StateM Shell)

namespace Action

variable {α β : Type}

/-- What comes of an action, and the shell as the action leaves it. -/
def outcome (x : Action α) (s : Shell) : Except Error α × Shell :=
  x.run.run s

/-- Reads a term and puts the definitions of the session into it. -/
def resolved (source : List Char) : Action Term := do
  let t ← liftExcept (readTerm source)
  return (← get).session.resolve t

/-- Reads the argument of a command. -/
def argument (word : Word) (source : List Char) : Action Term := do
  if source.isEmpty then throw (.usage word)
  resolved source

def define (args : List Char) : Action Response := do
  let some (name, source) := cutAt? isWhiteSpace args | throw (.usage .define)
  let name := String.ofList name
  if !Source.isIdentifier name then throw (.usage .define)
  let t ← argument .define (trim source)
  modify fun s => { s with session := s.session.define name t }
  return .defined name t

def step (args : List Char) : Action Response := do
  let t ← argument .step args
  match t.normalStep? with
  | some u =>
    modify (·.setIt u)
    return .stepped u
  | none =>
    modify (·.setIt t)
    return .alreadyNormal

def reduce (word : Word) (mode : Mode) (args : List Char) : Action Response := do
  let e := mode.apply (← get).evaluator
  let t ← argument word args
  let r := e.evaluate t
  modify (·.setIt r.term)
  return .reduced r

def church (args : List Char) : Action Response := do
  let .ok n := readNumber args | throw (.usage .church)
  let t := Church.numeral n
  modify (·.setIt t)
  return .numeral n t

/-- A command that only answers a question about a term. -/
def inspect (word : Word) (args : List Char) (respond : Evaluator → Term → Response) : Action Response := do
  let t ← argument word args
  return respond (← get).evaluator t

def alpha (args : List Char) : Action Response := do
  let some (left, right) := cutAt? (· == ';') args | throw (.usage .alpha)
  let t ← argument .alpha (trim left)
  let u ← argument .alpha (trim right)
  return .comparison t u (t.alphaEq u)

/-- Changes one field of the evaluator. -/
def change (key : String) (value : List Char) : Action Unit := do
  match key with
  | "strategy" =>
    let strategy ← liftExcept ((Strategy.read (String.ofList value)).mapError Error.config)
    modify fun s => { s with evaluator := { s.evaluator with strategy } }
  | "steps" =>
    let .ok n := readNumber value | throw (.usage .set)
    let e ← liftExcept ((Evaluator.make (← get).evaluator.strategy n).mapError Error.config)
    modify fun s => { s with evaluator := { e with trace := s.evaluator.trace } }
  | "trace" =>
    match String.ofList value with
    | "on" => modify fun s => { s with evaluator := { s.evaluator with trace := true } }
    | "off" => modify fun s => { s with evaluator := { s.evaluator with trace := false } }
    | _ => throw (.usage .set)
  | _ => throw (.usage .set)

def set (args : List Char) : Action Response := do
  let some (key, value) := cutAt? isWhiteSpace args | throw (.usage .set)
  change (String.ofList key) (trim value)
  return .settings (← get).evaluator

/-- Carries a command out. -/
def command (word : Word) (args : List Char) : Action Response :=
  match word with
  | .help => return .help
  | .quit => return .quit
  | .vars => return .vars (← get).session.toList
  | .define => define args
  | .step => step args
  | .beta => reduce .beta .configured args
  | .normal => reduce .normal .normal args
  | .app => reduce .app .applicative args
  | .trace => reduce .trace .traced args
  | .church => church args
  | .extract => inspect .extract args fun e t => .number (Church.readNumeral (e.evaluate t).term)
  | .bool => inspect .bool args fun e t => .boolean (Church.toBoolean e t)
  | .free => inspect .free args fun _ t => .names (Name.sorted t.freeVars) (Name.sorted t.boundVars)
  | .alpha => alpha args
  | .set => set args

/-- Carries an input out. -/
def perform (input : String) : Action Response := do
  let text := trim input.toList
  if text.isEmpty then return .nothing
  let (word, args) := (cutAt? isWhiteSpace text).getD (text, [])
  match Word.ofText? (String.ofList word) with
  | some word => command word (trim args)
  | none =>
    let t ← resolved text
    modify (·.setIt t)
    return .term t

/-! ### Outcomes -/

variable (s : Shell)

@[simp] private theorem outcome_throw (error : Error) : outcome (throw error : Action α) s = (.error error, s) :=
  rfl

@[simp] private theorem outcome_get : outcome get s = (.ok s, s) :=
  rfl

@[simp] private theorem outcome_modify (f : Shell → Shell) : outcome (modify f) s = (.ok (), f s) :=
  rfl

@[simp] private theorem outcome_liftExcept (x : Except Error α) : outcome (liftExcept x) s = (x, s) := by
  cases x <;> rfl

@[simp] private theorem outcome_bind (x : Action α) (f : α → Action β) :
    outcome (x >>= f) s =
      match x.outcome s with
      | (.ok a, s') => (f a).outcome s'
      | (.error error, s') => (.error error, s') := by
  rw [outcome, outcome, ExceptT.run_bind, StateT.run_bind]
  rcases x.run.run s with ⟨_ | _, s'⟩ <;> rfl

@[simp] private theorem outcome_map (f : α → β) (x : Action α) :
    outcome (f <$> x) s = ((x.outcome s).1.map f, (x.outcome s).2) := by
  rw [map_eq_pure_bind, outcome_bind]
  rcases x.outcome s with ⟨_ | _, s'⟩ <;> rfl

/-- A term that does not read ends the action before anything else is done. -/
private theorem outcome_resolved_bind (source : List Char) (f : Term → Action β) :
    outcome (resolved source >>= f) s =
      match readTerm source with
      | .ok t => (f (s.session.resolve t)).outcome s
      | .error error => (.error error, s) := by
  cases h : readTerm source <;> simp [resolved, h]

private theorem outcome_argument_bind (word : Word) (source : List Char) (f : Term → Action β) :
    outcome (argument word source >>= f) s =
      match readArgument word source with
      | .ok t => (f (s.session.resolve t)).outcome s
      | .error error => (.error error, s) := by
  cases h : source.isEmpty with
  | true => simp [argument, readArgument, h]
  | false => simpa [argument, readArgument, h] using outcome_resolved_bind s source f

/-- What comes of an input that has been read to its end, and the shell behind it. -/
def answer : Except Error Command → Except Error Response × Shell
  | .ok c => (.ok (s.run c).2, (s.run c).1)
  | .error error => (.error error, s)

/-- A command with one argument fails only if the argument does not read. -/
private theorem outcome_argument_bind_eq_answer {word : Word} {source : List Char} {f : Term → Action Response}
    {c : Term → Command} (h : ∀ t, (f (s.session.resolve t)).outcome s = answer s (.ok (c t))) :
    outcome (argument word source >>= f) s = answer s ((readArgument word source).map c) := by
  rw [outcome_argument_bind]
  cases readArgument word source with
  | error error => rfl
  | ok t => exact h t

private theorem outcome_define (args : List Char) : (define args).outcome s = answer s (Word.define.readArgs args) := by
  rw [define, Word.readArgs]
  cases cutAt? isWhiteSpace args with
  | none => rfl
  | some cut =>
    cases hname : Source.isIdentifier (String.ofList cut.1) with
    | false => simp [hname, answer]
    | true =>
      simp only [hname]
      exact outcome_argument_bind_eq_answer s fun t => rfl

private theorem outcome_step (args : List Char) : (step args).outcome s = answer s (Word.step.readArgs args) := by
  refine outcome_argument_bind_eq_answer s fun t => ?_
  simp only [answer, run]
  cases (s.session.resolve t).normalStep? <;> rfl

private theorem outcome_reduce (word : Word) (mode : Mode) (args : List Char) :
    (reduce word mode args).outcome s = answer s ((readArgument word args).map (.reduce mode)) := by
  rw [reduce, outcome_bind, outcome_get]
  exact outcome_argument_bind_eq_answer s fun t => rfl

private theorem outcome_church (args : List Char) : (church args).outcome s = answer s (Word.church.readArgs args) := by
  rw [church, Word.readArgs]
  cases readNumber args <;> rfl

private theorem outcome_inspect (word : Word) (args : List Char) (respond : Evaluator → Term → Response)
    {c : Term → Command} (h : ∀ t, s.run (c t) = (s, respond s.evaluator (s.session.resolve t))) :
    (inspect word args respond).outcome s = answer s ((readArgument word args).map c) := by
  refine outcome_argument_bind_eq_answer s fun t => ?_
  rw [answer, h]
  rfl

private theorem outcome_alpha (args : List Char) : (alpha args).outcome s = answer s (Word.alpha.readArgs args) := by
  rw [alpha, Word.readArgs]
  cases cutAt? (· == ';') args with
  | none => rfl
  | some cut =>
    simp only [outcome_argument_bind]
    cases readArgument .alpha (trim cut.1) with
    | error error => rfl
    | ok t =>
      cases readArgument .alpha (trim cut.2) <;> rfl

private theorem outcome_set (args : List Char) : (set args).outcome s = answer s (Word.set.readArgs args) := by
  rw [set, Word.readArgs, readSetting]
  cases cutAt? isWhiteSpace args with
  | none => rfl
  | some cut =>
    simp only [Option.map_some]
    generalize String.ofList cut.1 = key, trim cut.2 = value
    by_cases hstrategy : key = "strategy"
    · cases h : Strategy.read (String.ofList value) <;>
        simp [change, hstrategy, h, answer, run, Setting.apply, Except.map, Except.mapError]
    by_cases hsteps : key = "steps"
    · cases h : readNumber value with
      | error error => simp [change, hsteps, h, answer, Except.map]
      | ok n =>
        by_cases hpos : 0 < n <;>
          simp [change, hsteps, h, hpos, Evaluator.make, answer, run, Setting.apply, Except.map, Except.mapError]
    by_cases htrace : key = "trace"
    · by_cases hon : String.ofList value = "on"
      · simp [change, htrace, hon, answer, run, Setting.apply, Except.map]
      by_cases hoff : String.ofList value = "off"
      · simp [change, htrace, hoff, answer, run, Setting.apply, Except.map]
      · simp [change, htrace, answer, Except.map]
    simp [change, hstrategy, hsteps, htrace, answer, Except.map]

private theorem outcome_command (word : Word) (args : List Char) :
    (command word args).outcome s = answer s (word.readArgs args) := by
  cases word with
  | help => rfl
  | quit => rfl
  | vars => rfl
  | define => exact outcome_define s args
  | step => exact outcome_step s args
  | beta => exact outcome_reduce s .beta .configured args
  | normal => exact outcome_reduce s .normal .normal args
  | app => exact outcome_reduce s .app .applicative args
  | trace => exact outcome_reduce s .trace .traced args
  | church => exact outcome_church s args
  | extract =>
    rw [command, Word.readArgs]
    exact outcome_inspect s .extract args _ fun _ => rfl
  | bool =>
    rw [command, Word.readArgs]
    exact outcome_inspect s .bool args _ fun _ => rfl
  | free =>
    rw [command, Word.readArgs]
    exact outcome_inspect s .free args _ fun _ => rfl
  | alpha => exact outcome_alpha s args
  | set => exact outcome_set s args

/-- To carry an input out step by step comes to the same as to read it to its end first. -/
private theorem outcome_perform (input : String) :
    (perform input).outcome s = ((s.execute input).2, (s.execute input).1) := by
  have hanswer : ((s.execute input).2, (s.execute input).1) = answer s (Command.read input) := by
    cases h : Command.read input with
    | ok c => rw [execute_of_read_eq_ok h, answer]
    | error error => rw [execute_of_read_eq_error h, answer]
  rw [hanswer, perform, Command.read]
  cases (trim input.toList).isEmpty with
  | true => rfl
  | false =>
    generalize (cutAt? isWhiteSpace (trim input.toList)).getD (trim input.toList, []) = cut
    cases hword : Word.ofText? (String.ofList cut.1) with
    | none =>
      simp only [hword]
      refine (outcome_resolved_bind s _ _).trans ?_
      cases readTerm (trim input.toList) <;> rfl
    | some word =>
      simp only [hword]
      exact outcome_command s word (trim cut.2)

end Action

/-! ### Inputs that are refused -/

/-- An input that is refused changes nothing, although it is carried out step by step, and whatever comes later goes as
if it had not been there. -/
theorem failed_input_changes_nothing (e : Evaluator) (inputs : List String) {input : String} {error : Error}
    (h : (((start e).after inputs).execute input).2 = .error error) :
    let s := (start e).after inputs
    (Action.perform input).outcome s = (.error error, s) ∧
      (s.execute input).1 = s ∧
      ∀ later,
        (start e).results (inputs ++ input :: later) = (start e).results inputs ++ .error error :: s.results later ∧
        (start e).results (inputs ++ later) = (start e).results inputs ++ s.results later ∧
        (start e).after (inputs ++ input :: later) = (start e).after (inputs ++ later) := by
  intro s
  have hexecute : s.execute input = (s, .error error) := execute_of_read_eq_error (read_of_execute_eq_error h) s
  refine ⟨?_, by rw [hexecute], fun later => ⟨?_, results_append .., ?_⟩⟩
  · rw [Action.outcome_perform, hexecute]
  · rw [results_append, results_cons, hexecute]
  · rw [after_append, after_append, after_cons, hexecute]

/-- Only the second term is at fault here, after the first one has been looked up. -/
theorem failed_input_changes_nothing_second_term :
    let e : Evaluator := { strategy := .normal, maxSteps := 10, trace := false, maxSteps_pos := by decide }
    let s := (start e).after ["let two λf.λx.f (f x)", "set trace on"]
    (s.execute "alpha two ; two (").2 = .error (.parse "two (" (.unexpectedEnd 5 .termStart)) ∧
      (s.execute "alpha two ; two (").1 = s := by
  intro e s
  have h : (s.execute "alpha two ; two (").2 = .error (.parse "two (" (.unexpectedEnd 5 .termStart)) := by
    decide +kernel
  exact ⟨h, (failed_input_changes_nothing e _ h).2.1⟩

end LambdaCalculus.Shell
