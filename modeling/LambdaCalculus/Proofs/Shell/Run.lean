import LambdaCalculus.Proofs.Session.Run
import LambdaCalculus.Shell.Basic

/-!
# Runs of the shell

What one command does to the session and to the evaluator is said once (`session_run`, `evaluator_run`): it makes at
most one definition, which it computes with the session and the evaluator as they are (`made?`).

A run gives a shell one input after another, whatever comes of each of them: `s.after inputs` is the shell behind them
and `s.results inputs` lists what came of them.  The shells that come up in a program are those behind some inputs from
`Shell.start` on, so what holds at the start and is kept by each input holds of all of them (`after_induction`).
-/

namespace LambdaCalculus

namespace Shell

variable {s : Shell} {input : String}

/-! ### One command -/

/-- The definition that a command makes. -/
def made? (s : Shell) : Command → Option (Name × Term)
  | .define name t => some (name, s.session.resolve t)
  | .step t =>
    let t := s.session.resolve t
    some (Session.it, t.normalStep?.getD t)
  | .reduce mode t => some (Session.it, ((mode.apply s.evaluator).evaluate (s.session.resolve t)).term)
  | .church n => some (Session.it, Church.numeral n)
  | .term t => some (Session.it, s.session.resolve t)
  | _ => none

theorem session_run (s : Shell) (c : Command) :
    (s.run c).1.session = ((s.made? c).map fun p => s.session.define p.1 p.2).getD s.session := by
  cases c with
  | step t =>
    rw [run, made?]
    cases (s.session.resolve t).normalStep? <;> rfl
  | _ => rfl

theorem evaluator_run (s : Shell) (c : Command) :
    (s.run c).1.evaluator = match c with
      | .set setting => setting.apply s.evaluator
      | _ => s.evaluator := by
  cases c with
  | step t =>
    rw [run]
    cases (s.session.resolve t).normalStep? <;> rfl
  | _ => rfl

/-! ### One input -/

theorem execute_of_read_eq_ok {c : Command} (h : Command.read input = .ok c) (s : Shell) :
    s.execute input = ((s.run c).1, .ok (s.run c).2) := by
  rw [execute, h]

theorem execute_of_read_eq_error {error : Error} (h : Command.read input = .error error) (s : Shell) :
    s.execute input = (s, .error error) := by
  rw [execute, h]

/-- A response is that to a command. -/
theorem exists_read_of_execute_eq_ok {response : Response} (h : (s.execute input).2 = .ok response) :
    ∃ c, Command.read input = .ok c ∧ (s.run c).2 = response := by
  cases hread : Command.read input with
  | error error =>
    rw [execute_of_read_eq_error hread] at h
    cases h
  | ok c =>
    rw [execute_of_read_eq_ok hread] at h
    exact ⟨c, rfl, Except.ok.inj h⟩

/-- An input that is refused does not read as a command. -/
theorem read_of_execute_eq_error {error : Error} (h : (s.execute input).2 = .error error) :
    Command.read input = .error error := by
  cases hread : Command.read input with
  | error error' =>
    rw [execute_of_read_eq_error hread] at h
    cases h
    rfl
  | ok c =>
    rw [execute_of_read_eq_ok hread] at h
    cases h

/-! ### Many inputs -/

/-- The shell behind the inputs. -/
def after (s : Shell) (inputs : List String) : Shell :=
  inputs.foldl (fun s input => (s.execute input).1) s

/-- What comes of the inputs, one after the other. -/
def results (s : Shell) : List String → List (Except Error Response)
  | [] => []
  | input :: inputs => (s.execute input).2 :: (s.execute input).1.results inputs

@[simp] theorem after_nil (s : Shell) : s.after [] = s :=
  rfl

@[simp] theorem after_cons (s : Shell) (input : String) (inputs : List String) :
    s.after (input :: inputs) = (s.execute input).1.after inputs :=
  rfl

@[simp] theorem after_append (s : Shell) (inputs later : List String) :
    s.after (inputs ++ later) = (s.after inputs).after later :=
  List.foldl_append

@[simp] theorem results_cons (s : Shell) (input : String) (inputs : List String) :
    s.results (input :: inputs) = (s.execute input).2 :: (s.execute input).1.results inputs :=
  rfl

@[simp] theorem results_append (s : Shell) (inputs later : List String) :
    s.results (inputs ++ later) = s.results inputs ++ (s.after inputs).results later := by
  induction inputs generalizing s with
  | nil => rfl
  | cons input inputs ih => simp [ih]

/-- The lines that come of an input: those of the response. -/
def output : Except Error Response → List String
  | .ok response => response.lines
  | .error _ => []

/-- What each input keeps, a run keeps. -/
theorem after_induction {motive : Shell → Prop} (hstart : motive s)
    (hexecute : ∀ (s : Shell) (input : String), motive s → motive (s.execute input).1) (inputs : List String) :
    motive (s.after inputs) := by
  induction inputs generalizing s with
  | nil => exact hstart
  | cons input inputs ih => exact ih (hexecute s input hstart)

end Shell

end LambdaCalculus
