import LambdaCalculus.Program.Repl
import LambdaCalculus.Proofs.Program.Input
import LambdaCalculus.Proofs.Shell.Run
import LambdaCalculus.Proofs.Text

/-!
# Runs of the program

As long as the history can be stored, the read loop does to the shell what its complete inputs do one after the other
(`runLines_eq`), up to the first one that quits.  So all that a run prints is read off the results of the shell on these
inputs (`runInputs_eq`).
-/

namespace LambdaCalculus.Program

open Shell (output)

/-! ### Command lines -/

/-- The command line asks for a shell with the given evaluator and for no history file. -/
def Configures (args : List String) (e : Evaluator) : Prop :=
  ∃ options, Invocation.read args = .ok (.shell options) ∧ options.history = none ∧ options.evaluator = .ok e

private theorem ofString_eq_plain {text : String} (h : '-' ∉ text.toList) : Arg.ofString text = .plain text := by
  rw [Arg.ofString]
  split <;> first | rfl | simp_all

private theorem evaluator_mk (e : Evaluator) : (Options.mk e.strategy e.maxSteps none e.trace).evaluator = .ok e := by
  rw [Options.evaluator, Option.getD_some, Option.getD_some, Evaluator.make, dif_pos e.maxSteps_pos]
  rfl

/-- There is a command line for each strategy, each budget that can be read, and with and without a trace. -/
theorem exists_configures {e : Evaluator} (h : e.maxSteps ≤ Text.maxNumber) : ∃ args, Configures args e := by
  let n := toString e.maxSteps
  let o : Options := ⟨e.strategy, none, none, false⟩
  refine ⟨["--strategy", e.strategy.name, "--max-steps", n] ++ if e.trace then ["--trace"] else [], _, ?_, rfl,
    evaluator_mk e⟩
  have hstrategy (args : List String) : Invocation.read ("--strategy" :: e.strategy.name :: "--max-steps" :: args) =
      Invocation.readFrom ⟨o, some (.maxSteps, none)⟩ args := by
    cases hs : e.strategy <;> simp only [o, hs] <;> rfl
  have hbudget (args : List String) : Invocation.readFrom ⟨o, some (.maxSteps, none)⟩ (n :: args) =
      Invocation.readFrom ⟨o, some (.maxSteps, some n)⟩ args := by
    have hdash : '-' ∉ n.toList := fun hmem => absurd (Text.isDigit_of_mem_toString hmem) (by decide)
    rw [Invocation.readFrom.eq_def]
    simp only [ofString_eq_plain hdash]
    rfl
  have hsettle : Progress.settle ⟨o, some (.maxSteps, some n)⟩ = .ok { o with maxSteps := e.maxSteps } := by
    simp only [Progress.settle, Options.set, n, Text.readNumber_toString h]
    rfl
  simp only [List.cons_append, List.nil_append, hstrategy, hbudget]
  cases e.trace with
  | false => exact congrArg (Except.map Invocation.shell) hsettle
  | true =>
    change (Progress.settle _ >>= fun o => o.setTrace >>= fun o => Invocation.readFrom ⟨o, none⟩ []) = _
    rw [hsettle]
    rfl

/-! ### Complete inputs -/

/-- What an error is reported as: for a term that does not parse, the fault itself. -/
def fault : Shell.Error → String
  | .parse _ error => error.message
  | error => error.message

/-- The error lines that come of an input. -/
def reported : Except Shell.Error Shell.Response → List String
  | .ok _ => []
  | .error error => [errorLine (fault error)]

private theorem Reply.ofResult_eq {result : Except Shell.Error Shell.Response} (h : result ≠ .ok .quit) :
    Reply.ofResult result = { out := output result, err := reported result, quits := false } := by
  cases result with
  | error error => cases error <;> rfl
  | ok response => cases response <;> first | rfl | exact absurd rfl h

/-- The outcome of a run in which the given inputs are left and no history is kept. -/
def runInputs (ending : Ending) (s : Shell) : List String → Outcome
  | [] => .ofEnding ending
  | input :: inputs =>
    let reply := Reply.ofResult (s.execute input).2
    .after reply.out reply.err <|
      if reply.quits then .ended [] else runInputs ending (s.execute input).1 inputs

/-- Inputs are run one after the other until one of them quits or none is left. -/
theorem runInputs_eq (ending : Ending) (s : Shell) (inputs : List String) :
    let results := s.results inputs
    let shown := results.takeWhile (· ≠ .ok .quit)
    runInputs ending s inputs =
      .after (shown.flatMap output) (shown.flatMap reported)
        (if .ok .quit ∈ results then .ended ["Goodbye!"] else .ofEnding ending) := by
  intro results shown
  induction inputs generalizing s with
  | nil => rfl
  | cons input inputs ih =>
    by_cases hquit : (s.execute input).2 = .ok .quit
    · simp [results, shown, runInputs, hquit, Reply.ofResult, Outcome.after, Outcome.ended]
    · simp [results, shown, runInputs, Reply.ofResult_eq hquit, ih, hquit, Ne.symm hquit, Outcome.after]

/-! ### The read loop -/

/-- A line that completes an input is answered.  Unless the input quits, the loop goes on with the shell behind it and
with nothing unfinished. -/
private theorem turn_of_complete {r : Repl} {line input : String}
    (hnext : Reading.next r.unfinished line = .complete input) (keepsHistory : Bool) :
    let reply := Reply.ofResult (r.shell.execute input).2
    ∃ (stored : Option String) (history : History), (keepsHistory = false → stored = none) ∧
      r.turn keepsHistory line =
        { out := reply.out, err := reply.err, stored,
          next := if reply.quits then none else some ⟨(r.shell.execute input).1, history, ""⟩ } := by
  have hfeed : r.feed line =
      (⟨(r.shell.execute input).1, r.history.add input, ""⟩, some (.ofResult (r.shell.execute input).2)) := by
    rw [Repl.feed, hnext]
  rw [Repl.turn, hfeed]
  cases keepsHistory with
  | false => exact ⟨none, _, fun _ => rfl, rfl⟩
  | true =>
    cases hchanged : (r.history.add input).isChanged with
    | false => exact ⟨none, r.history.add input, nofun, by simp [Repl.unsaved?, hchanged]⟩
    | true =>
      exact ⟨some (r.history.add input).store, { r.history.add input with isChanged := false }, nofun,
        by simp [Repl.unsaved?, Repl.saved, hchanged]⟩

private theorem goOn_none (turn : Turn) : turn.goOn none = turn.next.elim (.error (.ended [])) .ok := by
  cases turn with
  | mk out err stored next => cases stored <;> cases next <;> rfl

section

variable {file : Option HistoryFile} (hfile : ∀ f ∈ file, f.writeError = none) (ending : Ending)

include hfile

private theorem runLines_of_complete {r : Repl} {line input : String}
    (hnext : Reading.next r.unfinished line = .complete input) (lines : List String) :
    let reply := Reply.ofResult (r.shell.execute input).2
    ∃ (stored : Option String) (history : History), (file = none → stored = none) ∧
      runLines file ending r (line :: lines) =
        .afterSaving stored (.after reply.out reply.err
          (if reply.quits then .ended []
          else runLines file ending ⟨(r.shell.execute input).1, history, ""⟩ lines)) := by
  have hwrite : file.bind (·.writeError) = none := Option.bind_eq_none_iff.2 hfile
  obtain ⟨stored, history, hstored, hturn⟩ := turn_of_complete hnext file.isSome
  refine ⟨stored, history, fun h => hstored (by rw [h]; rfl), ?_⟩
  rw [runLines, hwrite, hturn, goOn_none]
  cases (Reply.ofResult (r.shell.execute input).2).quits <;> rfl

/-- As long as the history can be stored, the loop does to the shell what the complete inputs do. -/
theorem runLines_eq (r : Repl) (lines : List String) :
    ∃ saved, (file = none → saved = none) ∧
      runLines file ending r lines =
        .afterSaving saved (runInputs ending r.shell (completeInputs r.unfinished lines)) := by
  induction lines generalizing r with
  | nil => exact ⟨none, fun _ => rfl, (Outcome.afterSaving_none _).symm⟩
  | cons line lines ih =>
    cases hnext : Reading.next r.unfinished line with
    | unfinished text =>
      have hturn : r.turn file.isSome line = ⟨[], [], none, some { r with unfinished := text }⟩ := by
        rw [Repl.turn, Repl.feed, hnext]
      rw [completeInputs, hnext, runLines, hturn]
      simpa [Turn.goOn] using ih { r with unfinished := text }
    | complete input =>
      obtain ⟨stored, history, hstored, hrun⟩ := runLines_of_complete hfile ending hnext lines
      obtain ⟨saved, hsaved, hrest⟩ := ih ⟨(r.shell.execute input).1, history, ""⟩
      rw [hrun, hrest, completeInputs, hnext, runInputs]
      cases (Reply.ofResult (r.shell.execute input).2).quits with
      | true => exact ⟨stored, hstored, rfl⟩
      | false =>
        refine ⟨saved.or stored, fun h => by rw [hsaved h, hstored h]; rfl, ?_⟩
        rw [← Outcome.afterSaving_afterSaving]
        rfl

end

/-! ### Whole runs -/

/-- A run that keeps no history is a run of the shell on the complete inputs.  It prints the lines that come of them and
reports their errors, as far as the first input that quits.  Where there is no backspace, `lines` are the lines of the
text (`readLines_eq`). -/
theorem run_is_shell_on_complete_inputs {args lines inputs : List String} {input : String} {e : Evaluator}
    (files : String → HistoryFile) (hargs : Configures args e) (hread : readLines input = (lines, .endOfInput))
    (hinputs : Assembles lines inputs) :
    let results := (Shell.start e).results inputs
    let shown := results.takeWhile (· ≠ .ok .quit)
    run args input files =
      { out := greeting ++ shown.flatMap output ++ [if .ok .quit ∈ results then "Goodbye!" else "Bye!"]
        err := shown.flatMap reported
        code := 0
        saved := none } := by
  obtain ⟨options, hargs, hhistory, he⟩ := hargs
  have hstart : start args = .ok (e, none) := by simp only [start, hargs, he, hhistory]
  have hfile : ∀ f ∈ (none : Option HistoryFile), f.writeError = none := nofun
  obtain ⟨saved, hsaved, hrun⟩ := runLines_eq hfile .endOfInput (.start e .empty) lines
  rw [hsaved rfl, Outcome.afterSaving_none, Repl.start, assembles_iff.1 hinputs, runInputs_eq] at hrun
  intro results shown
  have hrun : run args input files = .after greeting [] (.after (shown.flatMap output) (shown.flatMap reported)
      (if .ok .quit ∈ results then .ended ["Goodbye!"] else .ended ["Bye!"])) := by
    rw [run, hstart, hread]
    exact congrArg (Outcome.after greeting []) hrun
  rw [hrun]
  split <;> simp [Outcome.after, Outcome.ended]

/-- An input over two lines, one that is refused, one that quits, one that is not run and one that does not end. -/
theorem run_is_shell_on_complete_inputs_up_to_quit :
    run ["-m5", "--trace"] "normal TRUE x \\\ny\nstep (\nQuit\nhelp\nx\\\n" (fun _ => ⟨none, none⟩) =
      { out := ["Lambda calculus shell", "Type `help` for a list of commands.", "  1: (λy.x) y", "  2: x", "Result: x",
          "Steps taken: 2", "Goodbye!"]
        err := ["Error: Unexpected end of the input, expected (, λ"]
        code := 0
        saved := none } := by
  have hargs : Configures ["-m5", "--trace"] { strategy := .normal, maxSteps := 5, trace := true } :=
    ⟨⟨none, some 5, none, true⟩, by decide +kernel, rfl, by decide +kernel⟩
  have hread : readLines "normal TRUE x \\\ny\nstep (\nQuit\nhelp\nx\\\n" =
      (["normal TRUE x \\", "y", "step (", "Quit", "help", "x\\"], .endOfInput) := by
    decide +kernel
  have hinputs : Assembles ["normal TRUE x \\", "y", "step (", "Quit", "help", "x\\"]
      ["normal TRUE x \ny", "step (", "Quit", "help"] :=
    .input ["normal TRUE x "] (by decide) <| .input [] (by decide) <| .input [] (by decide) <|
      .input [] (by decide) <| .unfinished ["x"]
  rw [run_is_shell_on_complete_inputs _ hargs hread hinputs]
  decide +kernel

end LambdaCalculus.Program
