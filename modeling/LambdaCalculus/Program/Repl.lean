import LambdaCalculus.Program.History
import LambdaCalculus.Program.Input
import LambdaCalculus.Program.Options
import LambdaCalculus.Shell.Basic

/-!
# The read loop

The program reads lines, puts them together to inputs, and gives each input to the shell.  Here all this is without
input and output: `start` says what the arguments lead to, `Repl.turn` what a line leads to, and `Turn.goOn` how the run
goes on from there.  The program carries out what they say, and `run` is what a whole run leaves behind.  The loop takes
lines as `readLines` gives them, so it sees no backspace.
-/

namespace LambdaCalculus.Program

/-- The text that an input gives for each output, and whether it ends the loop. -/
structure Reply where
  out : List String
  err : List String
  quits : Bool
  deriving DecidableEq, Repr

/-- An error as it is reported. -/
def errorLine (message : String) : String := "Error: " ++ message

/-- How the answer of the shell is shown.  For a term that does not parse, the fault itself is reported. -/
def Reply.ofResult : Except Shell.Error Shell.Response → Reply
  | .ok .quit => { out := ["Goodbye!"], err := [], quits := true }
  | .ok response => { out := response.lines, err := [], quits := false }
  | .error (.parse _ error) => { out := [], err := [errorLine error.message], quits := false }
  | .error error => { out := [], err := [errorLine error.message], quits := false }

/-- The loop between two lines. -/
structure Repl where
  shell : Shell
  history : History
  /-- The part of the next input that has been read. -/
  unfinished : String

namespace Repl

def start (e : Evaluator) (h : History) : Repl :=
  { shell := Shell.start e, history := h, unfinished := "" }

/-- Takes a line.  There is a reply if the line completes an input. -/
def feed (r : Repl) (line : String) : Repl × Option Reply :=
  match Reading.next r.unfinished line with
  | .unfinished text => ({ r with unfinished := text }, none)
  | .complete input =>
    let (shell, result) := r.shell.execute input
    ({ shell, history := r.history.add input, unfinished := "" }, some (.ofResult result))

/-- The text to be stored, if the history has changed since it was stored. -/
def unsaved? (r : Repl) : Option String :=
  if r.history.isChanged then some r.history.store else none

/-- The history counts as stored from here on. -/
def saved (r : Repl) : Repl :=
  { r with history := { r.history with isChanged := false } }

end Repl

/-! ### Outcomes -/

/-- The file that holds the history between two runs. -/
structure HistoryFile where
  /-- The text in the file, if there is one. -/
  content : Option String
  /-- Why the file cannot be written, if it cannot. -/
  writeError : Option String
  deriving DecidableEq, Repr

/-- What a run leaves behind. -/
structure Outcome where
  out : List String
  err : List String
  code : Nat
  /-- The text stored last. -/
  saved : Option String
  deriving DecidableEq, Repr

namespace Outcome

/-- The outcome of a run that prints the given lines and ends well. -/
def ended (lines : List String) : Outcome :=
  { out := lines, err := [], code := 0, saved := none }

/-- The outcome of a run that ends with an error. -/
def failed (code : Nat) (line : String) : Outcome :=
  { out := [], err := [line], code, saved := none }

/-- The outcome of a run in which no line is left to read. -/
def ofEnding : Ending → Outcome
  | .endOfInput => ended ["Bye!"]
  | .unreadableLine => failed 101 "a backspace does not erase whole code points"

/-- The outcome of a run that prints the given lines before all else. -/
def after (out err : List String) (o : Outcome) : Outcome :=
  { o with out := out ++ o.out, err := err ++ o.err }

/-- The outcome of a run that stores a text, if there is one, before all else. -/
def afterSaving (text : Option String) (o : Outcome) : Outcome :=
  { o with saved := o.saved.or text }

@[simp] theorem after_nil (o : Outcome) : after [] [] o = o := rfl

@[simp] theorem afterSaving_none (o : Outcome) : afterSaving none o = o := by
  rw [afterSaving, Option.or_none]

@[simp] theorem afterSaving_afterSaving (text text' : Option String) (o : Outcome) :
    afterSaving text (afterSaving text' o) = afterSaving (text'.or text) o := by
  rw [afterSaving, afterSaving, afterSaving, Option.or_assoc]

end Outcome

/-! ### One step of the loop -/

/-- What a line leads to. -/
structure Turn where
  out : List String
  err : List String
  /-- The text to be stored before the next line is read. -/
  stored : Option String
  /-- The loop behind it, unless the line ends it. -/
  next : Option Repl

/-- Takes a line.  The history is stored after each reply, if it is kept in a file and has changed. -/
def Repl.turn (keepsHistory : Bool) (r : Repl) (line : String) : Turn :=
  match r.feed line with
  | (r, none) => { out := [], err := [], stored := none, next := some r }
  | (r, some reply) =>
    let stored := if keepsHistory then r.unsaved? else none
    let r := if stored.isSome then r.saved else r
    { out := reply.out, err := reply.err, stored, next := if reply.quits then none else some r }

/-- The loop that takes the next line, or the outcome if there is none.  Given is the reason why nothing can be
stored, if there is one. -/
def Turn.goOn (turn : Turn) (writeError : Option String) : Except Outcome Repl :=
  match turn.stored, writeError with
  | some _, some reason => .error (.failed 1 (errorLine reason))
  | _, _ =>
    match turn.next with
    | some r => .ok r
    | none => .error (.ended [])

/-! ### A whole run -/

/-- What is printed before the first line is read. -/
def greeting : List String :=
  ["Lambda calculus shell", "Type `help` for a list of commands."]

/-- The evaluator and the path of the history file that the arguments ask for, or the outcome if no line is read. -/
def start (args : List String) : Except Outcome (Evaluator × Option String) :=
  match Invocation.read args with
  | .error error => .error (.failed 2 ("error: " ++ error.message))
  | .ok .help => .error (.ended helpLines)
  | .ok (.shell options) =>
    match options.evaluator with
    | .error error => .error (.failed 1 (errorLine error.message))
    | .ok e => .ok (e, options.history)

/-- The outcome of a run in which the given lines are left to read. -/
def runLines (file : Option HistoryFile) (ending : Ending) (r : Repl) : List String → Outcome
  | [] => .ofEnding ending
  | line :: lines =>
    let turn := r.turn file.isSome line
    let writeError := file.bind (·.writeError)
    let rest := match turn.goOn writeError with
      | .ok r => runLines file ending r lines
      | .error o => o
    .after turn.out turn.err (.afterSaving (if writeError.isNone then turn.stored else none) rest)

/-- The outcome of a run with the given arguments and input. -/
def run (args : List String) (input : String) (files : String → HistoryFile) : Outcome :=
  match start args with
  | .error o => o
  | .ok (e, path) =>
    let file := path.map files
    let (lines, ending) := readLines input
    .after greeting [] (runLines file ending (.start e (.ofFile (file.bind (·.content)))) lines)

end LambdaCalculus.Program
