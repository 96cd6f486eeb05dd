import LambdaCalculus.Reduction.Evaluator
import LambdaCalculus.Text.ControlSequence
import LambdaCalculus.Text.Basic

/-!
# The command line

Arguments are read from left to right.  The value of an option may be attached to it (`-mN`, `--max-steps=N`) or be the
argument that follows.  In the second case the option is settled, its value read and checked, only when the next option
has been recognised or the command line ends: an argument that does not belong there is reported before a bad value in
front of it.
-/

namespace LambdaCalculus.Program

open Text (cutAt? readNumber)

/-- An option with a value. -/
inductive Key where
  | strategy
  | maxSteps
  | history
  deriving DecidableEq, Repr

namespace Key

/-- The option with its value, as it is named in errors. -/
def text : Key → String
  | strategy => "--strategy <STRATEGY>"
  | maxSteps => "--max-steps <MAX_STEPS>"
  | history => "--history <HISTORY>"

/-- The option with the given long name. -/
def ofLong? : String → Option Key
  | "strategy" => some strategy
  | "max-steps" => some maxSteps
  | "history" => some history
  | _ => none

/-- The option with the given letter. -/
def ofShort? : Char → Option Key
  | 's' => some strategy
  | 'm' => some maxSteps
  | _ => none

end Key

/-- Why a command line is refused. -/
inductive UsageError where
  | missingValue (key : Key)
  /-- The option, named as in errors, occurs twice. -/
  | repeated (option : String)
  | unexpectedArgument (arg : String)
  /-- A value is attached to an option that has none. -/
  | unexpectedValue (value option : String)
  | invalidStrategy (value : String) (error : ConfigError)
  | invalidNumber (value : String) (error : Text.DecimalError)
  deriving DecidableEq, Repr

namespace UsageError

/-- The hint at the end of a message, behind other text. -/
private def hint (text : String) : List String :=
  [text ++ "\n\nFor more information, try '", "--help", "'."]

private def invalid (value : String) (key : Key) (reason : String) : List String :=
  ["invalid value '", value, "' for '", key.text] ++ hint ("': " ++ reason)

/-- The message in the parts that are written for themselves: a control sequence does not go on in the next part. -/
def parts : UsageError → List String
  | missingValue key => ["a value is required for '", key.text] ++ hint "' but none was supplied"
  | repeated option => ["the argument '", option] ++ hint "' cannot be used multiple times"
  | unexpectedArgument arg => ["unexpected argument '", arg] ++ hint "' found"
  | unexpectedValue value option =>
    ["unexpected value '", value, "' for '", option] ++ hint "' found; no more were expected"
  | invalidStrategy value error => invalid value .strategy error.message
  | invalidNumber value error => invalid value .maxSteps error.message

/-- The message, from which control characters and control sequences are left out. -/
def message (error : UsageError) : String :=
  String.join (error.parts.map Text.visible)

end UsageError

/-- The options that have been given. -/
structure Options where
  strategy : Option Strategy
  maxSteps : Option Nat
  history : Option String
  trace : Bool
  deriving DecidableEq, Repr

namespace Options

def empty : Options :=
  { strategy := none, maxSteps := none, history := none, trace := false }

/-- Whether an option has been given. -/
def has (o : Options) : Key → Bool
  | .strategy => o.strategy.isSome
  | .maxSteps => o.maxSteps.isSome
  | .history => o.history.isSome

/-- Gives an option its value.  A path is not empty. -/
def set (o : Options) (key : Key) (value : String) : Except UsageError Options :=
  if o.has key then .error (.repeated key.text)
  else match key with
    | .strategy =>
      match Strategy.read value with
      | .ok strategy => .ok { o with strategy }
      | .error error => .error (.invalidStrategy value error)
    | .maxSteps =>
      match readNumber value.toList with
      | .ok n => .ok { o with maxSteps := n }
      | .error error => .error (.invalidNumber value error)
    | .history => if value.isEmpty then .error (.missingValue key) else .ok { o with history := value }

/-- Asks for the steps of reductions to be shown. -/
def setTrace (o : Options) : Except UsageError Options :=
  if o.trace then .error (.repeated "--trace") else .ok { o with trace := true }

/-- The evaluator that the options describe. -/
def evaluator (o : Options) : Except ConfigError Evaluator :=
  let standard := Evaluator.standard
  (Evaluator.make (o.strategy.getD standard.strategy) (o.maxSteps.getD standard.maxSteps)).map fun e =>
    { e with trace := o.trace }

end Options

/-- An argument by its form. -/
inductive Arg where
  /-- The argument `--`, behind which there are no options. -/
  | separator
  | long (name : String) (value : Option String)
  | short (letter : Char) (rest : List Char)
  | plain (text : String)
  deriving DecidableEq, Repr

def Arg.ofString (text : String) : Arg :=
  match text.toList with
  | ['-', '-'] => separator
  | '-' :: '-' :: rest =>
    match cutAt? (· == '=') rest with
    | some (name, value) => long (String.ofList name) (String.ofList value)
    | none => long (String.ofList rest) none
  | '-' :: letter :: rest => short letter rest
  | _ => plain text

/-- What the command line asks for. -/
inductive Invocation where
  | help
  | shell (options : Options)
  deriving DecidableEq, Repr

/-- The options settled so far, and the option before the next argument together with its value. -/
structure Progress where
  options : Options
  pending : Option (Key × Option String)
  deriving DecidableEq, Repr

namespace Progress

/-- The options including the pending one. -/
def settle (p : Progress) : Except UsageError Options :=
  match p.pending with
  | none => .ok p.options
  | some (key, none) => .error (.missingValue key)
  | some (key, some value) => p.options.set key value

/-- Comes to an option, with the value attached to it if there is one. -/
def option (p : Progress) (key : Key) (value : Option String) : Except UsageError Progress := do
  let options ← p.settle
  match value with
  | some value => return ⟨← options.set key value, none⟩
  | none => return ⟨options, some (key, none)⟩

/-- Comes to an argument that is no option. -/
def plain (p : Progress) (text : String) : Except UsageError Progress :=
  match p.pending with
  | some (key, none) => .ok { p with pending := some (key, some text) }
  | _ => .error (.unexpectedArgument text)

end Progress

namespace Invocation

/-- Reads the rest of a command line. -/
def readFrom (p : Progress) : List String → Except UsageError Invocation
  | [] => p.settle.map shell
  | arg :: args =>
    match Arg.ofString arg with
    | .separator =>
      match args with
      | [] => p.settle.map shell
      | arg :: _ => .error (.unexpectedArgument arg)
    | .long name value =>
      match Key.ofLong? name, name, value with
      | some key, _, value => p.option key value >>= (readFrom · args)
      | none, "trace", none => do
        let options ← (← p.settle).setTrace
        readFrom ⟨options, none⟩ args
      | none, "help", none => p.settle.map fun _ => help
      | none, "trace", some value => .error (.unexpectedValue value "--trace")
      | none, "help", some value => .error (.unexpectedValue value "--help")
      | none, name, _ => .error (.unexpectedArgument ("--" ++ name))
    | .short letter rest =>
      match Key.ofShort? letter, letter, rest with
      | some key, _, [] => p.option key none >>= (readFrom · args)
      | some key, _, '=' :: value => p.option key (some (String.ofList value)) >>= (readFrom · args)
      | some key, _, value => p.option key (some (String.ofList value)) >>= (readFrom · args)
      | none, 'h', _ => p.settle.map fun _ => help
      | none, letter, _ => .error (.unexpectedArgument (String.ofList ['-', letter]))
    | .plain text => p.plain text >>= (readFrom · args)

/-- Reads a command line. -/
def read (args : List String) : Except UsageError Invocation :=
  readFrom ⟨.empty, none⟩ args

end Invocation

/-- What is printed when help is asked for. -/
def helpLines : List String :=
  ["Interactive untyped lambda calculus evaluator",
    "",
    "Usage: lambda [OPTIONS]",
    "",
    "Options:",
    "  -s, --strategy <STRATEGY>    Strategy used by `beta`: normal or applicative [default: normal]",
    "  -m, --max-steps <MAX_STEPS>  Maximum number of reduction steps per evaluation [default: 1000]",
    "      --history <HISTORY>      Readline history file",
    "      --trace                  Show every step of every reduction",
    "  -h, --help                   Print help"]

end LambdaCalculus.Program
