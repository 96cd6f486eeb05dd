import LambdaCalculus.Source.Parser
import LambdaCalculus.Reduction.Evaluator
import LambdaCalculus.Text.Basic

/-!
# Shell commands

One input of the shell is a command word with arguments, or a term.  Reading it depends on the text alone, so every
error of the shell is found here, before anything is evaluated.
-/

namespace LambdaCalculus.Shell

open Text (trim cutAt? isWhiteSpace readNumber)

/-- The words that begin a command. -/
inductive Word where
  | help
  | quit
  | vars
  | define
  | step
  | beta
  | normal
  | app
  | trace
  | church
  | extract
  | bool
  | free
  | alpha
  | set
  deriving DecidableEq, Repr

namespace Word

/-- The command word with the given text, in letters of either case.  Lowering ASCII letters is enough: the only other
character with an ASCII letter as its lower case is the Kelvin sign, and no command word has a `k`. -/
def ofText? (text : String) : Option Word :=
  match text.toLower with
  | "help" => some help
  | "quit" | "exit" => some quit
  | "vars" => some vars
  | "let" => some define
  | "step" => some step
  | "beta" => some beta
  | "normal" => some normal
  | "app" => some app
  | "trace" => some trace
  | "church" => some church
  | "extract" => some extract
  | "bool" => some bool
  | "free" => some free
  | "alpha" => some alpha
  | "set" => some set
  | _ => none

/-- How a command is written. -/
def usage : Word → String
  | help => "help"
  | quit => "quit"
  | vars => "vars"
  | define => "let NAME EXPR"
  | step => "step EXPR"
  | beta => "beta EXPR"
  | normal => "normal EXPR"
  | app => "app EXPR"
  | trace => "trace EXPR"
  | church => "church N, where N is a non-negative integer"
  | extract => "extract EXPR"
  | bool => "bool EXPR"
  | free => "free EXPR"
  | alpha => "alpha EXPR ; EXPR"
  | set => "set strategy NAME | set steps N | set trace on|off"

end Word

/-- How a term is to be reduced, compared with the evaluator of the shell. -/
inductive Mode where
  /-- With the evaluator as it is. -/
  | configured
  | normal
  | applicative
  /-- In normal order, recording the steps. -/
  | traced
  deriving DecidableEq, Repr

/-- A change of the evaluator. -/
inductive Setting where
  | strategy (strategy : Strategy)
  | maxSteps (n : { n : Nat // 0 < n })
  | trace (on : Bool)
  deriving DecidableEq, Repr

/-- What the shell is asked to do. -/
inductive Command where
  | nothing
  | help
  | quit
  | vars
  | define (name : Name) (t : Term)
  | step (t : Term)
  | reduce (mode : Mode) (t : Term)
  | church (n : Nat)
  | extract (t : Term)
  | bool (t : Term)
  | free (t : Term)
  | alpha (t u : Term)
  | set (setting : Setting)
  /-- A term by itself. -/
  | term (t : Term)
  deriving DecidableEq, Repr

/-- Why an input is refused. -/
inductive Error where
  /-- The source of a term does not parse. -/
  | parse (source : String) (error : Source.SyntaxError)
  /-- The arguments do not fit the command. -/
  | usage (word : Word)
  | config (error : ConfigError)
  deriving DecidableEq, Repr

def Error.message : Error → String
  | parse source _ => "Failed to parse `" ++ source ++ "`"
  | usage word => "Usage: " ++ word.usage
  | config error => error.message

/-- Reads the source of a term. -/
def readTerm (source : List Char) : Except Error Term :=
  let source := String.ofList source
  (Source.parse source).mapError (.parse source)

/-- Reads a term that is an argument of a command. -/
def readArgument (word : Word) (source : List Char) : Except Error Term :=
  if source.isEmpty then .error (.usage word) else readTerm source

/-- Reads the arguments of `set`. -/
def readSetting (args : List Char) : Except Error Setting :=
  match (cutAt? isWhiteSpace args).map fun (key, value) => (String.ofList key, trim value) with
  | some ("strategy", value) =>
    ((Strategy.read (String.ofList value)).map .strategy).mapError .config
  | some ("steps", value) =>
    match readNumber value with
    | .ok n => if h : 0 < n then .ok (.maxSteps ⟨n, h⟩) else .error (.config .zeroBudget)
    | .error _ => .error (.usage .set)
  | some ("trace", value) =>
    match String.ofList value with
    | "on" => .ok (.trace true)
    | "off" => .ok (.trace false)
    | _ => .error (.usage .set)
  | _ => .error (.usage .set)

/-- Reads the arguments of a command. -/
def Word.readArgs (word : Word) (args : List Char) : Except Error Command :=
  match word with
  | help => .ok .help
  | quit => .ok .quit
  | vars => .ok .vars
  | define =>
    match cutAt? isWhiteSpace args with
    | some (name, source) =>
      let name := String.ofList name
      if Source.isIdentifier name then (readArgument word (trim source)).map (.define name)
      else .error (.usage word)
    | none => .error (.usage word)
  | step => (readArgument word args).map .step
  | beta => (readArgument word args).map (.reduce .configured)
  | normal => (readArgument word args).map (.reduce .normal)
  | app => (readArgument word args).map (.reduce .applicative)
  | trace => (readArgument word args).map (.reduce .traced)
  | church =>
    match readNumber args with
    | .ok n => .ok (.church n)
    | .error _ => .error (.usage word)
  | extract => (readArgument word args).map .extract
  | bool => (readArgument word args).map .bool
  | free => (readArgument word args).map .free
  | alpha =>
    match cutAt? (· == ';') args with
    | some (left, right) => do
      let t ← readArgument word (trim left)
      let u ← readArgument word (trim right)
      return .alpha t u
    | none => .error (.usage word)
  | set => (readSetting args).map .set

/-- Reads one input of the shell. -/
def Command.read (input : String) : Except Error Command :=
  let text := trim input.toList
  if text.isEmpty then .ok .nothing
  else
    let (word, args) := (cutAt? isWhiteSpace text).getD (text, [])
    match Word.ofText? (String.ofList word) with
    | some word => word.readArgs (trim args)
    | none => (readTerm text).map .term

end LambdaCalculus.Shell
