import LambdaCalculus.Church.Encodings
import LambdaCalculus.Shell.Command
import LambdaCalculus.Shell.Response

/-!
# The shell

A shell keeps a session and an evaluator.  `execute` reads an input and runs it; an input that is refused leaves the
shell as it was.
-/

namespace LambdaCalculus

structure Shell where
  session : Session
  evaluator : Evaluator

namespace Shell

/-- A shell in which the Church encodings are defined. -/
def start (e : Evaluator) : Shell :=
  { session := ⟨Church.bindings⟩, evaluator := e }

/-- The evaluator for one reduction. -/
def Mode.apply (mode : Mode) (e : Evaluator) : Evaluator :=
  match mode with
  | configured => e
  | normal => { e with strategy := .normal }
  | applicative => { e with strategy := .applicative }
  | traced => { e with strategy := .normal, trace := true }

/-- The evaluator after a change. -/
def Setting.apply (setting : Setting) (e : Evaluator) : Evaluator :=
  match setting with
  | strategy s => { e with strategy := s }
  | maxSteps ⟨n, pos⟩ => { e with maxSteps := n, maxSteps_pos := pos }
  | trace on => { e with trace := on }

/-- The shell with a new latest result. -/
def setIt (s : Shell) (t : Term) : Shell :=
  { s with session := s.session.setIt t }

/-- Runs a command. -/
def run (s : Shell) : Command → Shell × Response
  | .nothing => (s, .nothing)
  | .help => (s, .help)
  | .quit => (s, .quit)
  | .vars => (s, .vars s.session.toList)
  | .define name t =>
    let t := s.session.resolve t
    ({ s with session := s.session.define name t }, .defined name t)
  | .step t =>
    let t := s.session.resolve t
    match t.normalStep? with
    | some u => (s.setIt u, .stepped u)
    | none => (s.setIt t, .alreadyNormal)
  | .reduce mode t =>
    let r := (mode.apply s.evaluator).evaluate (s.session.resolve t)
    (s.setIt r.term, .reduced r)
  | .church n =>
    let t := Church.numeral n
    (s.setIt t, .numeral n t)
  | .extract t => (s, .number (Church.readNumeral (s.evaluator.evaluate (s.session.resolve t)).term))
  | .bool t => (s, .boolean (Church.toBoolean s.evaluator (s.session.resolve t)))
  | .free t =>
    let t := s.session.resolve t
    (s, .names (Name.sorted t.freeVars) (Name.sorted t.boundVars))
  | .alpha t u =>
    let t := s.session.resolve t
    let u := s.session.resolve u
    (s, .comparison t u (t.alphaEq u))
  | .set setting =>
    let e := setting.apply s.evaluator
    ({ s with evaluator := e }, .settings e)
  | .term t =>
    let t := s.session.resolve t
    (s.setIt t, .term t)

/-- Reads an input and runs it. -/
def execute (s : Shell) (input : String) : Shell × Except Error Response :=
  match Command.read input with
  | .ok command =>
    let (s, response) := s.run command
    (s, .ok response)
  | .error error => (s, .error error)

end Shell

end LambdaCalculus
