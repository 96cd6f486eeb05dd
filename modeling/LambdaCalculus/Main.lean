import LambdaCalculus.Program.Repl

/-!
# The program

Reads lines from the standard input until it ends or a command ends the loop.  What to print, what to store and when to
stop is decided by `Program.start`, `Program.Repl.turn` and `Program.Turn.goOn`, of which `Program.run` is made too.
Here it is only carried out.
-/

namespace LambdaCalculus.Program

/-- The text of a file, if it can be read. -/
def readText (path : String) : IO (Option String) := do
  try return some (← IO.FS.readFile path) catch _ => return none

/-- The reason that a file cannot be written, as the system words it. -/
def writeReason : IO.Error → String
  | .noFileOrDirectory _ code details => details ++ " (os error " ++ toString code ++ ")"
  | error => toString error

/-- Writes a text to a file; gives the reason if that fails. -/
def writeText (path text : String) : IO (Option String) := do
  try
    IO.FS.writeFile path text
    return none
  catch error => return writeReason error

def printLines (out err : List String) : IO Unit := do
  for line in out do IO.println line
  for line in err do IO.eprintln line

/-- Ends the program with an outcome. -/
def finish (o : Outcome) : IO UInt32 := do
  printLines o.out o.err
  return o.code.toUInt32

partial def readLoop (input : IO.FS.Stream) (path : Option String) (r : Repl) : IO UInt32 := do
  match readLines (← input.getLine) with
  | ([], ending) => finish (.ofEnding ending)
  | (line :: _, _) =>
    let turn := r.turn path.isSome line
    printLines turn.out turn.err
    let writeError ← match path, turn.stored with
      | some path, some text => writeText path text
      | _, _ => pure none
    match turn.goOn writeError with
    | .ok r => readLoop input path r
    | .error o => finish o

end LambdaCalculus.Program

open LambdaCalculus Program in
def main (args : List String) : IO UInt32 := do
  match start args with
  | .error o => finish o
  | .ok (e, path) =>
    printLines greeting []
    let content ← match path with
      | some path => readText path
      | none => pure none
    readLoop (← IO.getStdin) path (.start e (.ofFile content))
