import LambdaCalculus.Text.Lines

/-!
# Inputs of several lines

A text is read line by line, and the backspaces in a line are erased before anything else is done with it.  A line that
ends in a backslash then goes on with the next line; the backslash stands for the newline between them.  So an input may
hold newlines, and the lines of a text are put together to complete inputs.
-/

namespace LambdaCalculus.Program

/-- Why there is no further line. -/
inductive Ending where
  | endOfInput
  /-- There is one, but its backspaces cannot be erased. -/
  | unreadableLine
  deriving DecidableEq, Repr

/-- The lines of a text as they are read. -/
def readLines (text : String) : List String × Ending :=
  readable (Text.lines text)
where
  readable : List String → List String × Ending
    | [] => ([], .endOfInput)
    | line :: lines =>
      match Text.eraseBackspaces? line with
      | some line => let (lines, ending) := readable lines; (line :: lines, ending)
      | none => ([], .unreadableLine)

private theorem readable_eq {lines : List String} (h : ∀ line ∈ lines, Text.backspace ∉ line.toList) :
    readLines.readable lines = (lines, .endOfInput) := by
  induction lines with
  | nil => rfl
  | cons line lines ih =>
    rw [readLines.readable, Text.eraseBackspaces?_eq (h line (List.mem_cons_self ..)),
      ih fun x hx => h x (List.mem_cons_of_mem _ hx)]

/-- Without backspaces, the lines are read as they stand in the text. -/
theorem readLines_eq {text : String} (h : ∀ line ∈ Text.lines text, Text.backspace ∉ line.toList) :
    readLines text = (Text.lines text, .endOfInput) :=
  readable_eq h

/-- What is known of an input after a line. -/
inductive Reading where
  /-- The input goes on. -/
  | unfinished (text : String)
  | complete (input : String)
  deriving DecidableEq, Repr

/-- The line without the backslash at its end. -/
def continued? (line : String) : Option String :=
  match line.toList.reverse with
  | '\\' :: start => some (String.ofList start.reverse)
  | _ => none

/-- Reads a line, after the part `text` of an input. -/
def Reading.next (text line : String) : Reading :=
  match continued? line with
  | some start => unfinished (text ++ start ++ "\n")
  | none => complete (text ++ line)

/-- The complete inputs in a sequence of lines, after the part `text` of the first one.  An input that does not end is
left out. -/
def completeInputs (text : String) : List String → List String
  | [] => []
  | line :: lines =>
    match Reading.next text line with
    | .unfinished text => completeInputs text lines
    | .complete input => input :: completeInputs "" lines

end LambdaCalculus.Program
