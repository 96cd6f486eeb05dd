import LambdaCalculus.Text.Lines

/-!
# The history of inputs

The latest inputs, the oldest first.  An input is not kept if it is empty or repeats the one before it.  The history is
stored as text: a line that names the format, then one line for each entry, in which newlines and backslashes are
escaped (`unescape?_escape`).
-/

namespace LambdaCalculus.Program

structure History where
  entries : List String
  /-- Whether there are entries that have not been stored. -/
  isChanged : Bool
  deriving DecidableEq, Repr

namespace History

def empty : History := ⟨[], false⟩

/-- The number of entries that are kept. -/
def maxEntries : Nat := 100

/-- Adds an input, unless it is empty or repeats the latest one. -/
def add (h : History) (input : String) : History :=
  if input.isEmpty || h.entries.getLast? == some input then h
  else
    let entries := h.entries ++ [input]
    { entries := entries.drop (entries.length - maxEntries), isChanged := true }

/-- The first line of a stored history. -/
def formatLine : String := "#V2"

/-- Writes newlines and backslashes as two characters. -/
def escape : List Char → List Char
  | [] => []
  | '\\' :: rest => '\\' :: '\\' :: escape rest
  | '\n' :: rest => '\\' :: 'n' :: escape rest
  | c :: rest => c :: escape rest

/-- Reads an escaped text, unless a backslash stands before another character or at the end. -/
def unescape? : List Char → Option (List Char)
  | [] => some []
  | '\\' :: '\\' :: rest => (unescape? rest).map ('\\' :: ·)
  | '\\' :: 'n' :: rest => (unescape? rest).map ('\n' :: ·)
  | '\\' :: _ => none
  | c :: rest => (unescape? rest).map (c :: ·)

theorem unescape?_escape (text : List Char) : unescape? (escape text) = some text := by
  fun_induction escape text with
  | case1 => rfl
  | case2 rest ih => simp [unescape?, ih]
  | case3 rest ih => simp [unescape?, ih]
  | case4 c rest h _ ih =>
    rw [unescape?]
    · simp [ih]
    · exact fun _ hc => absurd hc h
    · exact fun _ hc => absurd hc h
    · exact h

/-- The entry on a line of a stored history.  A line that is not well escaped is taken as it is. -/
def readEntry (line : String) : String :=
  ((unescape? line.toList).map String.ofList).getD line

/-- The text under which a history is stored. -/
def store (h : History) : String :=
  (formatLine :: h.entries.map fun entry => String.ofList (escape entry.toList)).foldl
    (fun text line => text ++ line ++ "\n") ""

/-- Reads a stored history.  Without the line that names the format, every line is an entry as it is. -/
def load (text : String) : History :=
  let entries := match Text.lines text with
    | [] => []
    | first :: rest => if first == formatLine then rest.map readEntry else first :: rest
  { entries.foldl add empty with isChanged := false }

/-- The history to begin with: the one stored in a file, given its text if it can be read. -/
def ofFile (content : Option String) : History :=
  (content.map load).getD empty

end History

end LambdaCalculus.Program
