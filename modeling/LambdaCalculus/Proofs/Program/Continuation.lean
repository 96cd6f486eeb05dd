import LambdaCalculus.Proofs.Program.Run
import Mathlib.Data.List.TakeWhile

/-!
# Inputs written over several lines

An input with newlines can be written so that the read loop takes it for one input: a backslash goes in front of each
newline, and one more newline ends it (`writtenInput`).  Whatever else is in its lines, backslashes and carriage returns
at their ends included, is read as it stands.  Only the end of the input has to be plain (`EndsPlainly`), because a
backslash there would carry the next input along and a carriage return would be lost.
-/

namespace LambdaCalculus.Program

open Shell (output)

/-! ### Writing inputs -/

/-- The character as it stands in the text of an input. -/
def writtenChar (c : Char) : List Char :=
  if c = '\n' then ['\\', '\n'] else [c]

/-- The text of an input. -/
def writtenInput (input : String) : String :=
  String.ofList (input.toList.flatMap writtenChar) ++ "\n"

/-- The text of several inputs, one after the other. -/
def written (inputs : List String) : String :=
  String.join (inputs.map writtenInput)

/-- The last line of an input ends neither in a backslash nor in a carriage return.  A line without characters, behind
the last newline, does neither. -/
def EndsPlainly (input : String) : Prop :=
  input.toList.getLast? ≠ some '\\' ∧ input.toList.getLast? ≠ some '\r'

instance (input : String) : Decidable (EndsPlainly input) :=
  inferInstanceAs (Decidable (_ ∧ _))

/-! ### Reading them -/

/-- Lines that all end in a backslash complete no input. -/
private theorem completeInputs_eq_nil {lines : List String} (h : ∀ line ∈ lines, line.toList.getLast? = some '\\')
    (text : String) : completeInputs text lines = [] := by
  induction lines generalizing text with
  | nil => rfl
  | cons line lines ih =>
    have hlines : ∀ line ∈ lines, line.toList.getLast? = some '\\' := fun x hx => h x (List.mem_cons_of_mem _ hx)
    cases hline : continued? line with
    | none => exact absurd (h line (List.mem_cons_self ..)) (continued?_eq_none_iff.1 hline)
    | some start =>
      rw [completeInputs, Reading.next, hline]
      exact ih hlines _

/-- Without a carriage return at its end, a line is taken as it stands. -/
private theorem linesFrom_newline {line : List Char} (h : line.head? ≠ some '\r') (rest : List Char) :
    Text.linesFrom line ('\n' :: rest) = String.ofList line.reverse :: Text.linesFrom [] rest := by
  rw [Text.linesFrom]
  rintro start rfl
  exact h rfl

/-- The invariant of reading an input: `text` is what earlier lines have brought, and `line` what the line has so far,
the last character first. -/
private theorem completeInputs_linesFrom (text : String) (line cs rest : List Char)
    (hbackslash : (line.reverse ++ cs).getLast? ≠ some '\\') (hreturn : (line.reverse ++ cs).getLast? ≠ some '\r') :
    completeInputs text (Text.linesFrom line (cs.flatMap writtenChar ++ '\n' :: rest)) =
      (text ++ String.ofList (line.reverse ++ cs)) :: completeInputs "" (Text.linesFrom [] rest) := by
  induction cs generalizing text line with
  | nil =>
    rw [List.append_nil] at hbackslash hreturn ⊢
    rw [List.getLast?_reverse] at hreturn
    have hlast : (String.ofList line.reverse).toList.getLast? ≠ some '\\' := by rwa [String.toList_ofList]
    rw [List.flatMap_nil, List.nil_append, linesFrom_newline hreturn, completeInputs_last hlast]
  | cons c cs ih =>
    by_cases hc : c = '\n'
    · -- the line ends here with the backslash that stands for the newline
      subst hc
      have hchar : ('\n' :: cs).flatMap writtenChar = '\\' :: '\n' :: cs.flatMap writtenChar := rfl
      have hrest : ∀ {d : Char}, d ≠ '\n' → (line.reverse ++ '\n' :: cs).getLast? ≠ some d →
          ([].reverse ++ cs).getLast? ≠ some d := by
        intro d hd hlast h
        refine hlast ?_
        rw [List.reverse_nil, List.nil_append] at h
        rw [List.getLast?_append, List.getLast?_cons, h]
        rfl
      have hline : String.ofList ('\\' :: line).reverse = String.ofList line.reverse ++ "\\" := by
        simp [String.ofList_append]
      have hstart := completeInputs_unfinished text [String.ofList line.reverse]
        (Text.linesFrom [] (cs.flatMap writtenChar ++ '\n' :: rest))
      rw [hchar, List.cons_append, List.cons_append, Text.linesFrom, linesFrom_newline, hline]
      · refine hstart.trans ?_
        rw [ih _ [] (hrest (by decide) hbackslash) (hrest (by decide) hreturn)]
        simp [String.append_assoc]
      · simp
      · decide
    · have hchar : (c :: cs).flatMap writtenChar = c :: cs.flatMap writtenChar := by simp [writtenChar, hc]
      rw [hchar, List.cons_append, Text.linesFrom, ih]
      · simp
      · simpa using hbackslash
      · simpa using hreturn
      · exact hc

private theorem completeInputs_written {inputs : List String} (hinputs : ∀ input ∈ inputs, EndsPlainly input)
    (rest : String) :
    completeInputs "" (Text.lines (written inputs ++ rest)) = inputs ++ completeInputs "" (Text.lines rest) := by
  induction inputs with
  | nil => simp [written]
  | cons input inputs ih =>
    have htext : (written (input :: inputs) ++ rest).toList =
        input.toList.flatMap writtenChar ++ '\n' :: (written inputs ++ rest).toList := by
      simp [written, writtenInput]
    obtain ⟨hbackslash, hreturn⟩ := hinputs input (List.mem_cons_self ..)
    rw [List.cons_append, ← ih fun x hx => hinputs x (List.mem_cons_of_mem _ hx), Text.lines, htext,
      completeInputs_linesFrom "" [] input.toList _ hbackslash hreturn]
    simp [Text.lines]

/-! ### The read loop -/

/-- As long as no input quits and the history can be stored, the loop answers one complete input after the other. -/
private theorem runLines_of_not_mem_results {file : Option HistoryFile} (hfile : ∀ f ∈ file, f.writeError = none)
    (ending : Ending) {r : Repl} {lines inputs : List String} (hinputs : completeInputs r.unfinished lines = inputs)
    (hquit : .ok .quit ∉ r.shell.results inputs) :
    ∃ saved, runLines file ending r lines =
      { out := (r.shell.results inputs).flatMap output ++ (Outcome.ofEnding ending).out
        err := (r.shell.results inputs).flatMap reported ++ (Outcome.ofEnding ending).err
        code := (Outcome.ofEnding ending).code
        saved } := by
  have hall : (r.shell.results inputs).takeWhile (· ≠ .ok .quit) = r.shell.results inputs :=
    List.takeWhile_eq_self_iff.2 fun result hmem => decide_eq_true fun h => hquit (h ▸ hmem)
  obtain ⟨saved, -, hrun⟩ := runLines_eq hfile ending r lines
  rw [hinputs, runInputs_eq, hall, if_neg hquit] at hrun
  exact ⟨_, hrun⟩

end LambdaCalculus.Program
