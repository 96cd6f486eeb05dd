import LambdaCalculus.Program.Input

/-!
# Inputs and their lines

`completeInputs` reads lines from left to right and keeps the part of an input that it has seen.  `Assembles` says
without such a part which inputs there are: an input is a block of lines that all end in a backslash but the last, and a
block without a last line is no input.  Both agree (`assembles_iff`).

A text may also be read one line at a time, up to the next newline (`readLines_append`), and this is what the program
does.
-/

namespace LambdaCalculus.Program

/-! ### One line at a time -/

private theorem exists_linesFrom_eq {line : List Char} (h : '\n' ∉ line) (start : List Char) :
    ∃ first, ∀ rest, Text.linesFrom start (line ++ '\n' :: rest) = first :: Text.linesFrom [] rest := by
  induction line generalizing start with
  | nil => exact ⟨_, fun _ => rfl⟩
  | cons c line ih =>
    rw [List.mem_cons, not_or] at h
    obtain ⟨first, hfirst⟩ := ih h.2 (c :: start)
    refine ⟨first, fun rest => ?_⟩
    rw [List.cons_append, Text.linesFrom, hfirst]
    exact Ne.symm h.1

/-- A line and the newline behind it are read as if nothing followed, and if they can be read, so is what follows. -/
theorem readLines_append {line : String} (h : '\n' ∉ line.toList) (rest : String) :
    readLines (line ++ "\n" ++ rest) =
      match readLines (line ++ "\n") with
      | ([], ending) => ([], ending)
      | (first :: _, _) => (first :: (readLines rest).1, (readLines rest).2) := by
  obtain ⟨first, hfirst⟩ := exists_linesFrom_eq h []
  have hlines : Text.lines (line ++ "\n" ++ rest) = first :: Text.lines rest := by
    simpa [Text.lines] using hfirst rest.toList
  have hline : Text.lines (line ++ "\n") = [first] := by
    simpa [Text.lines, Text.linesFrom] using hfirst []
  rw [readLines, readLines, hlines, hline, readLines.readable, readLines.readable]
  cases Text.eraseBackspaces? first <;> rfl

/-! ### Lines and inputs -/

private theorem continued?_eq_some_iff {line start : String} : continued? line = some start ↔ line = start ++ "\\" := by
  have hline : line = start ++ "\\" ↔ line.toList.reverse = '\\' :: start.toList.reverse := by
    rw [← String.toList_inj, ← List.reverse_inj]
    simp
  rw [hline, continued?]
  split
  · rename_i rest h
    rw [h, Option.some.injEq, List.cons.injEq, and_iff_right rfl, ← String.toList_inj, String.toList_ofList,
      ← List.reverse_inj, List.reverse_reverse]
  · rename_i h
    exact iff_of_false nofun (h _)

theorem continued?_eq_none_iff {line : String} : continued? line = none ↔ line.toList.getLast? ≠ some '\\' := by
  rw [continued?, List.getLast?_eq_head?_reverse]
  split
  · rename_i rest h
    simp [h]
  · rename_i h
    refine iff_of_true rfl fun hhead => ?_
    obtain ⟨rest, hrest⟩ := List.head?_eq_some_iff.1 hhead
    exact h rest hrest

/-- The complete inputs in a sequence of lines. -/
inductive Assembles : List String → List String → Prop where
  /-- An input that does not end is left out. -/
  | unfinished (starts : List String) : Assembles (starts.map (· ++ "\\")) []
  | input (starts : List String) {last : String} {lines inputs : List String}
      (hlast : last.toList.getLast? ≠ some '\\') (h : Assembles lines inputs) :
      Assembles (starts.map (· ++ "\\") ++ last :: lines) ((String.join (starts.map (· ++ "\n")) ++ last) :: inputs)

/-- Lines that end in a backslash only add to the part of the input that has been read. -/
theorem completeInputs_unfinished (text : String) (starts lines : List String) :
    completeInputs text (starts.map (· ++ "\\") ++ lines) =
      completeInputs (text ++ String.join (starts.map (· ++ "\n"))) lines := by
  induction starts generalizing text with
  | nil => simp
  | cons start starts ih =>
    have hnext : Reading.next text (start ++ "\\") = .unfinished (text ++ start ++ "\n") := by
      rw [Reading.next, continued?_eq_some_iff.2 rfl]
    rw [List.map_cons, List.cons_append, completeInputs, hnext, List.map_cons, String.join_cons]
    simp only [ih, String.append_assoc]

theorem completeInputs_last {last : String} (hlast : last.toList.getLast? ≠ some '\\') (text : String)
    (lines : List String) : completeInputs text (last :: lines) = (text ++ last) :: completeInputs "" lines := by
  rw [completeInputs, Reading.next, continued?_eq_none_iff.2 hlast]

theorem assembles_iff {lines inputs : List String} : Assembles lines inputs ↔ completeInputs "" lines = inputs := by
  constructor
  · intro h
    induction h with
    | unfinished starts =>
      have h := completeInputs_unfinished "" starts []
      rwa [List.append_nil] at h
    | input starts hlast _ ih => rw [completeInputs_unfinished, completeInputs_last hlast, ih, String.empty_append]
  · rintro rfl
    -- The lines read so far of the input that is not finished have to be kept apart from those that follow.
    suffices h : ∀ starts : List String, Assembles (starts.map (· ++ "\\") ++ lines)
        (completeInputs (String.join (starts.map (· ++ "\n"))) lines) from h []
    intro starts
    induction lines generalizing starts with
    | nil =>
      rw [List.append_nil]
      exact .unfinished starts
    | cons line lines ih =>
      cases hline : continued? line with
      | some start =>
        have h := ih (starts ++ [start])
        rw [completeInputs, Reading.next, hline]
        simpa [continued?_eq_some_iff.1 hline, String.append_assoc] using h
      | none =>
        rw [completeInputs_last (continued?_eq_none_iff.1 hline)]
        exact .input starts (continued?_eq_none_iff.1 hline) (ih [])

end LambdaCalculus.Program
