import LambdaCalculus.Text.Grapheme

/-!
# Lines

Text is cut at newlines.  A carriage return before a newline belongs to the end of the line; what follows the last
newline is a line of its own unless it is empty, and keeps its carriage returns.

A backspace in a line erases the grapheme cluster before it; at the start of the line it does nothing.  The size of a
cluster in bytes is kept in one byte.  So a backspace takes only the end of a cluster of 256 bytes or more, and there is
no result if that end begins inside a code point.  A line without backspaces stays as it is (`eraseBackspaces?_eq`).
-/

namespace LambdaCalculus.Text

/-- The lines of a text whose first line begins with the characters of `line`, the last of them first. -/
def linesFrom (line : List Char) : List Char → List String
  | [] => if line.isEmpty then [] else [String.ofList line.reverse]
  | '\n' :: rest =>
    let line := match line with
      | '\r' :: line => line
      | line => line
    String.ofList line.reverse :: linesFrom [] rest
  | c :: rest => linesFrom (c :: line) rest

def lines (text : String) : List String :=
  linesFrom [] text.toList

/-! ### Backspaces -/

def backspace : Char := '\x08'

/-- What is left of a line so far. -/
structure Typed where
  /-- The code points, the last first. -/
  chars : List Char
  /-- The sizes of the clusters in bytes, modulo 256, the last first. -/
  sizes : List Nat
  deriving DecidableEq, Repr

/-- Removes code points with the given number of bytes from the front. -/
def dropBytes? : Nat → List Char → Option (List Char)
  | 0, chars => some chars
  | _ + 1, [] => none
  | n + 1, c :: chars => if c.utf8Size ≤ n + 1 then dropBytes? (n + 1 - c.utf8Size) chars else none

namespace Typed

/-- Takes a cluster of the line. -/
def next? (t : Typed) (cluster : List Char) : Option Typed :=
  if cluster = [backspace] then
    match t.sizes with
    | [] => some t
    | size :: sizes => (dropBytes? size t.chars).map fun chars => ⟨chars, sizes⟩
  else some ⟨cluster.reverse ++ t.chars, (String.ofList cluster).utf8ByteSize % 256 :: t.sizes⟩

private theorem foldlM_next? {clusters : List (List Char)} (h : ∀ cluster ∈ clusters, cluster ≠ [backspace])
    (t : Typed) : ∃ sizes, clusters.foldlM next? t = some ⟨clusters.flatten.reverse ++ t.chars, sizes⟩ := by
  induction clusters generalizing t with
  | nil => exact ⟨t.sizes, rfl⟩
  | cons cluster clusters ih =>
    rw [List.foldlM_cons, next?, if_neg (h cluster (List.mem_cons_self ..))]
    obtain ⟨sizes, hs⟩ := ih (fun x hx => h x (List.mem_cons_of_mem _ hx))
      ⟨cluster.reverse ++ t.chars, (String.ofList cluster).utf8ByteSize % 256 :: t.sizes⟩
    exact ⟨sizes, by simpa using hs⟩

end Typed

/-- The line that is left when every backspace has erased the cluster before it. -/
def eraseBackspaces? (line : String) : Option String :=
  ((clusters line.toList).foldlM Typed.next? ⟨[], []⟩).map fun t => String.ofList t.chars.reverse

theorem eraseBackspaces?_eq {line : String} (h : backspace ∉ line.toList) : eraseBackspaces? line = some line := by
  have hne : ∀ cluster ∈ clusters line.toList, cluster ≠ [backspace] := by
    intro cluster hmem e
    subst e
    apply h
    rw [← flatten_clusters line.toList]
    exact List.mem_flatten_of_mem hmem (List.mem_singleton_self _)
  obtain ⟨sizes, hs⟩ := Typed.foldlM_next? hne ⟨[], []⟩
  simp [eraseBackspaces?, hs, flatten_clusters]

end LambdaCalculus.Text
