import LambdaCalculus.Text.Basic

/-!
# White space around a text and decimal forms

`trim text` is the text without the white space around it: the text can be split so (`exists_trim`), and every such
split whose middle neither begins nor ends with white space is the one that `trim` finds (`trim_eq`).

The reader of numbers gives up as soon as the digits read so far are too large.  Since further digits only make a number
larger, it gets to the end of every number within the limit (`readNumber_toString`).
-/

namespace LambdaCalculus.Text

open Nat (ofDigitChars)

/-! ### White space -/

private theorem dropWhile_append {p : Char → Bool} {start rest : List Char} (hstart : ∀ c ∈ start, p c = true)
    (hrest : ∀ c ∈ rest.head?, p c = false) : (start ++ rest).dropWhile p = rest := by
  rw [List.dropWhile_append_of_pos hstart]
  cases rest with
  | nil => rfl
  | cons c rest => rw [List.dropWhile_cons_of_neg (by simp [hrest c rfl])]

private theorem trim_eq (before behind : List Char) {middle : List Char} (hbefore : ∀ c ∈ before, isWhiteSpace c = true)
    (hbehind : ∀ c ∈ behind, isWhiteSpace c = true) (hfirst : ∀ c ∈ middle.head?, isWhiteSpace c = false)
    (hlast : ∀ c ∈ middle.getLast?, isWhiteSpace c = false) : trim (before ++ middle ++ behind) = middle := by
  cases middle with
  | nil =>
    have hall : ∀ c ∈ before ++ [] ++ behind, isWhiteSpace c = true := by
      simpa [or_imp, forall_and] using ⟨hbefore, hbehind⟩
    have h : (before ++ [] ++ behind ++ []).dropWhile isWhiteSpace = [] := dropWhile_append hall nofun
    rw [List.append_nil] at h
    rw [trim, h]
    rfl
  | cons c middle =>
    have hfirst : ∀ d ∈ (c :: middle ++ behind).head?, isWhiteSpace d = false := hfirst
    rw [trim, List.append_assoc, dropWhile_append hbefore hfirst, List.reverse_append,
      dropWhile_append (fun c hc => hbehind c (List.mem_reverse.1 hc)), List.reverse_reverse]
    rwa [List.getLast?_eq_head?_reverse] at hlast

theorem exists_trim (text : List Char) :
    ∃ before behind, text = before ++ trim text ++ behind ∧ (∀ c ∈ before, isWhiteSpace c = true) ∧
      (∀ c ∈ behind, isWhiteSpace c = true) ∧ (∀ c ∈ (trim text).head?, isWhiteSpace c = false) ∧
      ∀ c ∈ (trim text).getLast?, isWhiteSpace c = false := by
  have hspace (l : List Char) : ∀ c ∈ l.takeWhile isWhiteSpace, isWhiteSpace c = true :=
    List.all_eq_true.1 List.all_takeWhile
  have hnot (l : List Char) : ∀ c ∈ (l.dropWhile isWhiteSpace).head?, isWhiteSpace c = false := by
    intro c hc
    have h := List.head?_dropWhile_not isWhiteSpace l
    rwa [hc] at h
  let start := text.dropWhile isWhiteSpace
  let behind := (start.reverse.takeWhile isWhiteSpace).reverse
  have hstart : trim text ++ behind = start := by
    rw [trim, ← List.reverse_append, List.takeWhile_append_dropWhile, List.reverse_reverse]
  refine ⟨text.takeWhile isWhiteSpace, behind, ?_, hspace text, fun c hc => ?_, ?_, ?_⟩
  · rw [List.append_assoc, hstart, List.takeWhile_append_dropWhile]
  · exact hspace start.reverse c (List.mem_reverse.1 hc)
  · intro c hc
    refine hnot text c ?_
    rw [show text.dropWhile isWhiteSpace = trim text ++ behind from hstart.symm, List.head?_append]
    simp [Option.mem_def.1 hc]
  · rw [trim, List.getLast?_reverse]
    exact hnot start.reverse

theorem trim_eq_self {text : List Char} (hfirst : ∀ c ∈ text.head?, isWhiteSpace c = false)
    (hlast : ∀ c ∈ text.getLast?, isWhiteSpace c = false) : trim text = text := by
  have h := trim_eq [] [] nofun nofun hfirst hlast
  rwa [List.nil_append, List.append_nil] at h

theorem trim_cons_of_isWhiteSpace {c : Char} (hc : isWhiteSpace c = true) (text : List Char) :
    trim (c :: text) = trim text := by
  rw [trim, List.dropWhile_cons_of_pos hc, trim]

/-- Behind a word only the white space at the end of a text is removed. -/
theorem trim_word_append {word : List Char} (hne : word ≠ []) (hword : ∀ c ∈ word, isWhiteSpace c = false)
    (text : List Char) : ∃ rest, rest <+: text ∧ trim (word ++ text) = word ++ rest ∧ trim rest = trim text := by
  obtain ⟨before, behind, htext, hbefore, hbehind, hfirst, hlast⟩ := exists_trim text
  have hhead (rest : List Char) : ∀ c ∈ (word ++ rest).head?, isWhiteSpace c = false := by
    intro c hc
    rw [List.head?_append, Option.or_of_isSome (by simpa using hne)] at hc
    exact hword c (List.mem_of_head? hc)
  generalize htrim : trim text = middle at htext hfirst hlast ⊢
  cases middle with
  | nil =>
    have hspace : ∀ c ∈ text, isWhiteSpace c = true := by
      simpa [htext, or_imp, forall_and] using ⟨hbefore, hbehind⟩
    refine ⟨[], List.nil_prefix, ?_, rfl⟩
    have hlast : ∀ c ∈ word.getLast?, isWhiteSpace c = false := fun c hc => hword c (List.mem_of_getLast? hc)
    have h := trim_eq [] text nofun hspace (by simpa using hhead []) hlast
    simpa using h
  | cons c middle =>
    refine ⟨before ++ c :: middle, ⟨behind, htext.symm⟩, ?_, ?_⟩
    · have h := trim_eq [] behind nofun hbehind (hhead (before ++ c :: middle)) (by simpa using hlast)
      simpa [htext] using h
    · have h := trim_eq before [] hbefore nofun hfirst hlast
      rwa [List.append_nil] at h

/-- A word is cut off in front of the first white space. -/
theorem cutAt?_append {p : Char → Bool} {word : List Char} (hword : ∀ c ∈ word, p c = false) {c : Char}
    (hc : p c = true) (rest : List Char) : cutAt? p (word ++ c :: rest) = some (word, rest) := by
  induction word with
  | nil => simp [cutAt?, hc]
  | cons d word ih =>
    rw [List.forall_mem_cons] at hword
    simp [cutAt?, hword.1, ih hword.2]

theorem cutAt?_eq_none {p : Char → Bool} {text : List Char} (h : ∀ c ∈ text, p c = false) : cutAt? p text = none := by
  induction text with
  | nil => rfl
  | cons c text ih =>
    rw [List.forall_mem_cons] at h
    simp [cutAt?, h.1, ih h.2]

/-! ### Decimal numbers -/

private theorem le_ofDigitChars (digits : List Char) (value : Nat) : value ≤ ofDigitChars 10 digits value := by
  induction digits generalizing value with
  | nil => exact Nat.le_refl value
  | cons c digits ih =>
    rw [Nat.ofDigitChars_cons]
    have := ih (10 * value + (c.toNat - '0'.toNat))
    omega

private theorem readDigits_eq_ok {digits : List Char} (hdigits : ∀ c ∈ digits, c.isDigit = true) {value : Nat}
    (h : ofDigitChars 10 digits value ≤ maxNumber) :
    readDigits value digits = .ok (ofDigitChars 10 digits value) := by
  induction digits generalizing value with
  | nil => rfl
  | cons c digits ih =>
    rw [List.forall_mem_cons] at hdigits
    rw [Nat.ofDigitChars_cons] at h ⊢
    have hle := Nat.le_trans (le_ofDigitChars digits _) h
    rw [readDigits, hdigits.1, if_neg (by decide), if_neg (Nat.not_lt.2 hle), ih hdigits.2 h]

theorem isDigit_of_mem_toString {n : Nat} {c : Char} (h : c ∈ (toString n).toList) : c.isDigit = true := by
  rw [Nat.toString_eq_repr, Nat.toList_repr] at h
  exact Nat.isDigit_of_mem_toDigits (by decide) (by decide) h

/-- A number within the limit is read back from its decimal form. -/
theorem readNumber_toString {n : Nat} (h : n ≤ maxNumber) : readNumber (toString n).toList = .ok n := by
  have hdigits : ∀ c ∈ (toString n).toList, c.isDigit = true := fun c => isDigit_of_mem_toString
  rw [Nat.toString_eq_repr, Nat.toList_repr] at hdigits ⊢
  have hvalue : ofDigitChars 10 (Nat.toDigits 10 n) 0 = n := Nat.ofDigitChars_ten_toDigits
  rw [readNumber]
  · rw [readDigits_eq_ok hdigits (hvalue.symm ▸ h), hvalue]
  · exact Nat.toDigits_ne_nil
  · intro hplus
    exact absurd (hdigits '+' (by simp [hplus])) (by decide)
  · intro rest hplus
    exact absurd (hdigits '+' (by simp [hplus])) (by decide)

end LambdaCalculus.Text
