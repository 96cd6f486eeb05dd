import LambdaCalculus.Proofs.Source.WhiteSpace
import LambdaCalculus.Shell.Command

/-!
# The commands that inputs are read as

An input has a first word and arguments behind it.  `Word.Reads args word c` says that `c` is the command with this word
and these arguments, one case for each word, and `Reads input c` that `c` is the command an input is read as.
-/

namespace LambdaCalculus.Shell

open Source (isIdentifier map_eq_ok_iff)
open Text (trim cutAt? isWhiteSpace readNumber)

/-! ### The parts of an input -/

namespace Input

/-- The first word of an input and what stands behind it. -/
def cut (input : String) : List Char × List Char :=
  let text := trim input.toList
  (cutAt? isWhiteSpace text).getD (text, [])

/-- Whether an input has nothing in it but white space. -/
def isBlank (input : String) : Bool :=
  (trim input.toList).isEmpty

/-- The command that the first word of an input names. -/
def word? (input : String) : Option Word :=
  Word.ofText? (String.ofList (cut input).1)

def args (input : String) : List Char :=
  trim (cut input).2

/-- The first of the arguments, if there are more: what is defined by a `let` or changed by a `set`. -/
def key? (input : String) : Option String :=
  (cutAt? isWhiteSpace (args input)).map fun cut => String.ofList cut.1

end Input

/-! ### Reading -/

private theorem mapError_eq_ok_iff {ε ε' α : Type} {f : ε → ε'} {x : Except ε α} {a : α} :
    x.mapError f = .ok a ↔ x = .ok a := by
  cases x with
  | error e => exact ⟨nofun, nofun⟩
  | ok b => exact ⟨fun h => congrArg Except.ok (Except.ok.inj h), fun h => congrArg Except.ok (Except.ok.inj h)⟩

theorem readTerm_eq_ok_iff {source : List Char} {t : Term} :
    readTerm source = .ok t ↔ Source.parse (String.ofList source) = .ok t :=
  mapError_eq_ok_iff

/-- The command with the given word and arguments. -/
inductive Word.Reads (args : List Char) : Word → Command → Prop where
  | help : Reads args help .help
  | quit : Reads args quit .quit
  | vars : Reads args vars .vars
  | define {name source : List Char} {t : Term} (hcut : cutAt? isWhiteSpace args = some (name, source))
      (hname : isIdentifier (String.ofList name) = true) (ht : readArgument define (trim source) = .ok t) :
      Reads args define (.define (String.ofList name) t)
  | step {t : Term} (ht : readArgument step args = .ok t) : Reads args step (.step t)
  | beta {t : Term} (ht : readArgument beta args = .ok t) : Reads args beta (.reduce .configured t)
  | normal {t : Term} (ht : readArgument normal args = .ok t) : Reads args normal (.reduce .normal t)
  | app {t : Term} (ht : readArgument app args = .ok t) : Reads args app (.reduce .applicative t)
  | trace {t : Term} (ht : readArgument trace args = .ok t) : Reads args trace (.reduce .traced t)
  | church {n : Nat} (hn : readNumber args = .ok n) : Reads args church (.church n)
  | extract {t : Term} (ht : readArgument extract args = .ok t) : Reads args extract (.extract t)
  | bool {t : Term} (ht : readArgument bool args = .ok t) : Reads args bool (.bool t)
  | free {t : Term} (ht : readArgument free args = .ok t) : Reads args free (.free t)
  | alpha {left right : List Char} {t u : Term} (hcut : cutAt? (· == ';') args = some (left, right))
      (ht : readArgument alpha (trim left) = .ok t) (hu : readArgument alpha (trim right) = .ok u) :
      Reads args alpha (.alpha t u)
  | set {setting : Setting} (hsetting : readSetting args = .ok setting) : Reads args set (.set setting)

private theorem reads_of_readArgs {word : Word} {args : List Char} {c : Command} (h : word.readArgs args = .ok c) :
    word.Reads args c := by
  cases word with
  | help =>
    cases h
    exact .help
  | quit =>
    cases h
    exact .quit
  | vars =>
    cases h
    exact .vars
  | define =>
    rw [Word.readArgs] at h
    cases hcut : cutAt? isWhiteSpace args with
    | none => simp [hcut] at h
    | some cut =>
      simp only [hcut] at h
      split at h
      · rename_i hname
        obtain ⟨t, ht, rfl⟩ := map_eq_ok_iff.1 h
        exact .define hcut hname ht
      · cases h
  | step =>
    obtain ⟨t, ht, rfl⟩ := map_eq_ok_iff.1 h
    exact .step ht
  | beta =>
    obtain ⟨t, ht, rfl⟩ := map_eq_ok_iff.1 h
    exact .beta ht
  | normal =>
    obtain ⟨t, ht, rfl⟩ := map_eq_ok_iff.1 h
    exact .normal ht
  | app =>
    obtain ⟨t, ht, rfl⟩ := map_eq_ok_iff.1 h
    exact .app ht
  | trace =>
    obtain ⟨t, ht, rfl⟩ := map_eq_ok_iff.1 h
    exact .trace ht
  | church =>
    rw [Word.readArgs] at h
    split at h
    · rename_i n hn
      cases h
      exact .church hn
    · cases h
  | extract =>
    obtain ⟨t, ht, rfl⟩ := map_eq_ok_iff.1 h
    exact .extract ht
  | bool =>
    obtain ⟨t, ht, rfl⟩ := map_eq_ok_iff.1 h
    exact .bool ht
  | free =>
    obtain ⟨t, ht, rfl⟩ := map_eq_ok_iff.1 h
    exact .free ht
  | alpha =>
    rw [Word.readArgs] at h
    cases hcut : cutAt? (· == ';') args with
    | none => simp [hcut] at h
    | some cut =>
      simp only [hcut] at h
      cases ht : readArgument .alpha (trim cut.1) with
      | error error => simp [ht, bind, Except.bind] at h
      | ok t =>
        cases hu : readArgument .alpha (trim cut.2) with
        | error error => simp [ht, hu, bind, Except.bind] at h
        | ok u =>
          simp only [ht, hu, bind, Except.bind, pure, Except.pure, Except.ok.injEq] at h
          exact h ▸ .alpha hcut ht hu
  | set =>
    obtain ⟨setting, hsetting, rfl⟩ := map_eq_ok_iff.1 h
    exact .set hsetting

/-- The command that an input is read as. -/
inductive Reads (input : String) : Command → Prop where
  | blank (h : Input.isBlank input = true) : Reads input .nothing
  | word {word : Word} {c : Command} (hblank : Input.isBlank input = false) (hword : Input.word? input = some word)
      (h : word.Reads (Input.args input) c) : Reads input c
  | term {t : Term} (hblank : Input.isBlank input = false) (hword : Input.word? input = none)
      (ht : readTerm (trim input.toList) = .ok t) : Reads input (.term t)

theorem reads_of_read {input : String} {c : Command} (h : Command.read input = .ok c) : Reads input c := by
  rw [Command.read] at h
  split at h
  · rename_i hblank
    cases h
    exact .blank hblank
  · rename_i hblank
    have hblank : Input.isBlank input = false := Bool.eq_false_iff.2 hblank
    split at h
    rename_i first rest hcut
    have hfirst : Input.word? input = Word.ofText? (String.ofList first) := by rw [Input.word?, Input.cut, hcut]
    have hrest : Input.args input = trim rest := by rw [Input.args, Input.cut, hcut]
    split at h
    · rename_i word hword
      exact .word hblank (hfirst.trans hword) (reads_of_readArgs (hrest ▸ h))
    · rename_i hword
      obtain ⟨t, ht, rfl⟩ := map_eq_ok_iff.1 h
      exact .term hblank (hfirst.trans hword) ht

/-- A word in front of the arguments is the first word of the input, and the white space around them is left out. -/
theorem Input.cut_append {first : String} (hne : first.toList ≠ []) (hfirst : first.toList.any isWhiteSpace = false)
    (args : String) :
    ∃ rest, cut (first ++ " " ++ args) = (first.toList, rest) ∧ trim rest = trim args.toList := by
  replace hfirst : ∀ c ∈ first.toList, isWhiteSpace c = false := by simpa using hfirst
  obtain ⟨text, hprefix, htrim, htext⟩ := Text.trim_word_append hne hfirst (' ' :: args.toList)
  rw [Text.trim_cons_of_isWhiteSpace (by decide)] at htext
  have hlist : (first ++ " " ++ args).toList = first.toList ++ ' ' :: args.toList := by simp
  rw [cut, hlist, htrim]
  cases text with
  | nil => exact ⟨[], by simp [Text.cutAt?_eq_none hfirst], htext⟩
  | cons c rest =>
    obtain ⟨rfl, -⟩ := List.cons_prefix_cons.1 hprefix
    rw [Text.trim_cons_of_isWhiteSpace (by decide)] at htext
    have hcut := Text.cutAt?_append hfirst (c := ' ') (by decide) rest
    exact ⟨rest, by simp [hcut], htext⟩

/-- An input that begins with a command word is read as this command. -/
theorem read_of_word {first : String} {word : Word} (hne : first.toList ≠ [])
    (hfirst : first.toList.any isWhiteSpace = false) (hword : Word.ofText? first = some word) (args : String) :
    Command.read (first ++ " " ++ args) = word.readArgs (trim args.toList) := by
  obtain ⟨rest, hcut, hrest⟩ := Input.cut_append hne hfirst args
  rw [Input.cut] at hcut
  rw [Command.read]
  generalize trim (first ++ " " ++ args).toList = text at hcut ⊢
  have hblank : text.isEmpty = false := by
    refine Bool.eq_false_iff.2 fun hempty => hne ?_
    rw [List.isEmpty_iff.1 hempty] at hcut
    exact (Prod.mk.inj hcut).1.symm
  simp only [hcut, hblank, Bool.false_eq_true, if_false, String.ofList_toList, hword, hrest]

private theorem readArgument_trim {expr : String} {t : Term} (h : Source.parse expr = .ok t) (word : Word) :
    readArgument word (trim expr.toList) = .ok t := by
  have htrim := Source.parse_trim h
  have hempty : (trim expr.toList).isEmpty = false := by
    have hfails : Source.parse (String.ofList []) = .error (.unexpectedEnd 0 .termStart) := by decide +kernel
    refine Bool.eq_false_iff.2 fun hempty => ?_
    rw [List.isEmpty_iff.1 hempty, hfails] at htrim
    cases htrim
  rw [readArgument, hempty, if_neg Bool.false_ne_true, readTerm_eq_ok_iff, htrim]

/-- A command word in front of the text of a term gives the command with this term. -/
theorem read_of_word_of_parse (word : Word) {first : String} {command : Term → Command}
    (hne : first.toList ≠ []) (hfirst : first.toList.any isWhiteSpace = false) (hword : Word.ofText? first = some word)
    (hargs : ∀ args, word.readArgs args = (readArgument word args).map command) {expr : String} {t : Term}
    (h : Source.parse expr = .ok t) : Command.read (first ++ " " ++ expr) = .ok (command t) := by
  rw [read_of_word hne hfirst hword, hargs, readArgument_trim h]
  rfl

/-! ### Settings -/

/-- How the field that a setting is about is called. -/
def Setting.field : Setting → String
  | strategy _ => "strategy"
  | maxSteps _ => "steps"
  | trace _ => "trace"

theorem field_of_readSetting {args : List Char} {setting : Setting} (h : readSetting args = .ok setting) :
    (cutAt? isWhiteSpace args).map (fun cut => String.ofList cut.1) = some setting.field := by
  rw [readSetting] at h
  cases hcut : cutAt? isWhiteSpace args with
  | none => simp [hcut] at h
  | some cut =>
    rw [hcut, Option.map_some] at h
    rw [Option.map_some]
    split at h
    · rename_i value hkey
      rw [(Prod.mk.inj (Option.some.inj hkey)).1]
      obtain ⟨strategy, -, rfl⟩ := map_eq_ok_iff.1 (mapError_eq_ok_iff.1 h)
      rfl
    · rename_i value hkey
      rw [(Prod.mk.inj (Option.some.inj hkey)).1]
      split at h
      · split at h <;> cases h
        rfl
      · cases h
    · rename_i value hkey
      rw [(Prod.mk.inj (Option.some.inj hkey)).1]
      split at h <;> cases h <;> rfl
    · cases h

theorem readSetting_steps {args rest : List Char} {n : Nat}
    (hcut : cutAt? isWhiteSpace args = some ("steps".toList, rest)) (hn : readNumber (trim rest) = .ok n)
    (hpos : 0 < n) : readSetting args = .ok (.maxSteps ⟨n, hpos⟩) := by
  rw [readSetting, hcut]
  simp only [Option.map_some, String.ofList_toList, hn, dif_pos hpos]

end LambdaCalculus.Shell
