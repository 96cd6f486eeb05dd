import LambdaCalculus.Church.Encodings
import LambdaCalculus.Source.Parser
import Mathlib.Data.List.Induction
import Std.Data.TreeMap.Lemmas

/-!
# Runs of a session

Along a run a name has the definition that was made of it last, or the one it had at the start.  This is proved once
for any system whose inputs make at most one definition each (`get?_foldl`), where the term of a definition may depend
on the state in which it is made.

The operations of a session are such inputs.  One that fails makes no definition; one that resolves a term does so with
the definitions made before it, so later ones have no part in what it stores (`get?_after_defineResolved`).
-/

namespace LambdaCalculus.Session

open Source (SyntaxError)

/-! ### Definitions -/

theorem get?_define_self (s : Session) (name : Name) (t : Term) : (s.define name t).get? name = some t :=
  Std.TreeMap.getElem?_insert_self

theorem get?_define_of_ne {name x : Name} (h : x ≠ name) (s : Session) (t : Term) :
    (s.define name t).get? x = s.get? x := by
  have hcompare : compare name x ≠ .eq := by
    rw [Ne, Std.compare_eq_iff_eq]
    exact Ne.symm h
  exact Std.TreeMap.getElem?_insert.trans (if_neg hcompare)

private theorem get?_empty (name : Name) : empty.get? name = none :=
  Std.TreeMap.getElem?_emptyc

theorem mem_toList_iff {s : Session} {name : Name} {t : Term} : (name, t) ∈ s.toList ↔ s.get? name = some t :=
  Std.TreeMap.mem_toList_iff_getElem?_eq_some

/-- The names are listed in the order of their code points. -/
private theorem pairwise_toList (s : Session) : s.toList.Pairwise fun p q => p.1 < q.1 := by
  have hordered : s.toList.Pairwise fun p q => compare p.1 q.1 = .lt := Std.TreeMap.ordered_keys_toList
  refine hordered.imp fun {p q} h => ?_
  exact compareOfLessAndEq_eq_lt.1 h

private theorem nodup_toList (s : Session) : (s.toList.map Prod.fst).Nodup := by
  rw [List.Nodup, List.pairwise_map]
  refine s.pairwise_toList.imp fun {p q} h heq => ?_
  rw [heq] at h
  exact String.lt_irrefl _ h

/-! ### The last definition -/

section LastDefinition

variable {σ ι : Type} (session : σ → Session) {step : σ → ι → σ} {made? : σ → ι → Option (Name × Term)}
  {Defines : ι → Name → Prop}

private theorem get?_step_of_not_defines
    (hstep : ∀ s i, session (step s i) = ((made? s i).map fun p => (session s).define p.1 p.2).getD (session s))
    (hdefines : ∀ s i name, Defines i name ↔ ∃ t, made? s i = some (name, t)) {i : ι} {name : Name}
    (h : ¬Defines i name) (s : σ) : (session (step s i)).get? name = (session s).get? name := by
  rw [hstep]
  cases hmade : made? s i with
  | none => rfl
  | some p =>
    have hne : name ≠ p.1 := by
      rintro rfl
      exact h ((hdefines s i p.1).2 ⟨p.2, hmade⟩)
    exact get?_define_of_ne hne _ _

/-- A name has the definition that was made of it last, or else the one it had at the start. -/
theorem get?_foldl
    (hstep : ∀ s i, session (step s i) = ((made? s i).map fun p => (session s).define p.1 p.2).getD (session s))
    (hdefines : ∀ s i name, Defines i name ↔ ∃ t, made? s i = some (name, t)) (s : σ) (name : Name)
    (inputs : List ι) :
    ((session (inputs.foldl step s)).get? name = (session s).get? name ∧ ∀ i ∈ inputs, ¬Defines i name) ∨
      ∃ before i later t, inputs = before ++ i :: later ∧ made? (before.foldl step s) i = some (name, t) ∧
        (session (inputs.foldl step s)).get? name = some t ∧ ∀ i' ∈ later, ¬Defines i' name := by
  induction inputs using List.reverseRecOn with
  | nil => exact .inl ⟨rfl, by simp⟩
  | append_singleton inputs i ih =>
    rw [List.foldl_append, List.foldl_cons, List.foldl_nil]
    by_cases h : Defines i name
    · obtain ⟨t, hmade⟩ := (hdefines (inputs.foldl step s) i name).1 h
      refine .inr ⟨inputs, i, [], t, rfl, hmade, ?_, by simp⟩
      rw [hstep, hmade]
      exact get?_define_self _ _ _
    · rw [get?_step_of_not_defines session hstep hdefines h]
      rcases ih with ⟨hget, hnone⟩ | ⟨before, i', later, t, rfl, hmade, hget, hnone⟩
      · refine .inl ⟨hget, ?_⟩
        simpa [or_imp, forall_and] using ⟨hnone, h⟩
      · refine .inr ⟨before, i', later ++ [i], t, by simp, hmade, hget, ?_⟩
        simpa [or_imp, forall_and] using ⟨hnone, h⟩

end LastDefinition

/-! ### Operations -/

/-- A term as it is given to a session: by itself, or by a text that may not be one. -/
inductive Given where
  | term (t : Term)
  | text (source : String)

def Given.read : Given → Except SyntaxError Term
  | term t => .ok t
  | text source => Source.parse source

/-- Something that is done to a session. -/
inductive Operation where
  | define (name : Name) (given : Given)
  /-- Puts the definitions of the session into a term, and defines a name as the result. -/
  | defineResolved (name : Name) (given : Given)
  | setIt (given : Given)

namespace Operation

/-- The name that an operation defines. -/
def name : Operation → Name
  | define name _ => name
  | defineResolved name _ => name
  | setIt _ => it

def given : Operation → Given
  | define _ given => given
  | defineResolved _ given => given
  | setIt given => given

/-- What an operation defines its name as, with the term that it is given. -/
def definition (s : Session) : Operation → Term → Term
  | define _ _, t => t
  | defineResolved _ _, t => s.resolve t
  | setIt _, t => t

/-- Whether an operation succeeds and defines the name. -/
def Defines (op : Operation) (name : Name) : Prop :=
  op.name = name ∧ ∃ t, op.given.read = .ok t

end Operation

/-- Carries an operation out, unless its text is no term. -/
def perform (s : Session) : Operation → Except SyntaxError Session
  | .define name given => do return s.define name (← given.read)
  | .defineResolved name given => do return s.define name (s.resolve (← given.read))
  | .setIt given => do return s.setIt (← given.read)

/-- The session behind an operation, which is the same if the operation fails. -/
def next (s : Session) (op : Operation) : Session :=
  match s.perform op with
  | .ok s => s
  | .error _ => s

/-- The session behind the operations. -/
def after (s : Session) (ops : List Operation) : Session :=
  ops.foldl next s

@[simp] private theorem after_cons (s : Session) (op : Operation) (ops : List Operation) :
    s.after (op :: ops) = (s.next op).after ops :=
  rfl

@[simp] private theorem after_append (s : Session) (ops later : List Operation) :
    s.after (ops ++ later) = (s.after ops).after later :=
  List.foldl_append

/-- An operation that succeeds makes one definition. -/
private theorem perform_of_read_eq_ok {op : Operation} {t : Term} (h : op.given.read = .ok t) (s : Session) :
    s.perform op = .ok (s.define op.name (op.definition s t)) := by
  cases op <;> simp only [Operation.given] at h <;> rw [perform, h] <;> rfl

private theorem perform_of_read_eq_error {op : Operation} {error : SyntaxError} (h : op.given.read = .error error)
    (s : Session) : s.perform op = .error error := by
  cases op <;> simp only [Operation.given] at h <;> rw [perform, h] <;> rfl

/-- The definition that an operation makes. -/
def made? (s : Session) (op : Operation) : Option (Name × Term) :=
  op.given.read.toOption.map fun t => (op.name, op.definition s t)

private theorem next_eq (s : Session) (op : Operation) :
    s.next op = ((s.made? op).map fun p => s.define p.1 p.2).getD s := by
  rw [next, made?]
  cases h : op.given.read with
  | ok t =>
    rw [perform_of_read_eq_ok h]
    rfl
  | error error =>
    rw [perform_of_read_eq_error h]
    rfl

private theorem defines_iff (s : Session) (op : Operation) (name : Name) :
    op.Defines name ↔ ∃ t, s.made? op = some (name, t) := by
  rw [Operation.Defines, made?]
  cases op.given.read <;> simp [Except.toOption]

/-! ### Runs -/

/-- A name has the definition that the last operation on it made, or else the one it had at the start. -/
private theorem get?_after (s : Session) (name : Name) (ops : List Operation) :
    ((s.after ops).get? name = s.get? name ∧ ∀ op ∈ ops, ¬op.Defines name) ∨
      ∃ before op later t, ops = before ++ op :: later ∧ (s.after before).made? op = some (name, t) ∧
        (s.after ops).get? name = some t ∧ ∀ op' ∈ later, ¬op'.Defines name :=
  get?_foldl id next_eq defines_iff s name ops

private theorem get?_after_of_not_defines {name : Name} {ops : List Operation} (h : ∀ op ∈ ops, ¬op.Defines name)
    (s : Session) : (s.after ops).get? name = s.get? name := by
  rcases s.get?_after name ops with ⟨hget, -⟩ | ⟨before, op, later, t, hops, hmade, -, -⟩
  · exact hget
  · have hmem : op ∈ ops := by simp [hops]
    exact absurd ((defines_iff (s.after before) op name).2 ⟨t, hmade⟩) (h op hmem)

/-- What has been defined with the names defined before resolved in it does not depend on what is done to other names
later. -/
private theorem get?_after_defineResolved {name : Name} {given : Given} {t : Term} (ht : given.read = .ok t)
    {later : List Operation} (hlater : ∀ op ∈ later, ¬op.Defines name) (s : Session) (before : List Operation) :
    (s.after (before ++ .defineResolved name given :: later)).get? name = some ((s.after before).resolve t) := by
  have hread : (Operation.defineResolved name given).given.read = .ok t := ht
  rw [after_append, after_cons, get?_after_of_not_defines hlater, next, perform_of_read_eq_ok hread]
  exact get?_define_self _ _ _

private theorem after_of_read_eq_error {op : Operation} {error : SyntaxError} (h : op.given.read = .error error)
    (s : Session) (before later : List Operation) :
    s.after (before ++ op :: later) = s.after (before ++ later) := by
  rw [after_append, after_append, after_cons, next, perform_of_read_eq_error h]

/-- Whatever is done to a session, a name has the definition made of it last, or the one it had at the start, if any;
the names are listed once each, in the order of their code points; a definition with resolved names is the one that
was made with the session as it was then, whatever is done to other names later; and an operation that fails is as if
it had not been there. -/
theorem session_keeps_last_definitions (s : Session) (ops : List Operation) :
    (∀ name, empty.get? name = none) ∧
      (∀ name,
        ((s.after ops).get? name = s.get? name ∧ ∀ op ∈ ops, ¬op.Defines name) ∨
          ∃ before op later t, ops = before ++ op :: later ∧ op.name = name ∧ op.given.read = .ok t ∧
            (s.after ops).get? name = some (op.definition (s.after before) t) ∧ ∀ op' ∈ later, ¬op'.Defines name) ∧
      ((s.after ops).toList.Pairwise (fun p q => p.1 < q.1) ∧ ((s.after ops).toList.map Prod.fst).Nodup ∧
        ∀ name t, (name, t) ∈ (s.after ops).toList ↔ (s.after ops).get? name = some t) ∧
      (∀ before name given later t, given.read = .ok t → (∀ op ∈ later, ¬op.Defines name) →
        (s.after (before ++ .defineResolved name given :: later)).get? name = some ((s.after before).resolve t)) ∧
      ∀ before op later error, op.given.read = .error error →
        (s.after before).perform op = .error error ∧ s.after (before ++ op :: later) = s.after (before ++ later) := by
  refine ⟨get?_empty, ?last, ⟨pairwise_toList _, nodup_toList _, fun _ _ => mem_toList_iff⟩, ?resolved, ?failed⟩
  case last =>
    intro name
    rcases s.get?_after name ops with hstart | ⟨before, op, later, t, hops, hmade, hget, hlater⟩
    · exact .inl hstart
    · obtain ⟨hname, u, hread⟩ := (defines_iff (s.after before) op name).2 ⟨t, hmade⟩
      refine .inr ⟨before, op, later, u, hops, hname, hread, ?_, hlater⟩
      rw [made?, hread] at hmade
      cases hmade
      exact hget
  case resolved =>
    intro before name given later t ht hlater
    exact get?_after_defineResolved ht hlater s before
  case failed =>
    intro before op later error h
    exact ⟨perform_of_read_eq_error h _, after_of_read_eq_error h s before later⟩

/-- The name `F` is defined by itself, and what it names is defined later; one operation fails in between. -/
theorem session_keeps_last_definitions_self_reference :
    let id := Term.abs "x" (.var "x")
    let before := [Operation.define "F" (.term id)]
    let later := [Operation.define "F" (.text "F ("), .define "x" (.text "F"), .setIt (.text "x"),
      .defineResolved "" (.text "F")]
    let s := empty.after (before ++ .defineResolved "F" (.text "F x") :: later)
    (Given.text "F x").read = .ok (.app (.var "F") (.var "x")) ∧ (∀ op ∈ later, ¬op.Defines "F") ∧
      s.get? "F" = some (.app id (.var "x")) ∧ s.get? "" = some (.app id (.var "x")) ∧
      s.toList.map Prod.fst = ["", "F", "it", "x"] := by
  intro id before later s
  have hread : (Given.text "F x").read = .ok (.app (.var "F") (.var "x")) := by decide +kernel
  have hfails : (Given.text "F (").read = .error (.unexpectedEnd 3 .termStart) := by decide +kernel
  have hlater : ∀ op ∈ later, ¬op.Defines "F" := by
    intro op hop hdefines
    simp only [later, List.mem_cons, List.not_mem_nil, or_false] at hop
    obtain ⟨hname, t, ht⟩ := hdefines
    rcases hop with rfl | rfl | rfl | rfl
    · cases hfails.symm.trans ht
    · exact absurd hname (by decide)
    · exact absurd hname (by decide)
    · exact absurd hname (by decide)
  obtain ⟨-, -, -, hresolved, -⟩ := session_keeps_last_definitions empty []
  refine ⟨hread, hlater, ?_, by decide +kernel, by decide +kernel⟩
  rw [hresolved before "F" (.text "F x") later _ hread hlater]
  decide +kernel

end LambdaCalculus.Session
