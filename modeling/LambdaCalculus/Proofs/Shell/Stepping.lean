import LambdaCalculus.Proofs.Reduction.Composition
import LambdaCalculus.Proofs.Shell.Command
import LambdaCalculus.Proofs.Shell.Run
import LambdaCalculus.Proofs.Source.Identifiers

/-!
# Stepping and running

A `step` with a term and then one with `it` again and again take the steps that a run takes, one with each command: the
name `it` stands for the term the command before has left, which is not resolved again.  The commands and the run are
compared by induction on their number (`stepping_eq_run`).  Both find out with the command or step after the last one
that there is none.
-/

namespace LambdaCalculus

namespace Reduction

variable {step? : Term → Option Term}

/-- The number of steps to a term that was found to have none. -/
def stoppedAt? (r : Reduction) : Option Nat :=
  if r.isNormal then some r.steps else none

private theorem stoppedAt?_andThen (r r' : Reduction) :
    (r.andThen r').stoppedAt? = r'.stoppedAt?.map (r.steps + ·) := by
  cases h : r'.isNormal <;> simp [stoppedAt?, andThen, h]

private theorem run_start_of_none {t : Term} (h : step? t = none) (record : Bool) (budget : Nat) :
    (run step? record budget (.start t)).term = t := by
  cases budget with
  | zero => rfl
  | succ budget =>
    rw [run_succ_of_none h]
    rfl

/-- A run takes its first step and is then a run from the term after it. -/
private theorem run_start_of_some {t u : Term} (h : step? t = some u) (record : Bool) (budget : Nat) :
    run step? record (budget + 1) (.start t) =
      ((start t).advance record u).andThen (run step? record budget (.start u)) := by
  rw [run_succ_of_some h, ← run_andThen]
  exact congrArg _ (andThen_start rfl).symm

end Reduction

namespace Shell

open Text (trim cutAt? isWhiteSpace)

/-! ### Inputs -/

private theorem read_step {expr : String} {t : Term} (h : Source.parse expr = .ok t) :
    Command.read ("step" ++ " " ++ expr) = .ok (.step t) :=
  read_of_word_of_parse .step (by decide) (by decide) (by decide +kernel) (fun _ => rfl) h

private theorem read_normal {expr : String} {t : Term} (h : Source.parse expr = .ok t) :
    Command.read ("normal" ++ " " ++ expr) = .ok (.reduce .normal t) :=
  read_of_word_of_parse .normal (by decide) (by decide) (by decide +kernel) (fun _ => rfl) h

private theorem read_setSteps {k : Nat} (hpos : 0 < k) (hmax : k ≤ Text.maxNumber) :
    Command.read ("set steps " ++ toString k) = .ok (.set (.maxSteps ⟨k, hpos⟩)) := by
  have hread : Command.read ("set" ++ " " ++ ("steps" ++ " " ++ toString k)) = Word.set.readArgs _ :=
    read_of_word (by decide) (by decide) (by decide +kernel) ("steps" ++ " " ++ toString k)
  have hdigits : ∀ c ∈ (toString k).toList, isWhiteSpace c = false := fun c hc =>
    Source.isWhiteSpace_of_isIdentRest (Name.isIdentRest_of_mem_toString hc)
  have htrim : trim (toString k).toList = (toString k).toList :=
    Text.trim_eq_self (fun c hc => hdigits c (List.mem_of_head? hc)) fun c hc => hdigits c (List.mem_of_getLast? hc)
  have hnumber := Text.readNumber_toString hmax
  obtain ⟨rest, hcut, hrest⟩ : ∃ rest, Input.cut ("steps" ++ " " ++ toString k) = ("steps".toList, rest) ∧
      trim rest = trim (toString k).toList := Input.cut_append (by decide) (by decide) (toString k)
  rw [Input.cut] at hcut
  have hsome : cutAt? isWhiteSpace (trim ("steps" ++ " " ++ toString k).toList) = some ("steps".toList, rest) := by
    cases h : cutAt? isWhiteSpace (trim ("steps" ++ " " ++ toString k).toList) with
    | some cut =>
      simp only [h, Option.getD_some] at hcut
      rw [hcut]
    | none =>
      -- Without a second part there would be no digits.
      simp only [h, Option.getD_none, Prod.mk.injEq] at hcut
      rw [← htrim, ← hrest, ← hcut.2] at hnumber
      cases hnumber
  have hsetting := readSetting_steps hsome (by rw [hrest, htrim, hnumber]) hpos
  rw [Word.readArgs, hsetting] at hread
  exact hread

/-! ### Commands -/

/-- What `step` does with a term, which is resolved before. -/
private theorem execute_step {input : String} {t : Term} (h : Command.read input = .ok (.step t)) (s : Shell) :
    s.execute input =
      match (s.session.resolve t).normalStep? with
      | some u => (s.setIt u, .ok (.stepped u))
      | none => (s.setIt (s.session.resolve t), .ok .alreadyNormal) := by
  rw [execute_of_read_eq_ok h, run]
  cases (s.session.resolve t).normalStep? <;> rfl

private theorem resolve_it_setIt (s : Shell) (t : Term) : (s.setIt t).session.resolve (.var Session.it) = t :=
  Bindings.resolve_var (Session.get?_define_self s.session Session.it t)

/-- Lines of different kinds begin with different characters. -/
private theorem ne_of_head?_ne {line line' : String} (h : line.toList.head? ≠ line'.toList.head?) : line ≠ line' :=
  fun hline => h (congrArg (·.toList.head?) hline)

private theorem output_stepped_ne (u : Term) :
    (output (.ok (.stepped u)) == ["Expression is already in normal form."]) = false := by
  have hline : "Result: " ++ u.render ≠ "Expression is already in normal form." := ne_of_head?_ne (by simp)
  simp [output, Response.lines, hline]

/-- The inputs leave the term of a reduction in `it`, and the first of them to say that there is no step is the one
behind those that take the steps of the reduction. -/
def Follow (s : Shell) (inputs : List String) (r : Reduction) : Prop :=
  (s.after inputs).session.get? Session.it = some r.term ∧
    (s.results inputs).findIdx? (output · == ["Expression is already in normal form."]) = r.stoppedAt?

/-- One step before the inputs is one step before the run. -/
private theorem Follow.step {input : String} {t : Term} (hread : Command.read input = .ok (.step t)) {s : Shell}
    {inputs : List String} {record : Bool} {budget : Nat}
    (h : ∀ u, Follow (s.setIt u) inputs (Reduction.run Term.normalStep? record budget (.start u))) :
    Follow s (input :: inputs) (Reduction.run Term.normalStep? record (budget + 1) (.start (s.session.resolve t))) := by
  have hexecute := execute_step hread s
  generalize s.session.resolve t = t at hexecute ⊢
  rw [Follow, after_cons, results_cons, List.findIdx?_cons, hexecute]
  cases ht : t.normalStep? with
  | none =>
    have hterm := (h t).1
    rw [Reduction.run_start_of_none ht] at hterm
    rw [Reduction.run_succ_of_none ht]
    exact ⟨hterm, rfl⟩
  | some u =>
    rw [Reduction.run_start_of_some ht, Reduction.stoppedAt?_andThen, ← (h u).2]
    refine ⟨(h u).1, ?_⟩
    rw [output_stepped_ne, if_neg Bool.false_ne_true]
    exact congrArg (Option.map · _) (funext fun i => Nat.add_comm i 1)

private theorem follow_replicate (s : Shell) (u : Term) (record : Bool) (n : Nat) :
    Follow (s.setIt u) (List.replicate n "step it") (Reduction.run Term.normalStep? record n (.start u)) := by
  induction n generalizing s u with
  | zero => exact ⟨Session.get?_define_self .., rfl⟩
  | succ n ih =>
    have hread : Command.read "step it" = .ok (.step (.var Session.it)) := by decide +kernel
    have h := Follow.step hread (s := s.setIt u) fun v => ih (s.setIt u) v
    rwa [resolve_it_setIt] at h

/-! ### What a run prints -/

private theorem head?_of_mem_traceLines {trace : List Term} {line : String} (h : line ∈ Response.traceLines trace) :
    line.toList.head? = some ' ' := by
  obtain ⟨⟨t, i⟩, -, rfl⟩ := List.mem_map.1 h
  simp

/-- The lines of a reduction but for the terms. -/
private theorem mem_lines_reduced {r : Reduction} {line : String} (htrace : line.toList.head? ≠ some ' ')
    (hresult : line.toList.head? ≠ some 'R') :
    line ∈ (Response.reduced r).lines ↔
      line = "Steps taken: " ++ toString r.steps ∨
        r.isNormal = false ∧ line = "Warning: May not be in normal form (reached maximum steps)" := by
  have hmem : line ∉ Response.traceLines r.trace.toList := fun h => htrace (head?_of_mem_traceLines h)
  have hne : line ≠ "Result: " ++ r.term.render := ne_of_head?_ne (by simpa using hresult)
  cases h : r.isNormal <;> simp [Response.lines, hmem, hne, h]

/-- The lines of a reduction say after how many steps it stopped, unless its budget was used up. -/
private theorem stoppedAt?_eq_some_iff {r : Reduction} {i : Nat} :
    r.stoppedAt? = some i ↔
      "Steps taken: " ++ toString i ∈ (Response.reduced r).lines ∧
        "Warning: May not be in normal form (reached maximum steps)" ∉ (Response.reduced r).lines := by
  have hwarning :
      "Warning: May not be in normal form (reached maximum steps)" ≠ "Steps taken: " ++ toString r.steps :=
    ne_of_head?_ne (by simp)
  have hsteps : "Steps taken: " ++ toString i = "Steps taken: " ++ toString r.steps ↔ r.steps = i :=
    ⟨fun h => (Name.suffixed_inj h).symm, fun h => by rw [h]⟩
  rw [mem_lines_reduced (by simp) (by simp), mem_lines_reduced (by decide) (by decide), hsteps]
  cases h : r.isNormal with
  | true => simp only [Reduction.stoppedAt?, h, if_true, Option.some.injEq, hwarning, Bool.true_eq_false, false_and,
      or_false, not_false_eq_true, and_true]
  | false => simp [Reduction.stoppedAt?, h]

/-! ### Stepping and running -/

/-- Stepping with `k` commands leaves the same term in `it` as running with the budget `k`, and it says for the first
time that there is no step behind as many steps as the run takes, unless the run uses its budget up.  The numbers up to
`maxNumber` are those that `set steps` accepts. -/
theorem stepping_agrees_with_running (s : Shell) {expr : String} {t : Term} (hexpr : Source.parse expr = .ok t)
    {k : Nat} (hpos : 0 < k) (hmax : k ≤ Text.maxNumber) :
    let steps := ("step " ++ expr) :: List.replicate (k - 1) "step it"
    let set := "set steps " ++ toString k
    let normal := "normal " ++ expr
    let printed := output ((s.after [set]).execute normal).2
    (∃ u, (s.after steps).session.get? Session.it = some u ∧
        (s.after [set, normal]).session.get? Session.it = some u) ∧
      ∀ i, (s.results steps).findIdx? (output · == ["Expression is already in normal form."]) = some i ↔
        "Steps taken: " ++ toString i ∈ printed ∧
          "Warning: May not be in normal form (reached maximum steps)" ∉ printed := by
  intro steps set normal printed
  have hset : s.execute set = ({ s with evaluator := (Setting.maxSteps ⟨k, hpos⟩).apply s.evaluator }, _) :=
    execute_of_read_eq_ok (read_setSteps hpos hmax) s
  let s' : Shell := { s with evaluator := (Setting.maxSteps ⟨k, hpos⟩).apply s.evaluator }
  let r := Reduction.run Term.normalStep? s.evaluator.trace k (.start (s.session.resolve t))
  have hnormal : s'.execute normal = (s'.setIt r.term, .ok (.reduced r)) :=
    execute_of_read_eq_ok (read_normal hexpr) s'
  obtain ⟨hit, hfirst⟩ : Follow s steps r := by
    have h := Follow.step (read_step hexpr) (s := s) fun u => follow_replicate s u s.evaluator.trace (k - 1)
    rwa [Nat.sub_add_cancel hpos] at h
  have hprinted : printed = (Response.reduced r).lines := by
    simp only [printed, after_cons, after_nil, hset, hnormal, s', output]
  refine ⟨⟨r.term, hit, ?_⟩, fun i => ?_⟩
  · simp only [after_cons, after_nil, hset]
    rw [hnormal]
    exact Session.get?_define_self ..
  · rw [hfirst, hprinted]
    exact stoppedAt?_eq_some_iff

/-- The name that the first step leaves in `it` has a definition, which is not put in by the steps behind it. -/
theorem stepping_agrees_with_running_defined_name :
    let s := (start .standard).after ["let y z", "let z w"]
    let steps := ["step (λx.x) y", "step it", "step it"]
    let run := ["set steps 3", "normal (λx.x) y"]
    (s.after steps).session.get? Session.it = some (.var "z") ∧
      (s.after run).session.get? Session.it = some (.var "z") ∧
      (s.results steps).findIdx? (output · == ["Expression is already in normal form."]) = some 1 := by
  intro s steps run
  have hexpr : Source.parse "(λx.x) y" = .ok (.app (.abs "x" (.var "x")) (.var "y")) := by decide +kernel
  have hrun : (s.after run).session.get? Session.it = some (.var "z") := by decide +kernel
  obtain ⟨⟨u, hsteps, hu⟩, hfirst⟩ := stepping_agrees_with_running s hexpr (k := 3) (by decide) (by decide)
  refine ⟨?_, hrun, (hfirst 1).2 ⟨by decide +kernel, by decide +kernel⟩⟩
  exact hsteps.trans (hu.symm.trans hrun)

end Shell

end LambdaCalculus
