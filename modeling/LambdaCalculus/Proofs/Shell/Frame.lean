import LambdaCalculus.Proofs.Church.Data
import LambdaCalculus.Proofs.Shell.Command
import LambdaCalculus.Proofs.Shell.Run

/-!
# What an input may touch

The text of an input tells what may be different behind it (`Input.effect`): the definition of one name, one field of
the evaluator, or nothing at all.  The shell keeps to that in one step (`allows_execute`), so along a run a name has the
definition that was made of it last, computed in the session as it was then, or the one it had at the start
(`get?_after`).
-/

namespace LambdaCalculus.Shell

/-! ### Effects -/

/-- What may be different behind an input. -/
inductive Effect where
  | nothing
  /-- The definition of the name. -/
  | defines (name : Name)
  /-- The field of the evaluator. -/
  | changes (field : String)
  deriving DecidableEq, Repr

/-- Whether a shell can become another by the effect. -/
def Effect.Allows (s s' : Shell) : Effect → Prop
  | nothing => s' = s
  | defines name => s'.evaluator = s.evaluator ∧ ∀ x ≠ name, s'.session.get? x = s.session.get? x
  | changes field =>
    s'.session = s.session ∧
      (field ≠ "strategy" → s'.evaluator.strategy = s.evaluator.strategy) ∧
      (field ≠ "steps" → s'.evaluator.maxSteps = s.evaluator.maxSteps) ∧
      (field ≠ "trace" → s'.evaluator.trace = s.evaluator.trace)

/-- The effect of a command with the given first argument. -/
def Word.effect (key : String) : Word → Effect
  | help => .nothing
  | quit => .nothing
  | vars => .nothing
  | define => .defines key
  | step => .defines Session.it
  | beta => .defines Session.it
  | normal => .defines Session.it
  | app => .defines Session.it
  | trace => .defines Session.it
  | church => .defines Session.it
  | extract => .nothing
  | bool => .nothing
  | free => .nothing
  | alpha => .nothing
  | set => .changes key

/-- The effect of an input. -/
def Input.effect (input : String) : Effect :=
  if isBlank input then .nothing
  else match word? input with
    | some word => word.effect ((key? input).getD "")
    | none => .defines Session.it

def Command.effect : Command → Effect
  | define name _ => .defines name
  | step _ => .defines Session.it
  | reduce .. => .defines Session.it
  | church _ => .defines Session.it
  | term _ => .defines Session.it
  | set setting => .changes setting.field
  | _ => .nothing

private theorem Word.Reads.effect {word : Word} {input : String} {c : Command} (h : word.Reads (Input.args input) c) :
    c.effect = word.effect ((Input.key? input).getD "") := by
  cases h with
  | define hcut hname ht =>
    rw [Word.effect, Input.key?, hcut]
    rfl
  | set hsetting =>
    rw [Word.effect, Input.key?, field_of_readSetting hsetting]
    rfl
  | _ => rfl

private theorem Reads.effect {input : String} {c : Command} (h : Reads input c) : c.effect = Input.effect input := by
  cases h with
  | blank h =>
    rw [Input.effect, if_pos h]
    rfl
  | word hblank hword h =>
    rw [Input.effect, hblank, if_neg Bool.false_ne_true, hword]
    exact h.effect
  | term hblank hword ht =>
    rw [Input.effect, hblank, if_neg Bool.false_ne_true, hword]
    rfl

/-! ### One input -/

variable {s : Shell}

/-- The definition that a command makes is of the name that its effect says. -/
private theorem effect_eq_defines_iff {c : Command} {name : Name} :
    c.effect = .defines name ↔ ∃ t, s.made? c = some (name, t) := by
  cases c <;> simp [Command.effect, made?]

private theorem effect_eq_defines_iff_of_ne_it {c : Command} {name : Name} (h : name ≠ Session.it) :
    c.effect = .defines name ↔ ∃ t, c = .define name t := by
  cases c <;> simp [Command.effect, Ne.symm h]

/-- A command does to the shell what its effect allows. -/
private theorem allows_run (s : Shell) (c : Command) : c.effect.Allows s (s.run c).1 := by
  cases c with
  | set setting => cases setting <;> simp [Command.effect, Effect.Allows, run, Setting.apply, Setting.field]
  | define name t => exact ⟨rfl, fun x hx => Session.get?_define_of_ne hx _ _⟩
  | step t =>
    refine ⟨evaluator_run s _, fun x hx => ?_⟩
    rw [session_run]
    exact Session.get?_define_of_ne hx _ _
  | reduce mode t => exact ⟨rfl, fun x hx => Session.get?_define_of_ne hx _ _⟩
  | church n => exact ⟨rfl, fun x hx => Session.get?_define_of_ne hx _ _⟩
  | term t => exact ⟨rfl, fun x hx => Session.get?_define_of_ne hx _ _⟩
  | _ => rfl

private theorem Effect.allows_refl (effect : Effect) (s : Shell) : effect.Allows s s := by
  cases effect with
  | nothing => rfl
  | defines name => exact ⟨rfl, fun _ _ => rfl⟩
  | changes field => exact ⟨rfl, fun _ => rfl, fun _ => rfl, fun _ => rfl⟩

/-- An input does to the shell what its effect allows, also if it is refused. -/
private theorem allows_execute (s : Shell) (input : String) : (Input.effect input).Allows s (s.execute input).1 := by
  cases hread : Command.read input with
  | error error =>
    rw [execute_of_read_eq_error hread]
    exact Effect.allows_refl _ s
  | ok c =>
    rw [execute_of_read_eq_ok hread, ← (reads_of_read hread).effect]
    exact allows_run s c

/-! ### Runs -/

/-- Whether an input is accepted and makes a definition of the name. -/
def Input.Defines (input : String) (name : Name) : Prop :=
  ∃ c, Command.read input = .ok c ∧ c.effect = .defines name

private theorem Input.defines_iff_of_ne_it {input : String} {name : Name} (h : name ≠ Session.it) :
    Defines input name ↔ ∃ t, Command.read input = .ok (.define name t) := by
  constructor
  · rintro ⟨c, hread, heffect⟩
    obtain ⟨t, rfl⟩ := (effect_eq_defines_iff_of_ne_it h).1 heffect
    exact ⟨t, hread⟩
  · rintro ⟨t, hread⟩
    exact ⟨_, hread, rfl⟩

/-- The definition that an input makes, if it is accepted. -/
def madeBy? (s : Shell) (input : String) : Option (Name × Term) :=
  match Command.read input with
  | .ok c => s.made? c
  | .error _ => none

private theorem session_execute (s : Shell) (input : String) :
    (s.execute input).1.session =
      ((s.madeBy? input).map fun p => s.session.define p.1 p.2).getD s.session := by
  rw [madeBy?]
  cases hread : Command.read input with
  | error error =>
    rw [execute_of_read_eq_error hread]
    rfl
  | ok c =>
    rw [execute_of_read_eq_ok hread]
    exact session_run s c

private theorem Input.defines_iff (s : Shell) (input : String) (name : Name) :
    Defines input name ↔ ∃ t, s.madeBy? input = some (name, t) := by
  rw [Defines, madeBy?]
  cases Command.read input with
  | error error => simp
  | ok c => simpa using effect_eq_defines_iff

/-- A name has the definition that was made of it last, or else the one it had at the start. -/
private theorem get?_after (s : Shell) (name : Name) (inputs : List String) :
    ((s.after inputs).session.get? name = s.session.get? name ∧ ∀ input ∈ inputs, ¬Input.Defines input name) ∨
      ∃ before input later c t, inputs = before ++ input :: later ∧ Command.read input = .ok c ∧
        (s.after before).made? c = some (name, t) ∧ (s.after inputs).session.get? name = some t ∧
        ∀ input' ∈ later, ¬Input.Defines input' name := by
  rcases Session.get?_foldl Shell.session session_execute Input.defines_iff s name inputs with
    hstart | ⟨before, input, later, t, hinputs, hmade, hget, hlater⟩
  · exact .inl hstart
  · rw [madeBy?] at hmade
    split at hmade
    · rename_i c hread
      exact .inr ⟨before, input, later, c, t, hinputs, hread, hmade, hget, hlater⟩
    · cases hmade

/-- An input touches only what its text names, and a run leaves each name with the definition made of it last: for a
name other than `it` that is by a `let` of this name, and its term is the one resolved in the session as it was then.
Numerals are built of the encodings, and booleans are compared with them, whatever has been defined. -/
theorem inputs_touch_only_their_own (e : Evaluator) (inputs : List String) :
    let s := (start e).after inputs
    (∀ input, (Input.effect input).Allows s (s.execute input).1) ∧
      (∀ name ≠ Session.it,
        (s.session.get? name = Church.get? name ∧
            ∀ input ∈ inputs, ∀ t, Command.read input ≠ .ok (.define name t)) ∨
          ∃ before input later t, inputs = before ++ input :: later ∧ Command.read input = .ok (.define name t) ∧
            s.session.get? name = some (((start e).after before).session.resolve t) ∧
            ∀ input' ∈ later, ∀ u, Command.read input' ≠ .ok (.define name u)) ∧
      ((s.session.get? Session.it = none ∧ ∀ input ∈ inputs, ¬Input.Defines input Session.it) ∨
        ∃ before input later c t, inputs = before ++ input :: later ∧ Command.read input = .ok c ∧
          ((start e).after before).made? c = some (Session.it, t) ∧ s.session.get? Session.it = some t ∧
          ∀ input' ∈ later, ¬Input.Defines input' Session.it) ∧
      (∀ input n, Command.read input = .ok (.church n) →
        (s.execute input).2 = .ok (.numeral n (Church.numeral n))) ∧
      ∀ input t, Command.read input = .ok (.bool t) →
        ∃ b, (s.execute input).2 = .ok (.boolean b) ∧
          ∀ value, b = some value ↔
            (s.evaluator.evaluate (s.session.resolve t)).term.alphaEq
              (if value then Church.tru else Church.fls) = true := by
  intro s
  refine ⟨allows_execute s, ?names, ?it, ?church, ?bool⟩
  case names =>
    intro name hname
    have hdefines : ∀ input, ¬Input.Defines input name ↔ ∀ t, Command.read input ≠ .ok (.define name t) := by
      intro input
      rw [Input.defines_iff_of_ne_it hname, not_exists]
    simp only [← hdefines]
    rcases get?_after (start e) name inputs with hstart | hlast
    · exact .inl hstart
    · obtain ⟨before, input, later, c, t, hinputs, hread, hmade, hget, hlater⟩ := hlast
      obtain ⟨u, rfl⟩ := (effect_eq_defines_iff_of_ne_it hname).1 (effect_eq_defines_iff.2 ⟨t, hmade⟩)
      cases hmade
      exact .inr ⟨before, input, later, u, hinputs, hread, hget, hlater⟩
  case it =>
    have hstart : (start e).session.get? Session.it = none := by
      have : Church.get? Session.it = none := by decide +kernel
      exact this
    simpa only [hstart] using get?_after (start e) Session.it inputs
  case church =>
    intro input n hread
    rw [execute_of_read_eq_ok hread]
    rfl
  case bool =>
    intro input t hread
    rw [execute_of_read_eq_ok hread]
    exact ⟨_, rfl, fun value => Church.readBoolean_eq_some_iff⟩

/-- The definition of `two` keeps the meaning that `SUCC` had, numerals and booleans keep the one at the start. -/
theorem inputs_touch_only_their_own_redefined :
    let e : Evaluator := { strategy := .normal, maxSteps := 100, trace := false, maxSteps_pos := by decide }
    let s := (start e).after ["let two SUCC ONE", "let SUCC λx.x", "let TRUE FALSE", "bool two", "set steps 10"]
    s.session.get? "two" = some (.app Church.succ Church.one) ∧
      (s.execute "church 2").2 = .ok (.numeral 2 (Church.numeral 2)) ∧
      (s.execute "bool TRUE").2 = .ok (.boolean (some false)) := by
  intro e s
  have htwo : s.session.get? "two" = some (.app Church.succ Church.one) := by decide +kernel
  have hchurch : Command.read "church 2" = .ok (.church 2) := by decide +kernel
  have hbool : Command.read "bool TRUE" = .ok (.bool (.var "TRUE")) := by decide +kernel
  have hfalse : (s.evaluator.evaluate (s.session.resolve (.var "TRUE"))).term.alphaEq Church.fls = true := by
    decide +kernel
  obtain ⟨-, -, -, hnumeral, hboolean⟩ := inputs_touch_only_their_own e
    ["let two SUCC ONE", "let SUCC λx.x", "let TRUE FALSE", "bool two", "set steps 10"]
  obtain ⟨b, hresponse, hb⟩ := hboolean "bool TRUE" _ hbool
  refine ⟨htwo, hnumeral "church 2" 2 hchurch, ?_⟩
  rw [← (hb false).2 hfalse]
  exact hresponse

end LambdaCalculus.Shell
