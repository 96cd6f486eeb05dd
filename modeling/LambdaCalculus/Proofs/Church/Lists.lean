import LambdaCalculus.Proofs.Church.Arithmetic

/-!
# Lists and pairs

A list hands its first item and the list of the others over to a function, and so does a pair with its two components.
The encodings that take them apart are such functions: each chooses one of the two (`headReduces_tails_app` and the
lemmas in front of it).

All contractions on the way are at the head, which is where normal order makes them.  So what is taken out of a list is
found in normal order as it was put in, whatever its free names and even if it has no normal form
(`lists_and_pairs_deliver_components`): no step is made in an item before it comes to the head.
-/

namespace LambdaCalculus.Church

open Nameless (app boolean Reduces HeadReduces)

/-! ### Constructors and selectors applied to terms -/

variable (a b f l : Nameless)

private theorem headReduces_app_abs (x : Name) (body : Term) :
    HeadReduces (app (Term.abs x body).nameless a) (body.namelessWith (Function.update .free x a)) := by
  rw [Term.nameless_eq]
  exact headReduces_app_namelessWith x body .free a

private theorem headReduces_app_app_app_abs (x y z : Name) (body : Term) :
    HeadReduces (app (app (app (Term.abs x (.abs y (.abs z body))).nameless a) b) f)
      (body.namelessWith (Function.update (Function.update (Function.update .free x a) y b) z f)) :=
  calc HeadReduces _ _ := ((headReduces_app_abs a x (.abs y (.abs z body))).fn b).fn f
    HeadReduces _ _ := (headReduces_app_namelessWith y (.abs z body) _ b).fn f
    HeadReduces _ _ := headReduces_app_namelessWith z body _ f

private theorem headReduces_cons_app : HeadReduces (app (app (app cons.nameless a) l) f) (app (app f a) l) :=
  headReduces_app_app_app_abs a l f "h" "t" "c" _

private theorem headReduces_pair_app : HeadReduces (app (app (app pair.nameless a) b) f) (app (app f a) b) :=
  headReduces_app_app_app_abs a b f "x" "y" "f" _

private theorem headReduces_head_app : HeadReduces (app head.nameless l) (app l (boolean true)) :=
  headReduces_app_abs l "l" _

private theorem headReduces_tail_app : HeadReduces (app tail.nameless l) (app l (boolean false)) :=
  headReduces_app_abs l "l" _

private theorem headReduces_first_app : HeadReduces (app first.nameless a) (app a (boolean true)) :=
  headReduces_app_abs a "p" _

private theorem headReduces_second_app : HeadReduces (app second.nameless a) (app a (boolean false)) :=
  headReduces_app_abs a "p" _

private theorem isNil_app : Reduces (app isNil.nameless l) (app l (Term.abs "h" (.abs "t" fls)).nameless) :=
  app_abs "l" _ l

private theorem nil_app : Reduces (app nil.nameless f) (boolean true) :=
  app_abs "x" _ f

variable {a b f l}

/-- A pair lets a boolean choose between its components. -/
private theorem headReduces_pair_app_boolean (c : Bool) :
    HeadReduces (app (app (app pair.nameless a) b) (boolean c)) (if c then a else b) :=
  (headReduces_pair_app a b _).trans (Nameless.headReduces_boolean_app_app c a b)

/-- A list lets a boolean choose between its first item and the list of the others. -/
private theorem headReduces_cons_app_boolean (c : Bool) :
    HeadReduces (app (app (app cons.nameless a) l) (boolean c)) (if c then a else l) :=
  (headReduces_cons_app a _ l).trans (Nameless.headReduces_boolean_app_app c a l)

/-! ### Lists without their first items -/

private theorem nameless_iterate_tail (i : Nat) (t : Term) :
    ((Term.app tail)^[i] t).nameless = (app tail.nameless)^[i] t.nameless := by
  have hcommutes : Function.Semiconj Term.nameless (Term.app tail) (app tail.nameless) := fun _ => rfl
  exact hcommutes.iterate_right i t

private theorem nameless_list_drop {items : List Term} {i : Nat} (hi : i < items.length) :
    (list (items.drop i)).nameless = app (app cons.nameless items[i].nameless) (list (items.drop (i + 1))).nameless := by
  rw [List.drop_eq_getElem_cons hi]
  rfl

/-- What is left of a list behaves in function position as the list of the items that are left. -/
private theorem headReduces_tails_app {items : List Term} {i : Nat} (hi : i ≤ items.length) (f : Nameless) :
    HeadReduces (app ((Term.app tail)^[i] (list items)).nameless f) (app (list (items.drop i)).nameless f) := by
  rw [nameless_iterate_tail]
  induction i generalizing f with
  | zero => exact .refl
  | succ i ih =>
    -- the shorter list is in function position too, applied to the choice of what is behind its first item
    rw [Function.iterate_succ_apply']
    calc HeadReduces _ _ := (headReduces_tail_app _).fn f
      HeadReduces _ (app (app (list (items.drop i)).nameless (boolean false)) f) :=
        (ih (Nat.le_of_succ_le hi) (boolean false)).fn f
      HeadReduces _ (app (list (items.drop (i + 1))).nameless f) := by
        rw [nameless_list_drop hi]
        exact (headReduces_cons_app_boolean false).fn f

private theorem headReduces_head_tails {items : List Term} {i : Nat} (hi : i < items.length) :
    HeadReduces (Term.app head ((Term.app tail)^[i] (list items))).nameless items[i].nameless :=
  calc HeadReduces _ _ := headReduces_head_app _
    HeadReduces _ (app (list (items.drop i)).nameless (boolean true)) :=
      headReduces_tails_app (Nat.le_of_lt hi) (boolean true)
    HeadReduces _ items[i].nameless := by
      rw [nameless_list_drop hi]
      exact headReduces_cons_app_boolean true

private theorem decides_isNil_tails {items : List Term} {i : Nat} (hi : i ≤ items.length) :
    Decides (Term.app isNil ((Term.app tail)^[i] (list items))).nameless (i == items.length) := by
  have htails := (isNil_app _).trans (headReduces_tails_app hi _).reduces
  rcases Nat.eq_or_lt_of_le hi with rfl | hlt
  · rw [beq_self_eq_true]
    rw [List.drop_length] at htails
    exact htails.trans (nil_app _)
  · rw [beq_eq_false_iff_ne.2 (Nat.ne_of_lt hlt)]
    rw [nameless_list_drop hlt] at htails
    calc Reduces _ _ := htails
      Reduces _ _ := (headReduces_cons_app _ _ _).reduces
      Reduces _ (boolean false) := app_app_abs "h" "t" fls _ _

/-! ### Evaluation in normal order -/

/-- Whether the steps in normal order from `t` come to `u`, up to the names of bound variables. -/
def Delivers (t u : Term) : Prop :=
  ∃ k v, Reduction.after? Strategy.normal.step? k t = some v ∧ v.alphaEq u = true

private theorem delivers_of_headReduces {t u : Term} (h : HeadReduces t.nameless u.nameless) : Delivers t u := by
  obtain ⟨k, v, hk, hv⟩ := Reduction.exists_after?_of_nameless (s := .normal) h.normalReduces
  exact ⟨k, v, hk, Term.alphaEq_iff.2 hv⟩

/-- A list delivers the first of its items that are left as long as there are any, and it is known whether there are
any.  A pair delivers its components. -/
theorem lists_and_pairs_deliver_components :
    (∀ (items : List Term) (i : Nat) (hi : i < items.length),
        Delivers (.app head ((Term.app tail)^[i] (list items))) items[i]) ∧
      (∀ (items : List Term) (i : Nat), i ≤ items.length →
        ∃ budget, ∀ e : Evaluator, e.strategy = .normal → budget ≤ e.maxSteps →
          toBoolean e (.app isNil ((Term.app tail)^[i] (list items))) = some (i == items.length)) ∧
      ∀ a b : Term, Delivers (.app first (.app (.app pair a) b)) a ∧ Delivers (.app second (.app (.app pair a) b)) b := by
  refine ⟨?head, ?isNil, ?pair⟩
  case head =>
    intro items i hi
    exact delivers_of_headReduces (headReduces_head_tails hi)
  case isNil =>
    intro items i hi
    obtain ⟨budget, h⟩ := answers_of_decides _ (decides_isNil_tails hi)
    exact ⟨budget, fun e hnormal hbudget => (h e hnormal hbudget).2⟩
  case pair =>
    intro a b
    constructor
    · exact delivers_of_headReduces ((headReduces_first_app _).trans (headReduces_pair_app_boolean true))
    · exact delivers_of_headReduces ((headReduces_second_app _).trans (headReduces_pair_app_boolean false))

/-- The items have the names of binders that are passed on the way, the first one has no normal form, and neither has
the second component of the pair. -/
theorem lists_and_pairs_deliver_components_clashing_names :
    let loop := Term.app (.abs "x" (.app (.var "x") (.var "x"))) (.abs "x" (.app (.var "x") (.var "x")))
    let items := [loop, .app (.var "h") (.var "t"), .abs "c" (.var "l")]
    1 < items.length ∧ Delivers (.app head (.app tail (list items))) (.app (.var "h") (.var "t")) ∧
      Delivers (.app head (list items)) loop ∧ 3 ≤ items.length ∧
      (∃ e : Evaluator, e.strategy = .normal ∧ toBoolean e (.app isNil (.app tail (list items))) = some false ∧
        toBoolean e (.app isNil (.app tail (.app tail (.app tail (list items))))) = some true) ∧
      Delivers (.app first (.app (.app pair (.var "y")) loop)) (.var "y") ∧
      Delivers (.app second (.app (.app pair (.var "y")) loop)) loop := by
  intro loop items
  obtain ⟨hhead, hisNil, hpair⟩ := lists_and_pairs_deliver_components
  refine ⟨by decide, hhead items 1 (by decide), hhead items 0 (by decide), by decide, ?_, hpair (.var "y") loop⟩
  obtain ⟨budget, hsome⟩ := hisNil items 1 (by decide)
  obtain ⟨budget', hnone⟩ := hisNil items 3 (by decide)
  have hle : budget ≤ budget + budget' + 1 := by omega
  have hle' : budget' ≤ budget + budget' + 1 := by omega
  let e : Evaluator := ⟨.normal, budget + budget' + 1, false, Nat.succ_pos _⟩
  exact ⟨e, rfl, hsome e rfl hle, hnone e rfl hle'⟩

end LambdaCalculus.Church
