import LambdaCalculus.Church.Encodings
import LambdaCalculus.Proofs.Session.Resolution
import LambdaCalculus.Source.Parser
import Std.Data.TreeMap.Lemmas

/-!
# The encodings and their texts

The encodings have texts, and a text may name the encodings in front of it.  To load the texts is to read one after the
other and to resolve each in what has been loaded before.  If no text names anything else, this does not fail, and
everything loaded is closed (`closed_foldlM_load`): one step keeps closed definitions closed, because a term whose free
names all have closed definitions is closed once it is resolved.

What is loaded from the texts of the encodings is the table of encodings (`load_sources`), so an encoding is closed.
-/

namespace LambdaCalculus

open Source (SyntaxError parse)

/-! ### Closed definitions -/

namespace Bindings

/-- Whether no definition has a free name. -/
def Closed (bindings : Bindings) : Prop :=
  ∀ (name : Name) (t : Term), bindings[name]? = some t → t.freeVars = []

namespace Closed

variable {bindings : Bindings}

private theorem empty : Closed ∅ := by
  intro name t h
  rw [Std.TreeMap.getElem?_emptyc] at h
  cases h

private theorem insert {t : Term} (h : bindings.Closed) (ht : t.freeVars = []) (name : Name) :
    Closed (bindings.insert name t) := by
  intro x u hu
  rw [Std.TreeMap.getElem?_insert] at hu
  split at hu
  · cases hu
    exact ht
  · exact h x u hu

/-- A term whose free names are defined is closed once it is resolved. -/
private theorem freeVars_resolve {t : Term} (h : bindings.Closed) (ht : ∀ x ∈ t.freeVars, x ∈ bindings) :
    (bindings.resolve t).freeVars = [] := by
  rw [Bindings.freeVars_resolve, List.flatMap_eq_nil_iff]
  intro x hx
  have hmem : x ∈ bindings := ht x hx
  have hdefined : bindings[x]? = some bindings[x] := Std.TreeMap.getElem?_eq_some_getElem hmem
  rw [hdefined, Option.map_some, Option.getD_some]
  exact h x _ hdefined

end Closed

end Bindings

/-! ### Loading -/

namespace Church

/-- Gives a name to the term of a text, with the names defined before resolved in it. -/
def load (defined : Bindings) (source : Name × String) : Except SyntaxError Bindings := do
  let t ← parse source.2
  return defined.insert source.1 (defined.resolve t)

/-- Whether every text is a term with no free names but the given ones and those in front of it. -/
def refersBack (names : List Name) : List (Name × String) → Bool
  | [] => true
  | (name, text) :: sources =>
    (match parse text with
      | .ok t => t.freeVars.all names.contains
      | .error _ => false) && refersBack (name :: names) sources

private theorem exists_parse_of_refersBack {names : List Name} {name : Name} {text : String}
    {sources : List (Name × String)} (h : refersBack names ((name, text) :: sources) = true) :
    (∃ t, parse text = .ok t ∧ ∀ x ∈ t.freeVars, x ∈ names) ∧ refersBack (name :: names) sources = true := by
  rw [refersBack, Bool.and_eq_true] at h
  refine ⟨?_, h.2⟩
  cases hparse : parse text with
  | error e => simp [hparse] at h
  | ok t => exact ⟨t, rfl, by simpa [hparse] using h.1⟩

/-- Texts that refer back are loaded, and their terms are closed when those defined before are. -/
private theorem closed_foldlM_load {defined : Bindings} {names : List Name} {sources : List (Name × String)}
    (hclosed : defined.Closed) (hnames : ∀ x ∈ names, x ∈ defined) (h : refersBack names sources = true) :
    ∃ loaded, sources.foldlM load defined = .ok loaded ∧ loaded.Closed := by
  induction sources generalizing defined names with
  | nil => exact ⟨defined, rfl, hclosed⟩
  | cons source sources ih =>
    obtain ⟨⟨t, hparse, hfree⟩, hrest⟩ := exists_parse_of_refersBack h
    have hload : load defined source = .ok (defined.insert source.1 (defined.resolve t)) := by
      rw [load, hparse]
      rfl
    rw [List.foldlM_cons, hload]
    have hterm : (defined.resolve t).freeVars = [] := hclosed.freeVars_resolve fun x hx => hnames x (hfree x hx)
    refine ih (hclosed.insert hterm source.1) ?_ hrest
    intro x hx
    rw [Std.TreeMap.mem_insert, Std.compare_eq_iff_eq]
    rcases List.mem_cons.1 hx with rfl | hx
    · exact .inl rfl
    · exact .inr (hnames x hx)

/-! ### The texts of the encodings -/

/-- The encodings in the order in which they are loaded. -/
def sources : List (Name × String) :=
  [("TRUE", "λx.λy.x"), ("FALSE", "λx.λy.y"), ("AND", "λp.λq.p q p"), ("OR", "λp.λq.p p q"),
    ("NOT", "λp.λa.λb.p b a"), ("IF_THEN_ELSE", "λp.λa.λb.p a b"), ("ZERO", "λf.λx.x"), ("ONE", "λf.λx.f x"),
    ("TWO", "λf.λx.f (f x)"), ("THREE", "λf.λx.f (f (f x))"), ("SUCC", "λn.λf.λx.f (n f x)"),
    ("PLUS", "λm.λn.λf.λx.m f (n f x)"), ("MULT", "λm.λn.λf.m (n f)"), ("POW", "λm.λn.n m"),
    ("PRED", "λn.λf.λx.n (λg.λh.h (g f)) (λu.x) (λu.u)"), ("SUB", "λm.λn.n PRED m"),
    ("IS_ZERO", "λn.n (λx.FALSE) TRUE"), ("LEQ", "λm.λn.IS_ZERO (SUB m n)"), ("EQ", "λm.λn.AND (LEQ m n) (LEQ n m)"),
    ("PAIR", "λx.λy.λf.f x y"), ("FIRST", "λp.p (λx.λy.x)"), ("SECOND", "λp.p (λx.λy.y)"), ("NIL", "λx.TRUE"),
    ("IS_NIL", "λl.l (λh.λt.FALSE)"), ("CONS", "λh.λt.λc.c h t"), ("HEAD", "λl.l (λh.λt.h)"),
    ("TAIL", "λl.l (λh.λt.t)")]

/-- The encodings are what their texts say. -/
theorem load_sources : ∃ loaded, sources.foldlM load ∅ = .ok loaded ∧ ∀ name, loaded[name]? = get? name := by
  have hlist : (sources.foldlM load ∅).toOption.map (·.toList) = some bindings.toList := by decide +kernel
  cases hload : sources.foldlM load ∅ with
  | error e =>
    rw [hload] at hlist
    cases hlist
  | ok loaded =>
    rw [hload] at hlist
    have hequiv : loaded.Equiv bindings := Std.TreeMap.equiv_iff_toList_eq.2 (Option.some.inj hlist)
    exact ⟨loaded, rfl, fun name => hequiv.getElem?_eq⟩

/-- An encoding is closed. -/
theorem closed_bindings : bindings.Closed := by
  obtain ⟨loaded, hload, hget⟩ := load_sources
  have hrefers : refersBack [] sources = true := by decide +kernel
  obtain ⟨loaded', hload', hclosed⟩ := closed_foldlM_load .empty (by simp) hrefers
  rw [hload] at hload'
  cases hload'
  intro name t h
  exact hclosed name t ((hget name).trans h)

end Church

end LambdaCalculus
