import LambdaCalculus.Proofs.Text
import LambdaCalculus.Source.Token
import LambdaCalculus.Term.Substitution
import Mathlib.Data.Finset.Card
import Mathlib.Data.Finset.Range
import Mathlib.Data.Nat.Find
import Std.Data.String.ToNat

/-!
# Fresh names

The candidates for a fresh name are `base`, `base1`, `base2`, … in this order, and they are all different
(`candidate_injective`), whatever digits `base` itself ends in.  So a used name is a candidate once at most, and there
are no more used candidates in front of the first free one (`IsFirstFree`) than used names (`le_card_of_forall_mem`).
The search goes up to the count of the used names, so it finds this candidate, and the fresh name is not used
(`fresh_not_mem`).
-/

namespace LambdaCalculus.Name

open Source (isIdentifier isIdentRest)

variable {base : Name} {used : List Name}

theorem suffixed_inj {i j : Nat} (h : base.suffixed i = base.suffixed j) : i = j :=
  Nat.repr_injective ((String.append_right_inj base).1 h)

private theorem suffixed_ne (base : Name) (i : Nat) : base.suffixed i ≠ base :=
  fun h => Nat.repr_ne_empty (String.append_eq_left_iff.1 h)

/-- The candidates in the order in which they are tried. -/
def candidate (base : Name) : Nat → Name
  | 0 => base
  | i + 1 => base.suffixed (i + 1)

private theorem candidate_injective (base : Name) : Function.Injective base.candidate := by
  intro i j h
  cases i with
  | zero =>
    cases j with
    | zero => rfl
    | succ j => exact absurd h.symm (suffixed_ne base (j + 1))
  | succ i =>
    cases j with
    | zero => exact absurd h (suffixed_ne base (i + 1))
    | succ j => exact suffixed_inj h

/-! ### The first free candidate -/

/-- There are no fewer used names than candidates in a row that are used. -/
private theorem le_card_of_forall_mem {i : Nat} (h : ∀ j < i, base.candidate j ∈ used) : i ≤ used.toFinset.card := by
  have hmaps : Set.MapsTo base.candidate (Finset.range i) used.toFinset := by
    intro j hj
    exact List.mem_toFinset.2 (h j (Finset.mem_range.1 hj))
  calc i = (Finset.range i).card := (Finset.card_range i).symm
    _ ≤ used.toFinset.card := Finset.card_le_card_of_injOn _ hmaps (candidate_injective base).injOn

/-- The candidate with this number is not used, and all before it are. -/
def IsFirstFree (base : Name) (used : List Name) (i : Nat) : Prop :=
  base.candidate i ∉ used ∧ ∀ j < i, base.candidate j ∈ used

private theorem exists_isFirstFree (base : Name) (used : List Name) : ∃ i, IsFirstFree base used i := by
  have hfree : ∃ i, base.candidate i ∉ used := by
    by_contra hall
    have hmem : ∀ i, base.candidate i ∈ used := fun i => not_not.1 fun hi => hall ⟨i, hi⟩
    exact absurd (le_card_of_forall_mem fun j (_ : j < used.toFinset.card + 1) => hmem j) (Nat.not_succ_le_self _)
  exact ⟨Nat.find hfree, Nat.find_spec hfree, fun j hj => not_not.1 (Nat.find_min hfree hj)⟩

private theorem IsFirstFree.congr {used' : List Name} (hused : ∀ x, x ∈ used ↔ x ∈ used') {i : Nat}
    (h : IsFirstFree base used i) : IsFirstFree base used' i :=
  ⟨mt (hused _).2 h.1, fun j hj => (hused _).1 (h.2 j hj)⟩

/-! ### The fresh name -/

/-- If the base is used, the search for a number finds that of the first free candidate. -/
private theorem IsFirstFree.find?_eq_some {i : Nat} (h : IsFirstFree base used (i + 1)) :
    (List.range' 1 used.length).find? (fun j => !used.contains (base.suffixed j)) = some (i + 1) := by
  have hle : i + 1 ≤ used.length := (le_card_of_forall_mem h.2).trans (List.toFinset_card_le used)
  refine List.find?_range'_eq_some.2 ⟨?_, List.mem_range'_1.2 ⟨Nat.succ_pos i, by omega⟩, fun j hj hlt => ?_⟩
  · simpa [candidate] using h.1
  · obtain ⟨j, rfl⟩ := Nat.exists_eq_add_one.2 hj
    simpa [candidate] using h.2 (j + 1) hlt

private theorem fresh_eq_self (hbase : base ∉ used) : base.fresh used = base :=
  if_neg (mt List.contains_iff_mem.1 hbase)

private theorem IsFirstFree.fresh_eq {i : Nat} (h : IsFirstFree base used i) :
    base.fresh used = base.candidate i := by
  cases i with
  | zero => exact fresh_eq_self h.1
  | succ i =>
    have hbase : base ∈ used := h.2 0 (Nat.succ_pos i)
    rw [fresh, if_pos (List.contains_iff_mem.2 hbase), h.find?_eq_some, candidate]

theorem fresh_not_mem (base : Name) (used : List Name) : base.fresh used ∉ used := by
  obtain ⟨i, h⟩ := exists_isFirstFree base used
  rw [h.fresh_eq]
  exact h.1

/-- Only the members of the list of used names count. -/
private theorem fresh_congr {used' : List Name} (hused : ∀ x, x ∈ used ↔ x ∈ used') :
    base.fresh used = base.fresh used' := by
  obtain ⟨i, h⟩ := exists_isFirstFree base used
  rw [h.fresh_eq, (h.congr hused).fresh_eq]

/-! ### Identifiers -/

theorem isIdentRest_of_mem_toString {n : Nat} {c : Char} (h : c ∈ (toString n).toList) : isIdentRest c = true := by
  have hdigit := Text.isDigit_of_mem_toString h
  simp [isIdentRest, Char.isAlphanum, hdigit]

private theorem isIdentifier_suffixed {base : Name} (h : isIdentifier base = true) (i : Nat) :
    isIdentifier (base.suffixed i) = true := by
  rw [isIdentifier] at h
  rw [suffixed, isIdentifier, String.toList_append]
  cases hbase : base.toList with
  | nil => simp [hbase] at h
  | cons c rest =>
    simp only [hbase, Bool.and_eq_true, List.all_eq_true] at h
    obtain ⟨hstart, hrest⟩ := h
    simp only [List.cons_append, Bool.and_eq_true, List.all_eq_true, List.mem_append]
    refine ⟨hstart, ?_⟩
    rintro d (hd | hd)
    · exact hrest d hd
    · exact isIdentRest_of_mem_toString hd

theorem isIdentifier_fresh {base : Name} (h : isIdentifier base = true) (used : List Name) :
    isIdentifier (base.fresh used) = true := by
  unfold fresh
  split
  · split
    · exact isIdentifier_suffixed h _
    · exact h
  · exact h

/-! ### What a fresh name is -/

/-- A fresh name is not used.  It is the base if that is not used, and the base with the least possible number behind it
otherwise, which the search always finds and which is at most the count of the used names.  It is an identifier if the
base is one, and it depends on the set of the used names only. -/
theorem fresh_is_first_free (base : Name) (used : List Name) :
    base.fresh used ∉ used ∧ (base ∉ used → base.fresh used = base) ∧
      (base ∈ used → ∃ i, 1 ≤ i ∧ i ≤ used.toFinset.card ∧ base.fresh used = base ++ toString i ∧
        base ++ toString i ∉ used ∧ (∀ j, 1 ≤ j → j < i → base ++ toString j ∈ used) ∧
        (List.range' 1 used.length).find? (fun j => !used.contains (base.suffixed j)) = some i) ∧
      (Source.isIdentifier base = true → Source.isIdentifier (base.fresh used) = true) ∧
      ∀ used' : List Name, (∀ x, x ∈ used ↔ x ∈ used') → base.fresh used = base.fresh used' := by
  refine ⟨fresh_not_mem base used, fresh_eq_self, fun hbase => ?_, fun h => isIdentifier_fresh h used,
    fun used' => fresh_congr⟩
  obtain ⟨i, hfirst⟩ := exists_isFirstFree base used
  cases i with
  | zero => exact absurd hbase hfirst.1
  | succ i =>
    refine ⟨i + 1, Nat.succ_pos i, le_card_of_forall_mem hfirst.2, hfirst.fresh_eq, hfirst.1, fun j hj hlt => ?_,
      hfirst.find?_eq_some⟩
    obtain ⟨j, rfl⟩ := Nat.exists_eq_add_one.2 hj
    exact hfirst.2 (j + 1) hlt

/-- The base ends in a digit, and one of the used names is listed twice. -/
theorem fresh_is_first_free_behind_digits :
    let base := "x1"
    let used := ["x11", "x1", "y", "x12", "x1"]
    base ∈ used ∧ Name.fresh base used = "x13" ∧ used.toFinset.card = 4 ∧
      (∃ i, 1 ≤ i ∧ i ≤ used.toFinset.card ∧ Name.fresh base used = base ++ toString i ∧ base ++ toString i ∉ used ∧
        (∀ j, 1 ≤ j → j < i → base ++ toString j ∈ used) ∧
        (List.range' 1 used.length).find? (fun j => !used.contains (Name.suffixed base j)) = some i) ∧
      Source.isIdentifier (Name.fresh base used) = true ∧
      Name.fresh base used = Name.fresh base ["x1", "x11", "x12", "y"] := by
  intro base used
  obtain ⟨-, -, hsearch, hidentifier, hmembers⟩ := fresh_is_first_free base used
  have hsub : ∀ x ∈ used, x ∈ ["x1", "x11", "x12", "y"] := by decide
  have hsup : ∀ x ∈ ["x1", "x11", "x12", "y"], x ∈ used := by decide
  exact ⟨by decide, by decide +kernel, by decide, hsearch (by decide), hidentifier (by decide),
    hmembers _ fun x => ⟨hsub x, hsup x⟩⟩

end LambdaCalculus.Name
