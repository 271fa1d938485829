/-
A library of least and greatest elements that may be missing.

A column that holds the smallest value seen so far is an `Option`: nothing was seen, or the
least of what was. `IsLeastOf s o` says that `o` is that column for the set `s`, and
`IsGreatestOf` the same of the largest. Both go along with adding elements
(`IsLeastOf.union`), and survive removing them as long as the extreme one stays
(`IsLeastOf.of_subset`); `Option.merge min` is the update of the column.
-/
import Mathlib.Order.Bounds.Basic

set_option autoImplicit false

namespace Extremes

variable {α : Type} [LinearOrder α] {s t : Set α} {o p : Option α}

/-- The least element of a set, or none where the set is empty. -/
def IsLeastOf (s : Set α) : Option α → Prop
  | none => s = ∅
  | some a => IsLeast s a

/-- The greatest element of a set, or none where the set is empty. -/
def IsGreatestOf (s : Set α) : Option α → Prop
  | none => s = ∅
  | some a => IsGreatest s a

theorem IsLeastOf.union (h : IsLeastOf s o) (k : IsLeastOf t p) :
    IsLeastOf (s ∪ t) (Option.merge min o p) := by
  cases o with
  | none =>
    rw [show s = ∅ from h, Set.empty_union, Option.merge_none_left]
    exact k
  | some a =>
    cases p with
    | none =>
      rw [show t = ∅ from k, Set.union_empty, Option.merge_none_right]
      exact h
    | some b => exact IsLeast.union h k

theorem IsGreatestOf.union (h : IsGreatestOf s o) (k : IsGreatestOf t p) :
    IsGreatestOf (s ∪ t) (Option.merge max o p) := by
  cases o with
  | none =>
    rw [show s = ∅ from h, Set.empty_union, Option.merge_none_left]
    exact k
  | some a =>
    cases p with
    | none =>
      rw [show t = ∅ from k, Set.union_empty, Option.merge_none_right]
      exact h
    | some b => exact IsGreatest.union h k

/-- Removing elements that another is below keeps the least one. -/
theorem IsLeastOf.of_subset (h : IsLeastOf s o) (hsub : t ⊆ s) (hbelow : ∀ x ∈ s, ∃ y ∈ t, y ≤ x) :
    IsLeastOf t o := by
  cases o with
  | none => exact Set.subset_empty_iff.1 (hsub.trans (Set.subset_empty_iff.2 h))
  | some a =>
    obtain ⟨ha, hleast⟩ := h
    obtain ⟨y, hy, hya⟩ := hbelow a ha
    have heq : y = a := le_antisymm hya (hleast (hsub hy))
    exact ⟨heq ▸ hy, fun x hx => hleast (hsub hx)⟩

/-- Removing elements that another is above keeps the greatest one. -/
theorem IsGreatestOf.of_subset (h : IsGreatestOf s o) (hsub : t ⊆ s)
    (habove : ∀ x ∈ s, ∃ y ∈ t, x ≤ y) : IsGreatestOf t o := by
  cases o with
  | none => exact Set.subset_empty_iff.1 (hsub.trans (Set.subset_empty_iff.2 h))
  | some a =>
    obtain ⟨ha, hgreatest⟩ := h
    obtain ⟨y, hy, hay⟩ := habove a ha
    have heq : a = y := le_antisymm hay (hgreatest (hsub hy))
    exact ⟨heq ▸ hy, fun x hx => hgreatest (hsub hx)⟩

/-- One value, or none: the least of those there are. -/
theorem isLeastOf_ite {c : Prop} [Decidable c] (a : α) :
    IsLeastOf {b | c ∧ b = a} (if c then some a else none) := by
  by_cases hc : c
  · simp only [hc, true_and, if_true]
    exact isLeast_singleton
  · simp only [hc, false_and, if_false]
    exact rfl

theorem isGreatestOf_ite {c : Prop} [Decidable c] (a : α) :
    IsGreatestOf {b | c ∧ b = a} (if c then some a else none) := by
  by_cases hc : c
  · simp only [hc, true_and, if_true]
    exact isGreatest_singleton
  · simp only [hc, false_and, if_false]
    exact rfl

end Extremes
