/-
A library of searching a list for a pattern.

`find` is the search from the front: it returns what stands before the first occurrence.
`Reads pattern text head` says what that is without a search: `head` is the text up to the end
of the first occurrence, so it ends with the pattern and has no earlier one (`find_eq_some`).

An occurrence may begin in one part of a text and end in the next. Where none begins in the
first part, the search is that of the rest (`find_append`).
-/
import Mathlib.Data.List.Infix

set_option autoImplicit false

namespace Search

variable {α : Type}

/-- The text ends with the pattern, and has no other occurrence of it. -/
def EndsFirst (pattern head : List α) : Prop := pattern <:+ head ∧ ¬ pattern <:+: head.dropLast

/-- The text reads `head` up to the end of the first occurrence of the pattern. -/
def Reads (pattern text head : List α) : Prop := head <+: text ∧ EndsFirst pattern head

variable {pattern : List α}

/-- The pattern alone is its first occurrence. -/
theorem endsFirst_self (hne : pattern ≠ []) : EndsFirst pattern pattern := by
  refine ⟨List.suffix_refl pattern, fun hinfix => ?_⟩
  have hlength := hinfix.length_le
  rw [List.length_dropLast] at hlength
  have hpos := List.length_pos_of_ne_nil hne
  omega

/-- One more element before the first occurrence. -/
theorem endsFirst_cons {a : α} {head : List α} (hhead : head ≠ []) :
    EndsFirst pattern (a :: head) ∧ pattern <:+ head ↔
      EndsFirst pattern head ∧ ¬ pattern <+: a :: head.dropLast := by
  unfold EndsFirst
  rw [List.dropLast_cons_of_ne_nil hhead, List.infix_cons_iff]
  constructor
  · rintro ⟨⟨-, hnone⟩, hsuffix⟩
    exact ⟨⟨hsuffix, fun h => hnone (Or.inr h)⟩, fun h => hnone (Or.inl h)⟩
  · rintro ⟨⟨hsuffix, hnone⟩, hprefix⟩
    exact ⟨⟨hsuffix.trans (List.suffix_cons a head), fun h => h.elim hprefix hnone⟩, hsuffix⟩

/-- Where the pattern stands at the front, nothing stands before its first occurrence. -/
theorem EndsFirst.eq_nil {before text : List α} (h : EndsFirst pattern (before ++ pattern))
    (hread : before ++ pattern <+: text) (hfront : pattern <+: text) : before = [] := by
  by_contra hne
  have hpos := List.length_pos_of_ne_nil hne
  have hshort : pattern.length ≤ (before ++ pattern).dropLast.length := by
    rw [List.length_dropLast, List.length_append]
    omega
  have hearlier : pattern <+: (before ++ pattern).dropLast :=
    List.prefix_of_prefix_length_le hfront ((List.dropLast_prefix _).trans hread) hshort
  exact h.2 hearlier.isInfix

section Find

variable [DecidableEq α]

/-- What stands before the first occurrence of the pattern. -/
def find (pattern : List α) : List α → Option (List α)
  | [] => if pattern = [] then some [] else none
  | a :: rest =>
    if pattern <+: a :: rest then some [] else (find pattern rest).map fun before => a :: before

/-- The search finds the first occurrence. -/
theorem find_eq_some (hne : pattern ≠ []) {text before : List α} :
    find pattern text = some before ↔ Reads pattern text (before ++ pattern) := by
  induction text generalizing before with
  | nil =>
    rw [find, if_neg hne]
    refine ⟨nofun, fun h => ?_⟩
    exact absurd (List.append_eq_nil_iff.1 (List.prefix_nil.1 h.1)).2 hne
  | cons a rest ih =>
    rw [find]
    by_cases hfront : pattern <+: a :: rest
    · rw [if_pos hfront]
      constructor
      · intro h
        cases h
        exact ⟨hfront, endsFirst_self hne⟩
      · intro h
        rw [h.2.eq_nil h.1 hfront]
    · rw [if_neg hfront, Option.map_eq_some_iff]
      constructor
      · rintro ⟨before, hfind, rfl⟩
        obtain ⟨hread, hfirst⟩ := ih.1 hfind
        -- an occurrence at the front of what is read would be one at the front of the text
        have hnone : ¬ pattern <+: a :: (before ++ pattern).dropLast := fun h =>
          hfront (h.trans (List.cons_prefix_cons.2 ⟨rfl, (List.dropLast_prefix _).trans hread⟩))
        have hhead : before ++ pattern ≠ [] := List.append_ne_nil_of_right_ne_nil _ hne
        exact ⟨List.cons_prefix_cons.2 ⟨rfl, hread⟩, ((endsFirst_cons hhead).2 ⟨hfirst, hnone⟩).1⟩
      · rintro ⟨hread, hfirst⟩
        cases before with
        | nil => exact absurd hread hfront
        | cons b before =>
          obtain ⟨rfl, hrest⟩ := List.cons_prefix_cons.1 hread
          have hhead : before ++ pattern ≠ [] := List.append_ne_nil_of_right_ne_nil _ hne
          have hlater := (endsFirst_cons hhead).1 ⟨hfirst, List.suffix_append before pattern⟩
          exact ⟨before, ih.2 ⟨hrest, hlater.1⟩, rfl⟩

/-- Two searches agree just when the texts read the same up to the end of the first
occurrence, or none of the two has one. -/
theorem find_eq_find (hne : pattern ≠ []) {text text' : List α} :
    find pattern text = find pattern text'
      ↔ ∀ head, Reads pattern text head ↔ Reads pattern text' head := by
  constructor
  · intro h head
    -- a reading is what is found, and the pattern
    have hread : ∀ {text text' : List α}, find pattern text = find pattern text' →
        Reads pattern text head → Reads pattern text' head := by
      intro text text' h hhead
      obtain ⟨before, rfl⟩ := hhead.2.1
      exact (find_eq_some hne).1 (h ▸ (find_eq_some hne).2 hhead)
    exact ⟨hread h, hread h.symm⟩
  · intro h
    refine Option.ext fun before => ?_
    rw [find_eq_some hne, find_eq_some hne, h]

/-- Where no occurrence begins in the front of a text, the search is that of the rest. -/
theorem find_append {front rest : List α}
    (hnone : ∀ part, part <:+ front → part ≠ [] → ¬ pattern <+: part ++ rest) :
    find pattern (front ++ rest) = (find pattern rest).map fun before => front ++ before := by
  induction front with
  | nil => exact Option.map_id'.symm
  | cons a front ih =>
    have hfront : ¬ pattern <+: a :: (front ++ rest) :=
      hnone (a :: front) (List.suffix_refl _) (List.cons_ne_nil _ _)
    have hrest := ih fun part hpart => hnone part (hpart.trans (List.suffix_cons a front))
    rw [List.cons_append, find, if_neg hfront, hrest, Option.map_map]
    rfl

end Find

end Search
