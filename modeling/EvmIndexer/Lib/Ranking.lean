/-
A library of the first rows of an ordered read, `ORDER BY ... LIMIT n`.

`top r n l` are the first `n` elements of `l` in the order `r`. They are elements of `l`, none
more often than in `l` (`top_subperm`), as many as there are up to `n` (`length_top`), in order
(`top_pairwise`), and what is left out comes after all of them (`le_of_not_mem_top`). With a
large enough `n` they are all elements (`top_perm`).
-/
import Mathlib.Data.List.Sort

set_option autoImplicit false

namespace Ranking

variable {α : Type} (r : α → α → Prop) [DecidableRel r]

/-- The first `n` elements in an order. -/
def top (n : ℕ) (l : List α) : List α := (l.insertionSort r).take n

variable {r} {n : ℕ} {l : List α}

theorem top_subperm : (top r n l).Subperm l :=
  (List.take_sublist n _).subperm.trans (List.perm_insertionSort r l).subperm

theorem mem_of_mem_top {a : α} (h : a ∈ top r n l) : a ∈ l := top_subperm.subset h

/-- What tells the elements apart tells those shown apart. -/
theorem nodup_map_top {β : Type} {f : α → β} (h : (l.map f).Nodup) :
    ((top r n l).map f).Nodup := by
  have hsorted : ((l.insertionSort r).map f).Nodup :=
    ((List.perm_insertionSort r l).map f).nodup_iff.2 h
  exact hsorted.sublist ((List.take_sublist n _).map f)

theorem length_top : (top r n l).length = min n l.length := by
  unfold top
  rw [List.length_take, List.length_insertionSort]

/-- A limit that is large enough cuts nothing off. -/
theorem top_perm (h : l.length ≤ n) : (top r n l).Perm l := by
  unfold top
  rw [List.take_of_length_le (by rwa [List.length_insertionSort])]
  exact List.perm_insertionSort r l

variable [Std.Total r] [IsTrans α r]

theorem top_pairwise : (top r n l).Pairwise r :=
  (List.pairwise_insertionSort r l).sublist (List.take_sublist n _)

/-- What is left out comes after everything that is not. -/
theorem le_of_not_mem_top {a b : α} (ha : a ∈ top r n l) (hb : b ∈ l) (hout : b ∉ top r n l) :
    r a b := by
  have hsplit : top r n l ++ (l.insertionSort r).drop n = l.insertionSort r :=
    List.take_append_drop n _
  have hsorted := List.pairwise_insertionSort r l
  rw [← hsplit, List.pairwise_append] at hsorted
  have hmem : b ∈ top r n l ++ (l.insertionSort r).drop n := by
    rw [hsplit]
    exact (List.mem_insertionSort r).2 hb
  rcases List.mem_append.1 hmem with hin | hdrop
  · exact absurd hin hout
  · exact hsorted.2.2 a ha b hdrop

end Ranking
