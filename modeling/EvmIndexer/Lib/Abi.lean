/-
A library of ABI arrays: dynamic arrays of words inside a block of words.

A block is a list of numbers, each one 32-byte word. A dynamic array is addressed
by the byte offset of its length word, and its items follow that word
(`readArray`). The canonical encoding of two arrays is their two offsets, then one
array after the other (`encodePair`), and reading it back at those offsets gives
the arrays (`readArray_encodePair_fst`, `readArray_encodePair_snd`).
-/
import Mathlib.Data.List.Basic

set_option autoImplicit false

namespace Abi

/-- The items of the dynamic array whose length word is at a byte offset, where the
offset is aligned and the array lies in the block. -/
def readArray (words : List ℕ) (offset : ℕ) : Option (List ℕ) :=
  if offset % 32 = 0 then
    match words.drop (offset / 32) with
    | [] => none
    | length :: items => if length ≤ items.length then some (items.take length) else none
  else none

/-- The canonical encoding of two dynamic arrays. -/
def encodePair (xs ys : List ℕ) : List ℕ :=
  [64, 32 * (xs.length + 3)] ++ (xs.length :: xs) ++ (ys.length :: ys)

/-- An array is only read at an offset that lies in the block. -/
theorem offset_lt_of_readArray {words items : List ℕ} {offset : ℕ}
    (h : readArray words offset = some items) : offset < 32 * words.length := by
  unfold readArray at h
  split at h
  · rename_i haligned
    split at h
    · cases h
    · rename_i length rest hdrop
      have hlt : offset / 32 < words.length := by
        by_contra hout
        rw [List.drop_eq_nil_of_le (Nat.le_of_not_lt hout)] at hdrop
        cases hdrop
      omega
  · cases h

/-- An array that starts at an aligned offset is read. -/
theorem readArray_append (before items after : List ℕ) :
    readArray (before ++ (items.length :: items) ++ after) (32 * before.length) = some items := by
  have hdrop : (before ++ (items.length :: items) ++ after).drop (32 * before.length / 32)
      = items.length :: (items ++ after) := by
    rw [Nat.mul_div_cancel_left _ (by omega), List.append_assoc, List.drop_left, List.cons_append]
  have hlength : items.length ≤ (items ++ after).length := by
    rw [List.length_append]
    omega
  unfold readArray
  rw [if_pos (Nat.mul_mod_right 32 _), hdrop]
  simp only
  rw [if_pos hlength, List.take_left]

theorem readArray_encodePair_fst (xs ys : List ℕ) : readArray (encodePair xs ys) 64 = some xs :=
  readArray_append [64, 32 * (xs.length + 3)] xs (ys.length :: ys)

theorem readArray_encodePair_snd (xs ys : List ℕ) :
    readArray (encodePair xs ys) (32 * (xs.length + 3)) = some ys := by
  have h := readArray_append ([64, 32 * (xs.length + 3)] ++ (xs.length :: xs)) ys []
  rw [List.append_nil] at h
  have hlength : ([64, 32 * (xs.length + 3)] ++ (xs.length :: xs)).length = xs.length + 3 := by
    simp only [List.length_append, List.length_cons, List.length_nil]
    omega
  rw [hlength] at h
  exact h

theorem length_encodePair (xs ys : List ℕ) :
    (encodePair xs ys).length = xs.length + ys.length + 4 := by
  simp only [encodePair, List.length_append, List.length_cons, List.length_nil]
  omega

/-- The words of an encoding are its two offsets, the two lengths and the items. -/
theorem mem_encodePair {xs ys : List ℕ} {w : ℕ} (h : w ∈ encodePair xs ys) :
    w = 64 ∨ w = 32 * (xs.length + 3) ∨ w = xs.length ∨ w ∈ xs ∨ w = ys.length ∨ w ∈ ys := by
  simp only [encodePair, List.mem_append, List.mem_cons, List.not_mem_nil, or_false] at h
  tauto

end Abi
