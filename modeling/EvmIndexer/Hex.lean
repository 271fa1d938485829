/-
Hex text and the bytes of text.

The decoder measures and slices text by bytes: `str::len` counts them, and a slice
that would cut a character in two panics. `byte_slice` is that slice, and on text
of single-byte characters, which hex text is, it is `drop` and `take`
(`byte_slice_ascii`).

`hex_text` writes a number with a given number of hex digits, and `hex_value` reads
it back (`hex_number_hex_text`).
-/
import EvmIndexer.Text
import Mathlib.Data.List.Induction
import Mathlib.Order.Basic
import Mathlib.Tactic.IntervalCases

set_option autoImplicit false

namespace EvmIndexer

/-! ## Bytes

A slice is asked for by byte offsets and panics where an offset is inside a character. So a
text is a list of characters with their sizes, and a boundary is an offset where the sizes
add up.
-/

/-- `str::len`. -/
def byte_len (text : List Char) : Nat := (text.map Char.utf8Size).sum

/-- A character is at least one byte. -/
theorem length_le_byte_len (text : List Char) : text.length ≤ byte_len text := by
  unfold byte_len
  induction text with
  | nil => exact le_refl _
  | cons c rest ih =>
    have hc : 0 < c.utf8Size := Char.utf8Size_pos c
    rw [List.map_cons, List.sum_cons, List.length_cons]
    omega

/-- The text before and after a byte offset, where the offset is a character
boundary of the text. -/
def split_bytes : Nat → List Char → Option (List Char × List Char)
  | n, [] => if n = 0 then some ([], []) else none
  | n, c :: rest =>
    if n = 0 then some ([], c :: rest)
    else if c.utf8Size ≤ n then
      (split_bytes (n - c.utf8Size) rest).map fun split => (c :: split.1, split.2)
    else none

/-- `&text[start..stop]`, `none` where it panics. -/
def byte_slice (text : List Char) (start stop : Nat) : Option (List Char) :=
  (split_bytes start text).bind fun tail =>
    (split_bytes (stop - start) tail.2).map fun slice => slice.1

/-- A slice, with a panic for an error: no value is returned either way. -/
def slice (text : List Char) (start stop : Nat) : Result (List Char) :=
  match byte_slice text start stop with
  | some part => .ok part
  | none => .error "byte index is not a char boundary"

/-- Text of single-byte characters. -/
def IsAscii (text : List Char) : Prop := ∀ c ∈ text, c.utf8Size = 1

theorem IsAscii.byte_len {text : List Char} (h : IsAscii text) : byte_len text = text.length := by
  unfold EvmIndexer.byte_len
  induction text with
  | nil => rfl
  | cons c rest ih =>
    rw [List.map_cons, List.sum_cons, ih fun d hd => h d (List.mem_cons_of_mem _ hd),
      h c (List.mem_cons_self ..), List.length_cons, Nat.add_comm]

theorem split_bytes_ascii {text : List Char} (h : IsAscii text) {n : Nat} (hn : n ≤ text.length) :
    split_bytes n text = some (text.take n, text.drop n) := by
  induction text generalizing n with
  | nil =>
    have hzero : n = 0 := Nat.le_zero.1 hn
    subst hzero
    rfl
  | cons c rest ih =>
    rw [split_bytes]
    cases n with
    | zero => rfl
    | succ n =>
      have hc : c.utf8Size = 1 := h c (List.mem_cons_self ..)
      have hrest := ih (fun d hd => h d (List.mem_cons_of_mem _ hd)) (Nat.le_of_succ_le_succ hn)
      rw [if_neg (Nat.succ_ne_zero n), hc, if_pos (Nat.succ_le_succ (Nat.zero_le n)),
        Nat.add_sub_cancel, hrest]
      rfl

/-- On single-byte characters a byte slice is a slice of characters. -/
theorem byte_slice_ascii {text : List Char} (h : IsAscii text) {start stop : Nat}
    (hstart : start ≤ stop) (hstop : stop ≤ text.length) :
    byte_slice text start stop = some ((text.drop start).take (stop - start)) := by
  have hdrop : IsAscii (text.drop start) := fun c hc => h c (List.mem_of_mem_drop hc)
  have hlength : stop - start ≤ (text.drop start).length := by
    rw [List.length_drop]
    omega
  unfold byte_slice
  rw [split_bytes_ascii h (le_trans hstart hstop), Option.bind_some, split_bytes_ascii hdrop hlength]
  rfl

/-- A slice is as many bytes long as it was asked to be. -/
theorem byte_len_of_split {n : Nat} {text : List Char} {split : List Char × List Char}
    (h : split_bytes n text = some split) :
    byte_len split.1 = n ∧ text = split.1 ++ split.2 := by
  induction text generalizing n split with
  | nil =>
    rw [split_bytes] at h
    split at h
    · rename_i hzero
      cases h
      exact ⟨hzero.symm, rfl⟩
    · cases h
  | cons c rest ih =>
    rw [split_bytes] at h
    split at h
    · rename_i hzero
      cases h
      exact ⟨hzero.symm, rfl⟩
    · split at h
      · rename_i hsize
        obtain ⟨tail, htail, rfl⟩ := Option.map_eq_some_iff.1 h
        obtain ⟨hlen, hrest⟩ := ih htail
        refine ⟨?_, ?_⟩
        · unfold byte_len at hlen ⊢
          rw [List.map_cons, List.sum_cons, hlen]
          omega
        · rw [List.cons_append, ← hrest]
      · cases h

/-- `str::is_char_boundary`. -/
def is_char_boundary (text : List Char) (n : Nat) : Bool := (split_bytes n text).isSome

/-- The end of a text is a boundary. -/
theorem is_char_boundary_byte_len (text : List Char) : is_char_boundary text (byte_len text) = true := by
  unfold is_char_boundary byte_len
  induction text with
  | nil => rfl
  | cons c rest ih =>
    have hc : 0 < c.utf8Size := Char.utf8Size_pos c
    rw [split_bytes, List.map_cons, List.sum_cons, if_neg (by omega), if_pos (by omega),
      Nat.add_sub_cancel_left, Option.isSome_map]
    exact ih

/-- Past a boundary of a text, its boundaries are those of the rest. -/
theorem is_char_boundary_rest {text : List Char} {n m : Nat} {split : List Char × List Char}
    (h : split_bytes n text = some split) (hle : n ≤ m) :
    is_char_boundary split.2 (m - n) = is_char_boundary text m := by
  unfold is_char_boundary
  induction text generalizing n m split with
  | nil =>
    rw [split_bytes] at h
    split at h
    · rename_i hzero
      cases h
      rw [hzero, Nat.sub_zero]
    · cases h
  | cons c rest ih =>
    rw [split_bytes] at h
    split at h
    · rename_i hzero
      cases h
      rw [hzero, Nat.sub_zero]
    · split at h
      · rename_i hzero hsize
        obtain ⟨tail, htail, rfl⟩ := Option.map_eq_some_iff.1 h
        -- the first character goes; both offsets shrink by its size
        have hrest := ih htail (show n - c.utf8Size ≤ m - c.utf8Size by omega)
        have hsub : m - c.utf8Size - (n - c.utf8Size) = m - n := by omega
        rw [hsub] at hrest
        rw [split_bytes, if_neg (by omega), if_pos (by omega), Option.isSome_map]
        exact hrest
      · cases h

/-- A slice cuts no character just when it begins and ends at a boundary. -/
theorem byte_slice_isSome {text : List Char} {start stop : Nat} (hle : start ≤ stop) :
    (byte_slice text start stop).isSome
      = (is_char_boundary text start && is_char_boundary text stop) := by
  unfold byte_slice
  cases hsplit : split_bytes start text with
  | none =>
    unfold is_char_boundary
    rw [hsplit]
    rfl
  | some split =>
    have hstart : is_char_boundary text start = true := by
      unfold is_char_boundary
      rw [hsplit]
      rfl
    rw [Option.bind_some, Option.isSome_map, hstart, Bool.true_and,
      ← is_char_boundary_rest hsplit hle]
    rfl

/-! ## Hex digits

Digits come in both cases; what is stored is lowered. The facts about the 22 digits are
checked one by one, and lifted to text.
-/

/-- `char::is_ascii_hexdigit`. -/
def is_ascii_hexdigit (c : Char) : Bool := (hex_digit c).isSome

/-- Text of hex digits only. -/
def IsHex (text : List Char) : Prop := ∀ c ∈ text, is_ascii_hexdigit c = true

/-- A hex digit is one of 22 characters. -/
theorem mem_of_is_ascii_hexdigit {c : Char} (h : is_ascii_hexdigit c = true) :
    c ∈ "0123456789abcdefABCDEF".toList := by
  -- a digit, or one of six letters of either case
  have hrange : ∃ lo hi : Nat, ((lo, hi) = (48, 57) ∨ (lo, hi) = (97, 102) ∨ (lo, hi) = (65, 70)) ∧
      lo ≤ c.toNat ∧ c.toNat ≤ hi := by
    unfold is_ascii_hexdigit hex_digit at h
    split at h
    · rename_i hc
      exact ⟨48, 57, Or.inl rfl, Char.le_def.1 hc.1, Char.le_def.1 hc.2⟩
    · split at h
      · rename_i hc
        exact ⟨97, 102, Or.inr (Or.inl rfl), Char.le_def.1 hc.1, Char.le_def.1 hc.2⟩
      · split at h
        · rename_i hc
          exact ⟨65, 70, Or.inr (Or.inr rfl), Char.le_def.1 hc.1, Char.le_def.1 hc.2⟩
        · cases h
  obtain ⟨lo, hi, hbounds, hlo, hhi⟩ := hrange
  rw [← Char.ofNat_toNat c]
  generalize c.toNat = n at hlo hhi
  rcases hbounds with hb | hb | hb
  · cases hb
    interval_cases n <;> decide
  · cases hb
    interval_cases n <;> decide
  · cases hb
    interval_cases n <;> decide

/-- What can be checked of the 22 characters holds of every hex digit. -/
theorem is_ascii_hexdigit_ind {P : Char → Prop} (hall : ∀ c ∈ "0123456789abcdefABCDEF".toList, P c)
    {c : Char} (h : is_ascii_hexdigit c = true) : P c := hall c (mem_of_is_ascii_hexdigit h)

theorem IsHex.ascii {text : List Char} (h : IsHex text) : IsAscii text :=
  fun c hc => is_ascii_hexdigit_ind (P := fun c => c.utf8Size = 1) (by decide) (h c hc)

/-- Lower-casing changes the 26 capital letters and nothing else. -/
theorem toLower_eq_or_mem (c : Char) :
    c.toLower = c ∨ c ∈ "ABCDEFGHIJKLMNOPQRSTUVWXYZ".toList := by
  by_cases h : c.val ≥ 'A'.val ∧ c.val ≤ 'Z'.val
  · right
    have hlo : 65 ≤ c.toNat := h.1
    have hhi : c.toNat ≤ 90 := h.2
    rw [← Char.ofNat_toNat c]
    generalize c.toNat = n at hlo hhi
    interval_cases n <;> decide
  · left
    unfold Char.toLower
    rw [dif_neg h]

/-- Lower-casing keeps the size of a character, whether it is a hex digit, and
whether it is a zero; a lower-cased character stays. -/
theorem toLower_spec (c : Char) : is_ascii_hexdigit c.toLower = is_ascii_hexdigit c ∧
    c.toLower.utf8Size = c.utf8Size ∧ (c.toLower = '0' → c = '0') ∧
    c.toLower.toLower = c.toLower := by
  rcases toLower_eq_or_mem c with h | h
  · rw [h, h]
    exact ⟨rfl, rfl, id, rfl⟩
  · have hall : ∀ c ∈ "ABCDEFGHIJKLMNOPQRSTUVWXYZ".toList,
        is_ascii_hexdigit c.toLower = is_ascii_hexdigit c ∧
          c.toLower.utf8Size = c.utf8Size ∧ (c.toLower = '0' → c = '0') ∧
          c.toLower.toLower = c.toLower := by decide
    exact hall c h

/-- Lower-casing twice is lower-casing once. -/
theorem to_ascii_lowercase_idem (value : String) :
    to_ascii_lowercase (to_ascii_lowercase value) = to_ascii_lowercase value := by
  unfold to_ascii_lowercase
  rw [String.toList_ofList, List.map_map]
  exact congrArg String.ofList (List.map_congr_left fun c _ => (toLower_spec c).2.2.2)

theorem byte_len_map_toLower (text : List Char) : byte_len (text.map Char.toLower) = byte_len text := by
  unfold byte_len
  rw [List.map_map]
  exact congrArg List.sum (List.map_congr_left fun c _ => (toLower_spec c).2.1)

theorem isHex_map_toLower {text : List Char} : IsHex (text.map Char.toLower) ↔ IsHex text := by
  unfold IsHex
  rw [List.forall_mem_map]
  exact forall₂_congr fun c _ => by rw [(toLower_spec c).1]

/-! ## Hex numbers

A number is spelled most significant digit first. Writing it with a fixed width and reading
it back is the identity below the power of 16 that the width can hold.
-/

theorem hex_value_append (digits : List Char) (c : Char) :
    hex_value (digits ++ [c])
      = (hex_value digits).bind fun n => (hex_digit c).map fun d => 16 * n + d := by
  unfold hex_value
  rw [List.foldl_append, List.foldl_cons, List.foldl_nil]

/-- Whatever spells a number, spells one of as many hex digits. -/
theorem hex_value_lt {digits : List Char} {n : Nat} (h : hex_value digits = some n) :
    n < 16 ^ digits.length := by
  induction digits using List.reverseRecOn generalizing n with
  | nil =>
    cases h
    exact Nat.one_pos
  | append_singleton digits c ih =>
    rw [hex_value_append, Option.bind_eq_some_iff] at h
    obtain ⟨m, hm, h⟩ := h
    obtain ⟨d, hd, rfl⟩ := Option.map_eq_some_iff.1 h
    have hlt := ih hm
    have hc : is_ascii_hexdigit c = true := Option.isSome_iff_exists.2 ⟨d, hd⟩
    have hd_lt : d < 16 :=
      is_ascii_hexdigit_ind (P := fun c => ∀ d ∈ hex_digit c, d < 16) (by decide) hc d hd
    rw [List.length_append, List.length_singleton, pow_succ]
    omega

/-- Hex digits spell a number. -/
theorem hex_value_of_isHex {digits : List Char} (h : IsHex digits) :
    ∃ n, hex_value digits = some n := by
  induction digits using List.reverseRecOn with
  | nil => exact ⟨0, rfl⟩
  | append_singleton digits c ih =>
    obtain ⟨n, hn⟩ := ih fun d hd => h d (List.mem_append_left _ hd)
    obtain ⟨d, hd⟩ := Option.isSome_iff_exists.1 (h c (by simp))
    refine ⟨16 * n + d, ?_⟩
    rw [hex_value_append, hn, Option.bind_some, hd, Option.map_some]

/-- The number hex digits spell. -/
def hex_number (digits : List Char) : Nat := (hex_value digits).getD 0

theorem hex_value_eq_hex_number {digits : List Char} (h : IsHex digits) :
    hex_value digits = some (hex_number digits) := by
  obtain ⟨n, hn⟩ := hex_value_of_isHex h
  unfold hex_number
  rw [hn, Option.getD_some]

/-- A number in `width` hex digits, as `format!("{:0width$x}")` writes it. -/
def hex_text : Nat → Nat → List Char
  | 0, _ => []
  | width + 1, n => hex_text width (n / 16) ++ [Nat.digitChar (n % 16)]

@[simp] theorem length_hex_text (width n : Nat) : (hex_text width n).length = width := by
  induction width generalizing n with
  | zero => rfl
  | succ width ih => rw [hex_text, List.length_append, ih, List.length_singleton]

theorem hex_digit_digitChar {d : Nat} (h : d < 16) : hex_digit (Nat.digitChar d) = some d := by
  interval_cases d <;> decide

theorem isHex_hex_text (width n : Nat) : IsHex (hex_text width n) := by
  induction width generalizing n with
  | zero => exact fun c hc => absurd hc List.not_mem_nil
  | succ width ih =>
    intro c hc
    rw [hex_text, List.mem_append, List.mem_singleton] at hc
    rcases hc with hc | rfl
    · exact ih _ c hc
    · unfold is_ascii_hexdigit
      rw [hex_digit_digitChar (Nat.mod_lt _ (by decide))]
      rfl

/-- A number that fits in the digits is read back from them. -/
theorem hex_number_hex_text {width n : Nat} (h : n < 16 ^ width) :
    hex_number (hex_text width n) = n := by
  have hvalue : hex_value (hex_text width n) = some n := by
    induction width generalizing n with
    | zero =>
      have hzero : n = 0 := Nat.lt_one_iff.1 h
      rw [hzero]
      rfl
    | succ width ih =>
      have hhigh : n / 16 < 16 ^ width := by
        rw [pow_succ] at h
        exact Nat.div_lt_of_lt_mul (by omega)
      rw [hex_text, hex_value_append, ih hhigh, Option.bind_some,
        hex_digit_digitChar (Nat.mod_lt _ (by decide)), Option.map_some, Nat.div_add_mod]
  unfold hex_number
  rw [hvalue, Option.getD_some]

end EvmIndexer
