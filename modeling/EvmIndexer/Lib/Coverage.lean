/-
A library of inclusive integer ranges and how far they reach.

A list of ranges covers a block when some range contains it. `sweep` takes the
ranges from first to last and moves a frontier to the end of each range that
begins at or before the block after it. Over ranges sorted by their beginnings
this reaches exactly as far as the ranges cover without a gap: everything behind
the new frontier is covered (`covers_of_le_sweep`) and the block after it is not
(`not_covers_sweep_succ`), so no contiguous stretch goes further (`le_sweep_of`).
-/
import Mathlib.Data.List.Pairwise
import Mathlib.Data.Int.Order.Basic

set_option autoImplicit false

namespace Coverage

/-- An inclusive range of blocks. -/
abbrev Range : Type := ℤ × ℤ

/-- The range contains the block. -/
def Contains (r : Range) (b : ℤ) : Prop := r.1 ≤ b ∧ b ≤ r.2

instance (r : Range) (b : ℤ) : Decidable (Contains r b) := inferInstanceAs (Decidable (_ ∧ _))

/-- Some range contains the block. -/
def Covers (ranges : List Range) (b : ℤ) : Prop := ∃ r ∈ ranges, Contains r b

/-- The frontier after one range. -/
def extend (frontier : ℤ) (r : Range) : ℤ :=
  if r.1 ≤ frontier + 1 ∧ frontier < r.2 then r.2 else frontier

/-- The frontier after all ranges, taken in order. -/
def sweep (frontier : ℤ) (ranges : List Range) : ℤ := ranges.foldl extend frontier

theorem le_extend (frontier : ℤ) (r : Range) : frontier ≤ extend frontier r := by
  unfold extend
  split
  · omega
  · exact le_refl frontier

theorem le_sweep (frontier : ℤ) (ranges : List Range) : frontier ≤ sweep frontier ranges := by
  induction ranges generalizing frontier with
  | nil => exact le_refl frontier
  | cons r rest ih => exact le_trans (le_extend frontier r) (ih (extend frontier r))

/-- What the sweep passes over is covered. -/
theorem covers_of_le_sweep {frontier : ℤ} {ranges : List Range} {b : ℤ} (hb : frontier < b)
    (hle : b ≤ sweep frontier ranges) : Covers ranges b := by
  induction ranges generalizing frontier with
  | nil => exact absurd hle (not_le.2 hb)
  | cons r rest ih =>
    by_cases hpast : extend frontier r < b
    · obtain ⟨s, hs, hsb⟩ := ih hpast hle
      exact ⟨s, List.mem_cons_of_mem _ hs, hsb⟩
    · refine ⟨r, List.mem_cons_self .., ?_⟩
      unfold extend at hpast
      unfold Contains
      split at hpast <;> omega

/-- Ranges that begin past the next block move nothing. -/
theorem sweep_eq_self {frontier : ℤ} {ranges : List Range}
    (h : ∀ r ∈ ranges, frontier + 1 < r.1) : sweep frontier ranges = frontier := by
  induction ranges with
  | nil => rfl
  | cons r rest ih =>
    have hr : extend frontier r = frontier := by
      unfold extend
      rw [if_neg]
      have hbegin := h r (List.mem_cons_self ..)
      omega
    have hrest := ih fun s hs => h s (List.mem_cons_of_mem _ hs)
    show sweep (extend frontier r) rest = frontier
    rw [hr, hrest]

/-- The ranges are sorted by their beginnings. -/
def Sorted (ranges : List Range) : Prop := ranges.Pairwise fun r s => r.1 ≤ s.1

/-- The block after the sweep of sorted ranges is not covered. -/
theorem not_covers_sweep_succ {frontier : ℤ} {ranges : List Range} (hsorted : Sorted ranges) :
    ¬ Covers ranges (sweep frontier ranges + 1) := by
  induction ranges generalizing frontier with
  | nil =>
    rintro ⟨r, hr, -⟩
    cases hr
  | cons r rest ih =>
    obtain ⟨hr, hrest⟩ := List.pairwise_cons.1 hsorted
    have hsweep : sweep frontier (r :: rest) = sweep (extend frontier r) rest := rfl
    rw [hsweep]
    rintro ⟨s, hs, hcontains⟩
    rcases List.mem_cons.1 hs with rfl | hs
    · -- `r` itself would have moved the frontier, unless it begins past it; then so do all others
      have hle := le_sweep (extend frontier s) rest
      unfold Contains at hcontains
      by_cases hbegin : s.1 ≤ frontier + 1
      · unfold extend at hle hcontains
        split at hle <;> rename_i hmove
        · rw [if_pos hmove] at hcontains
          omega
        · rw [if_neg hmove] at hcontains
          omega
      · have hstay : extend frontier s = frontier := by
          unfold extend
          rw [if_neg]
          omega
        have hnone : sweep frontier rest = frontier := by
          refine sweep_eq_self fun t ht => ?_
          have hst := hr t ht
          omega
        rw [hstay, hnone] at hcontains
        omega
    · exact ih hrest ⟨s, hs, hcontains⟩

/-- A stretch that is covered from the frontier on ends within the sweep. -/
theorem le_sweep_of {frontier : ℤ} {ranges : List Range} (hsorted : Sorted ranges) {t : ℤ}
    (h : ∀ b, frontier < b → b ≤ t → Covers ranges b) : t ≤ sweep frontier ranges := by
  by_contra hpast
  have hle := le_sweep frontier ranges
  exact not_covers_sweep_succ hsorted (h (sweep frontier ranges + 1) (by omega) (by omega))

/-- Every block past the frontier and up to `t` is covered. -/
def Reaches (frontier : ℤ) (ranges : List Range) (t : ℤ) : Prop :=
  ∀ b, frontier < b → b ≤ t → Covers ranges b

/-- Sorted ranges reach exactly as far as the sweep. -/
theorem reaches_iff_le_sweep {frontier : ℤ} {ranges : List Range} (hsorted : Sorted ranges) {t : ℤ} :
    Reaches frontier ranges t ↔ t ≤ sweep frontier ranges := by
  constructor
  · intro h
    exact le_sweep_of hsorted h
  · intro h b hb hbt
    exact covers_of_le_sweep hb (le_trans hbt h)

/-- Only the blocks past the frontier matter for how far ranges reach. -/
theorem reaches_congr {frontier : ℤ} {ranges ranges' : List Range}
    (h : ∀ b, frontier < b → (Covers ranges b ↔ Covers ranges' b)) (t : ℤ) :
    Reaches frontier ranges t ↔ Reaches frontier ranges' t :=
  forall_congr' fun b => forall_congr' fun hb => imp_congr_right fun _ => h b hb

end Coverage
