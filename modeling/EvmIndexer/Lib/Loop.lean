/-
A library of loops without a counter.

A turn of such a loop goes on in another state or is the last one. The turns are numbered, so
that what a turn reads from outside (a clock, a server) may be another each time. `run` takes
at most `fuel` turns. A loop whose turns lower a measure returns (`returns`), and returns the
same however much more fuel it is given (`run_mono`); what holds where the loop starts and in
every turn that goes on, it holds in its last turn (`run_spec`).
-/
import Mathlib.Data.List.Basic

set_option autoImplicit false

namespace Loop

/-- What a turn does. -/
inductive Turn (σ ρ : Type)
  | next (s : σ)
  | done (r : ρ)

variable {σ ρ : Type}

/-- The loop from turn `i` on. -/
def run (turn : Nat → σ → Turn σ ρ) : (fuel i : Nat) → σ → Option ρ
  | 0, _, _ => none
  | fuel + 1, i, s =>
    match turn i s with
    | .next t => run turn fuel (i + 1) t
    | .done r => some r

variable {turn : Nat → σ → Turn σ ρ} {I : Nat → σ → Prop}

/-- More fuel changes nothing. -/
theorem run_mono {fuel fuel' i : Nat} {s : σ} {r : ρ} (h : run turn fuel i s = some r)
    (hle : fuel ≤ fuel') : run turn fuel' i s = some r := by
  induction fuel generalizing fuel' i s with
  | zero => cases h
  | succ fuel ih =>
    obtain ⟨more, rfl⟩ : ∃ more, fuel' = more + 1 := ⟨fuel' - 1, by omega⟩
    unfold run at h ⊢
    cases hturn : turn i s with
    | next t =>
      rw [hturn] at h
      exact ih h (by omega)
    | done result =>
      rw [hturn] at h
      exact h

/-- A loop whose turns lower a measure returns before the measure is used up. -/
theorem returns (measure : σ → Nat)
    (hturn : ∀ i s t, I i s → turn i s = .next t → I (i + 1) t ∧ measure t < measure s) {i : Nat}
    {s : σ} (hs : I i s) : ∃ r, run turn (measure s + 1) i s = some r := by
  have hfuel : ∀ (fuel i : Nat) (s : σ), I i s → measure s < fuel →
      ∃ r, run turn fuel i s = some r := by
    intro fuel
    induction fuel with
    | zero =>
      intro i s _ hlt
      exact absurd hlt (Nat.not_lt_zero _)
    | succ fuel ih =>
      intro i s hs hlt
      unfold run
      cases hnext : turn i s with
      | next t =>
        obtain ⟨ht, hlower⟩ := hturn i s t hs hnext
        exact ih (i + 1) t ht (by omega)
      | done r => exact ⟨r, rfl⟩
  exact hfuel _ i s hs (Nat.lt_succ_self _)

/-- What a loop returns, its last turn returned. -/
theorem run_spec (hturn : ∀ i s t, I i s → turn i s = .next t → I (i + 1) t) {fuel i : Nat} {s : σ}
    {r : ρ} (h : run turn fuel i s = some r) (hs : I i s) : ∃ j t, I j t ∧ turn j t = .done r := by
  induction fuel generalizing i s with
  | zero => cases h
  | succ fuel ih =>
    unfold run at h
    cases hnext : turn i s with
    | next t =>
      rw [hnext] at h
      exact ih h (hturn i s t hs hnext)
    | done result =>
      rw [hnext] at h
      cases h
      exact ⟨i, s, hs, hnext⟩

end Loop
