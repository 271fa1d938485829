/-
A library of runs of a labelled transition system.

A system is a step relation `σ → α → σ → Prop`. `Run step s l t` says that the
labels `l`, taken in order, lead from `s` to `t`; `Reachable step init` are the
states some run from an initial state ends in. A statement of the form "in every run
whose steps all meet a condition" is about the runs of `Guarded step ok`, the system
that only takes the steps meeting `ok`, and every such run is a run of the system
itself (`Run.of_guarded`).

The induction over a run is done here once: `Run.invariant` asks for what one
step preserves and gives what a whole run preserves.
-/
import Mathlib.Data.List.Basic
import Mathlib.Logic.Function.Basic

set_option autoImplicit false

namespace Transition

variable {σ α : Type}

/-- The labels of a run, in the order they were taken, from its first state to
its last. -/
inductive Run (step : σ → α → σ → Prop) (s : σ) : List α → σ → Prop
  | nil : Run step s [] s
  | snoc {l : List α} {t u : σ} {a : α} : Run step s l t → step t a u → Run step s (l ++ [a]) u

/-- The step relation restricted to the steps that meet a condition. -/
def Guarded (step : σ → α → σ → Prop) (ok : σ → α → Prop) : σ → α → σ → Prop :=
  fun s a t => step s a t ∧ ok s a

/-- The states that runs from an initial state end in. -/
def Reachable (step : σ → α → σ → Prop) (init : σ → Prop) (t : σ) : Prop :=
  ∃ s l, init s ∧ Run step s l t

variable {step : σ → α → σ → Prop}

/-- What every step preserves, every run preserves. -/
theorem Run.invariant {I : σ → Prop} (hstep : ∀ s a t, I s → step s a t → I t)
    {s t : σ} {l : List α} (h : Run step s l t) (hs : I s) : I t := by
  induction h with
  | nil => exact hs
  | snoc _ ha ih => exact hstep _ _ _ ih ha

/-- What the initial states have and every step preserves, every reachable state
has. -/
theorem Reachable.invariant {init I : σ → Prop} (hinit : ∀ s, init s → I s)
    (hstep : ∀ s a t, I s → step s a t → I t) {t : σ} (h : Reachable step init t) : I t := by
  obtain ⟨s, l, hs, hl⟩ := h
  exact hl.invariant hstep (hinit s hs)

theorem Run.append {s t u : σ} {l m : List α} (h : Run step s l t) (k : Run step t m u) :
    Run step s (l ++ m) u := by
  induction k with
  | nil => rwa [List.append_nil]
  | snoc _ ha ih =>
    rw [← List.append_assoc]
    exact Run.snoc ih ha

theorem Run.cons {s t u : σ} {a : α} {l : List α} (ha : step s a t) (h : Run step t l u) :
    Run step s (a :: l) u := (Run.snoc Run.nil ha).append h

/-- A step from a reachable state reaches the next. -/
theorem Reachable.snoc {init : σ → Prop} {t u : σ} {a : α} (h : Reachable step init t)
    (ha : step t a u) : Reachable step init u := by
  obtain ⟨s, l, hs, hl⟩ := h
  exact ⟨s, l ++ [a], hs, hl.snoc ha⟩

/-- Executing the labels one after the other, each checked first. -/
def Allowed (exec : σ → α → σ) (ok : σ → α → Bool) : σ → List α → Bool
  | _, [] => true
  | s, a :: l => ok s a && Allowed exec ok (exec s a) l

/-- An execution that passes its checks is a run. -/
theorem Run.of_allowed {exec : σ → α → σ} {ok : σ → α → Bool}
    (hok : ∀ s a, ok s a = true → step s a (exec s a)) {s : σ} {l : List α}
    (h : Allowed exec ok s l = true) : Run step s l (l.foldl exec s) := by
  induction l generalizing s with
  | nil => exact Run.nil
  | cons a l ih =>
    rw [Allowed, Bool.and_eq_true] at h
    exact Run.cons (hok s a h.1) (ih h.2)

/-- A run is a run of every system that takes its steps. -/
theorem Run.mono {step' : σ → α → σ → Prop} (hstep : ∀ s a t, step s a t → step' s a t) {s t : σ}
    {l : List α} (h : Run step s l t) : Run step' s l t := by
  induction h with
  | nil => exact Run.nil
  | snoc _ ha ih => exact Run.snoc ih (hstep _ _ _ ha)

/-- A run is, under a map of the states, a run of every system that takes its steps so. -/
theorem Run.map {τ : Type} {step' : τ → α → τ → Prop} (f : σ → τ)
    (hstep : ∀ s a t, step s a t → step' (f s) a (f t)) {s t : σ} {l : List α}
    (h : Run step s l t) : Run step' (f s) l (f t) := by
  induction h with
  | nil => exact Run.nil
  | snoc _ ha ih => exact Run.snoc ih (hstep _ _ _ ha)

/-- A run through states that keep an invariant is a run of every system that takes its steps
from such states. -/
theorem Run.mono_of_invariant {step' : σ → α → σ → Prop} {I : σ → Prop}
    (hI : ∀ s a t, I s → step s a t → I t)
    (hstep : ∀ s a t, I s → step s a t → step' s a t) {s t : σ} {l : List α}
    (h : Run step s l t) (hs : I s) : Run step' s l t := by
  induction h with
  | nil => exact Run.nil
  | snoc hl ha ih => exact Run.snoc ih (hstep _ _ _ (hl.invariant hI hs) ha)

/-- A run of the guarded system is a run of the system. -/
theorem Run.of_guarded {ok : σ → α → Prop} {s t : σ} {l : List α}
    (h : Run (Guarded step ok) s l t) : Run step s l t := h.mono fun _ _ _ ha => ha.1

/-- A run whose labels all meet a condition is a run of the guarded system. -/
theorem Run.guarded {ok : α → Prop} {s t : σ} {l : List α} (h : Run step s l t)
    (hl : ∀ a ∈ l, ok a) : Run (Guarded step fun _ a => ok a) s l t := by
  induction h with
  | nil => exact Run.nil
  | snoc _ ha ih =>
    rw [List.forall_mem_append] at hl
    exact Run.snoc (ih hl.1) ⟨ha, hl.2 _ (List.mem_singleton.2 rfl)⟩

/-- A slot that holds something after it or another was set. -/
theorem update_eq_some {ι β : Type} [DecidableEq ι] {slots : ι → Option β} {slot i : ι}
    {x : Option β} {b : β} (h : Function.update slots slot x i = some b) :
    (i = slot ∧ x = some b) ∨ (i ≠ slot ∧ slots i = some b) := by
  by_cases hi : i = slot
  · subst hi
    rw [Function.update_self] at h
    exact Or.inl ⟨rfl, h⟩
  · rw [Function.update_of_ne hi] at h
    exact Or.inr ⟨hi, h⟩

/-! ## Loops that can fail

A loop that stops at its first error, with a condition on each turn that is looked at only as
far as the loop gets. Unlike a guard on the steps of a run, it can be computed where the
condition can.
-/

section Loops

variable {ε : Type} {f : σ → α → Except ε σ} {ok : σ → α → Prop}

/-- Each turn of a loop, up to the one that fails, starts where `ok` holds. -/
def EachTurn (f : σ → α → Except ε σ) (ok : σ → α → Prop) : σ → List α → Prop
  | _, [] => True
  | s, a :: l => ok s a ∧ ∀ t, f s a = .ok t → EachTurn f ok t l

/-- What every such turn preserves, the loop preserves. -/
theorem EachTurn.invariant {I : σ → Prop}
    (hturn : ∀ s a t, I s → ok s a → f s a = .ok t → I t) {s t : σ} {l : List α}
    (h : EachTurn f ok s l) (hs : I s) (hl : l.foldlM f s = .ok t) : I t := by
  induction l generalizing s with
  | nil =>
    rw [List.foldlM_nil] at hl
    cases hl
    exact hs
  | cons a l ih =>
    obtain ⟨ha, hrest⟩ := h
    rw [List.foldlM_cons] at hl
    cases hfirst : f s a with
    | error e =>
      rw [hfirst] at hl
      cases hl
    | ok mid =>
      rw [hfirst] at hl
      exact ih (hrest mid hfirst) (hturn s a mid hs ha hfirst) hl

instance decidableForallOk (r : Except ε σ) (p : σ → Prop) [DecidablePred p] :
    Decidable (∀ t, r = .ok t → p t) :=
  match r with
  | .ok t => decidable_of_iff (p t) ⟨fun h _ ht => Except.ok.inj ht ▸ h, fun h => h t rfl⟩
  | .error _ => isTrue fun _ ht => nomatch ht

def EachTurn.decidable [∀ s a, Decidable (ok s a)] : ∀ s l, Decidable (EachTurn f ok s l)
  | _, [] => isTrue trivial
  | s, a :: l =>
    have := fun t => EachTurn.decidable t l
    inferInstanceAs (Decidable (ok s a ∧ ∀ t, f s a = .ok t → EachTurn f ok t l))

instance [∀ s a, Decidable (ok s a)] (s : σ) (l : List α) : Decidable (EachTurn f ok s l) :=
  EachTurn.decidable s l

end Loops

end Transition
