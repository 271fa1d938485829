/-
A library of machine programs: what a checked language does between two steps of its own.

A program returns a value, raises an error or panics. It panics where it slices in the
middle of a character, where a sum passes its width, where an index or an `expect` is
wrong. On the way it counts the steps it says it takes (`step`), so that a loop is also a
number of turns.

`Ends p n Q` says that the program does not panic from the count `n`, and that `Q` holds of
its value or error and of the count it leaves. The rules take a program apart at each bind.
-/
import EvmIndexer.Lib.Program

set_option autoImplicit false

namespace Machine

open Program

/-- Why a program panics. -/
inductive Panic
  | Overflow
  | Slice
  | Index
  | Expect
  | Unreachable
  deriving DecidableEq, Repr

/-- Why a program stops without a value. -/
inductive Stop (ε : Type)
  | panic (reason : Panic)
  | error (e : ε)
  deriving DecidableEq, Repr

/-- A program that counts its steps. -/
abbrev Counted (ε α : Type) : Type := EStateM (Stop ε) Nat α

variable {ε α β : Type}

/-- One step. -/
def step : Counted ε Unit := fun n => .ok () (n + 1)

/-- Several steps. -/
def steps (k : Nat) : Counted ε Unit := fun n => .ok () (n + k)

/-- A computation that cannot panic. -/
def lift (answer : Except ε α) : Counted ε α := ask (answer.mapError .error)

/-- The program panics unless the condition holds. -/
def assert (reason : Panic) (c : Bool) : Counted ε Unit :=
  if c then pure () else throw (.panic reason)

/-- A value that is there, or a panic. -/
def expect (reason : Panic) : Option α → Counted ε α
  | some a => pure a
  | none => throw (.panic reason)

/-- The number is one of the width, whose largest is `top`. -/
def fits (top : Nat) (n : Int) : Counted ε Unit := assert .Overflow (0 ≤ n ∧ n ≤ top)

/-- What holds of the rest after a value, or of the error. -/
def After (answer : Except ε α) (ok : α → Prop) (error : ε → Prop) : Prop :=
  match answer with
  | .ok a => ok a
  | .error e => error e

@[simp] theorem after_ok {a : α} {ok : α → Prop} {error : ε → Prop} :
    After (.ok a) ok error ↔ ok a := Iff.rfl

@[simp] theorem after_error {e : ε} {ok : α → Prop} {error : ε → Prop} :
    After (.error e) ok error ↔ error e := Iff.rfl

/-- The value or the error of a program that does not panic, and the count it leaves. -/
def Ends (p : Counted ε α) (n : Nat) (Q : Except ε α → Nat → Prop) : Prop :=
  match p n with
  | .ok a m => Q (.ok a) m
  | .error (.error e) m => Q (.error e) m
  | .error (.panic _) _ => False

theorem step_steps_bind (k : Nat) (p : Counted ε α) :
    (step >>= fun _ => steps k >>= fun _ => p) = steps (k + 1) >>= fun _ => p := by
  funext n
  show p (n + 1 + k) = p (n + (k + 1))
  rw [Nat.add_assoc, Nat.add_comm 1 k]

theorem steps_steps_bind (j k : Nat) (p : Counted ε α) :
    (steps j >>= fun _ => steps k >>= fun _ => p) = steps (j + k) >>= fun _ => p := by
  funext n
  show p (n + j + k) = p (n + (j + k))
  rw [Nat.add_assoc]

theorem lift_bind (answer : Except ε α) (f : α → Except ε β) :
    (lift (answer >>= f) : Counted ε β) = lift answer >>= fun a => lift (f a) := by
  cases answer <;> rfl

theorem lift_ok (a : α) : (lift (.ok a) : Counted ε α) = pure a := rfl

/-- Expecting a value is taking an answer it has, behind a check that it is there. -/
theorem expect_eq (reason : Panic) {a : Option α} {answer : Except ε α}
    (h : ∀ b, a = some b → answer = .ok b) :
    expect reason a = assert reason a.isSome >>= fun _ => lift answer := by
  cases a with
  | none => rfl
  | some b =>
    rw [h b rfl]
    rfl

theorem assert_true_bind (reason : Panic) (f : Unit → Counted ε α) :
    (assert reason true >>= f) = f () := rfl

/-- A number that fits is no check. -/
theorem fits_bind {top : Nat} {k : Int} (h : 0 ≤ k ∧ k ≤ top) (f : Unit → Counted ε α) :
    (fits top k >>= f) = f () := by
  unfold fits
  rw [decide_eq_true h, assert_true_bind]

/-- The panic a program ended with. -/
def panicked : EStateM.Result (Stop ε) Nat α → Option Panic
  | .ok _ _ => none
  | .error (.error _) _ => none
  | .error (.panic reason) _ => some reason

theorem Ends.not_panicked {p : Counted ε α} {n : Nat} {Q : Except ε α → Nat → Prop}
    (h : Ends p n Q) : panicked (p n) = none := by
  unfold Ends at h
  unfold panicked
  cases hp : p n with
  | ok a m => rfl
  | error e m =>
    rw [hp] at h
    cases e with
    | error e => rfl
    | panic reason => exact h.elim

section Rules

variable {n : Nat} {Q R : Except ε α → Nat → Prop}

theorem Ends.mono {p : Counted ε α} (h : Ends p n Q) (hmono : ∀ r m, Q r m → R r m) :
    Ends p n R := by
  unfold Ends at *
  split
  · rename_i a m hp
    rw [hp] at h
    exact hmono _ _ h
  · rename_i e m hp
    rw [hp] at h
    exact hmono _ _ h
  · rename_i reason m hp
    rw [hp] at h
    exact h

theorem ends_pure {a : α} : Ends (pure a) n Q ↔ Q (.ok a) n := Iff.rfl

theorem ends_lift {answer : Except ε α} : Ends (lift answer) n Q ↔ Q answer n := by
  cases answer <;> exact Iff.rfl

/-- A sequence ends as its first part does on an error, and else as the rest does. -/
theorem ends_bind {p : Counted ε α} {f : α → Counted ε β} {S : Except ε β → Nat → Prop} :
    Ends (p >>= f) n S ↔
      Ends p n fun r m => After r (fun a => Ends (f a) m S) fun e => S (.error e) m := by
  unfold Ends
  rw [bind_run]
  cases p n with
  | ok a m => exact Iff.rfl
  | error e m => cases e <;> exact Iff.rfl

/-- A function of the value is a function of what the program ends with. -/
theorem ends_map {p : Counted ε α} {g : α → β} {S : Except ε β → Nat → Prop} :
    Ends (p >>= fun a => pure (g a)) n S ↔ Ends p n fun r m => S (r.map g) m := by
  rw [ends_bind]
  unfold Ends
  cases p n with
  | ok a m => exact Iff.rfl
  | error e m => cases e <;> exact Iff.rfl

theorem ends_step_bind {f : Unit → Counted ε α} :
    Ends (step >>= f) n Q ↔ Ends (f ()) (n + 1) Q := Iff.rfl

theorem ends_steps_bind {k : Nat} {f : Unit → Counted ε α} :
    Ends (steps k >>= f) n Q ↔ Ends (f ()) (n + k) Q := Iff.rfl

theorem ends_lift_bind {answer : Except ε α} {f : α → Counted ε β} {S : Except ε β → Nat → Prop} :
    Ends (lift answer >>= f) n S ↔
      After answer (fun a => Ends (f a) n S) fun e => S (.error e) n := by
  cases answer <;> exact Iff.rfl

theorem ends_assert_bind {reason : Panic} {c : Bool} {f : Unit → Counted ε α} :
    Ends (assert reason c >>= f) n Q ↔ c = true ∧ Ends (f ()) n Q := by
  cases c with
  | true => exact (and_iff_right rfl).symm
  | false => exact ⟨False.elim, fun h => absurd h.1 Bool.false_ne_true⟩

theorem ends_fits_bind {top : Nat} {k : Int} {f : Unit → Counted ε α} :
    Ends (fits top k >>= f) n Q ↔ (0 ≤ k ∧ k ≤ top) ∧ Ends (f ()) n Q := by
  unfold fits
  rw [ends_assert_bind, decide_eq_true_iff]

end Rules

end Machine
