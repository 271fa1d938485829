/-
A library of programs that commit as they go.

A program is an `EStateM`: it returns a value or raises an error, and leaves a state
either way. It asks questions, which leave the state alone (`ask`), and runs
transactions, which change the state or are rolled back (`transaction`). What a
program has committed before it raises stays, so its outcome on an error is not
"nothing happened" but what the transactions before the error have left; the lemmas
below take a program apart at each bind, on the way to a value and on the way to an
error.

`Keeps` is what a program relates its first state to whatever it leaves: a relation
that every transaction respects, every program respects.
-/
import Mathlib.Data.List.Basic

set_option autoImplicit false

namespace Program

variable {ε σ α β : Type}

/-- A computation or a question to the outside: the state stays. -/
def ask (answer : Except ε α) : EStateM ε σ α := fun s =>
  match answer with
  | .ok a => .ok a s
  | .error e => .error e s

/-- A transaction: committed, or rolled back on its error. -/
def transaction (body : σ → Except ε (α × σ)) : EStateM ε σ α := fun s =>
  match body s with
  | .ok (a, t) => .ok a t
  | .error e => .error e s

/-- The state a program leaves, however it ends. -/
def left : EStateM.Result ε σ α → σ
  | .ok _ t => t
  | .error _ t => t

@[simp] theorem left_ok (a : α) (t : σ) : left (.ok a t : EStateM.Result ε σ α) = t := rfl

@[simp] theorem left_error (e : ε) (t : σ) : left (.error e t : EStateM.Result ε σ α) = t := rfl

/-- What a program returned and left, if it returned. -/
def returned : EStateM.Result ε σ α → Option (α × σ)
  | .ok a t => some (a, t)
  | .error _ _ => none

theorem returned_eq_some {r : EStateM.Result ε σ α} {result : α × σ} :
    returned r = some result ↔ r = .ok result.1 result.2 := by
  unfold returned
  cases r <;> simp [Prod.ext_iff]

/-- A sequence runs its first part, and the rest on what this left. -/
theorem bind_run (p : EStateM ε σ α) (f : α → EStateM ε σ β) (s : σ) :
    (p >>= f) s = match p s with
      | .ok a m => f a m
      | .error e m => .error e m := rfl

/-- A program that reads the state first runs the rest on what it read. -/
@[simp] theorem left_get_bind (f : σ → EStateM ε σ α) (s : σ) :
    left ((get >>= f : EStateM ε σ α) s) = left (f s s) := rfl

/-- A program that has its answer runs the rest on it. -/
@[simp] theorem ask_ok_bind (a : α) (f : α → EStateM ε σ β) : (ask (.ok a) >>= f) = f a := rfl

/-! ## How a program ends

Each operation has two lemmas, for returning and for raising, in the form of an equivalence,
so that `simp` takes a run apart from its end to its beginning.
-/

@[simp] theorem ask_eq_ok {answer : Except ε α} {s t : σ} {a : α} :
    ask answer s = .ok a t ↔ answer = .ok a ∧ s = t := by
  unfold ask
  cases answer <;> simp

@[simp] theorem ask_eq_error {answer : Except ε α} {s t : σ} {e : ε} :
    ask answer s = .error e t ↔ answer = .error e ∧ s = t := by
  unfold ask
  cases answer <;> simp

@[simp] theorem transaction_eq_ok {body : σ → Except ε (α × σ)} {s t : σ} {a : α} :
    transaction body s = .ok a t ↔ body s = .ok (a, t) := by
  unfold transaction
  cases body s <;> simp [Prod.ext_iff]

@[simp] theorem transaction_eq_error {body : σ → Except ε (α × σ)} {s t : σ} {e : ε} :
    transaction body s = .error e t ↔ body s = .error e ∧ s = t := by
  unfold transaction
  cases body s <;> simp

@[simp] theorem get_eq_ok {s t a : σ} : (get : EStateM ε σ σ) s = .ok a t ↔ a = s ∧ t = s := by
  constructor
  · intro h
    cases h
    exact ⟨rfl, rfl⟩
  · rintro ⟨rfl, rfl⟩
    rfl

@[simp] theorem pure_eq_ok {s t : σ} {a b : α} :
    (pure a : EStateM ε σ α) s = .ok b t ↔ a = b ∧ s = t := by
  constructor
  · intro h
    cases h
    exact ⟨rfl, rfl⟩
  · rintro ⟨rfl, rfl⟩
    rfl

/-- A sequence returns when both parts do. -/
@[simp] theorem bind_eq_ok {p : EStateM ε σ α} {f : α → EStateM ε σ β} {s t : σ} {b : β} :
    (p >>= f) s = .ok b t ↔ ∃ a m, p s = .ok a m ∧ f a m = .ok b t := by
  rw [bind_run]
  cases p s <;> simp

/-- A sequence raises when its first part does, or the rest on what the first left. -/
@[simp] theorem bind_eq_error {p : EStateM ε σ α} {f : α → EStateM ε σ β} {s t : σ} {e : ε} :
    (p >>= f) s = .error e t ↔ p s = .error e t ∨ ∃ a m, p s = .ok a m ∧ f a m = .error e t := by
  rw [bind_run]
  cases p s <;> simp

/-! ## Programs of transactions only

A program that does nothing outside of transactions could itself be one. Read as one, it
loses on an error what its first transactions committed; the difference is what `Keeps` and
`Wp` are about.
-/

/-- How a program ends, read as one transaction: what it left is lost on an error. -/
def toExcept : EStateM.Result ε σ α → Except ε (α × σ)
  | .ok a t => .ok (a, t)
  | .error e _ => .error e

theorem toExcept_transaction (body : σ → Except ε (α × σ)) (s : σ) :
    toExcept (transaction body s) = body s := by
  unfold transaction
  cases body s <;> rfl

theorem toExcept_bind (p : EStateM ε σ α) (f : α → EStateM ε σ β) (s : σ) :
    toExcept ((p >>= f) s) = toExcept (p s) >>= fun r => toExcept (f r.1 r.2) := by
  rw [bind_run]
  cases p s <;> rfl

/-! ## What a program keeps

A relation that is reflexive and transitive and that every transaction respects relates the
first state of the program to whatever it leaves. Nothing needs to be known of the questions
in between.
-/

/-- Whatever the program leaves is related to the state it began with. -/
def Keeps (R : σ → σ → Prop) (p : EStateM ε σ α) : Prop := ∀ s, R s (left (p s))

variable {R : σ → σ → Prop}

theorem Keeps.pure (hrefl : ∀ s, R s s) (a : α) : Keeps R (pure a : EStateM ε σ α) := hrefl

theorem Keeps.get (hrefl : ∀ s, R s s) : Keeps R (get : EStateM ε σ σ) := hrefl

theorem Keeps.transaction (hrefl : ∀ s, R s s) {body : σ → Except ε (α × σ)}
    (hbody : ∀ s a t, body s = .ok (a, t) → R s t) : Keeps R (transaction body) := by
  intro s
  unfold Program.transaction
  cases h : body s with
  | ok result => exact hbody s result.1 result.2 h
  | error e => exact hrefl s

theorem Keeps.bind (htrans : ∀ {s t u}, R s t → R t u → R s u) {p : EStateM ε σ α}
    {f : α → EStateM ε σ β} (hp : Keeps R p) (hf : ∀ a, Keeps R (f a)) : Keeps R (p >>= f) := by
  intro s
  have hfirst := hp s
  rw [bind_run]
  cases hps : p s with
  | ok a m =>
    rw [hps] at hfirst
    exact htrans hfirst (hf a m)
  | error e m =>
    rw [hps] at hfirst
    exact hfirst

/-- After an answer, only the rest runs, and it may rely on the answer. -/
theorem Keeps.ask_bind (hrefl : ∀ s, R s s) {answer : Except ε α} {f : α → EStateM ε σ β}
    (hf : ∀ a, answer = .ok a → Keeps R (f a)) : Keeps R (Program.ask answer >>= f) := by
  cases answer with
  | ok a => exact hf a rfl
  | error e => exact hrefl

/-- A loop keeps what each of its turns keeps. -/
theorem Keeps.foldlM (hrefl : ∀ s, R s s) (htrans : ∀ {s t u}, R s t → R t u → R s u)
    {f : β → α → EStateM ε σ β} {l : List α} (hf : ∀ b, ∀ a ∈ l, Keeps R (f b a)) (b : β) :
    Keeps R (l.foldlM f b) := by
  induction l generalizing b with
  | nil =>
    rw [List.foldlM_nil]
    exact Keeps.pure hrefl b
  | cons a rest ih =>
    rw [List.foldlM_cons]
    exact Keeps.bind (R := R) htrans (hf b a (List.mem_cons_self ..))
      (ih fun b' a' ha' => hf b' a' (List.mem_cons_of_mem _ ha'))

/-! ## What holds however a program ends

A precondition for two postconditions, one for the value and one for the error. The rules go
forward through a program, and a question that fails goes to the second one at once.
-/

/-- From the state, the program returns so that `Q` holds, or raises so that `E` holds of what
it has committed. -/
def Wp (p : EStateM ε σ α) (Q : α → σ → Prop) (E : ε → σ → Prop) (s : σ) : Prop :=
  match p s with
  | .ok a t => Q a t
  | .error e t => E e t

variable {Q : α → σ → Prop} {E : ε → σ → Prop} {s : σ}

theorem Wp.intro {p : EStateM ε σ α} (hok : ∀ a t, p s = .ok a t → Q a t)
    (herror : ∀ e t, p s = .error e t → E e t) : Wp p Q E s := by
  unfold Wp
  cases h : p s with
  | ok a t => exact hok a t h
  | error e t => exact herror e t h

theorem Wp.of_ok {p : EStateM ε σ α} (h : Wp p Q E s) {a : α} {t : σ} (hp : p s = .ok a t) :
    Q a t := by
  unfold Wp at h
  rwa [hp] at h

theorem Wp.of_error {p : EStateM ε σ α} (h : Wp p Q E s) {e : ε} {t : σ} (hp : p s = .error e t) :
    E e t := by
  unfold Wp at h
  rwa [hp] at h

/-- What holds at the ends may be weakened. -/
theorem Wp.mono {p : EStateM ε σ α} {Q' : α → σ → Prop} {E' : ε → σ → Prop} (h : Wp p Q E s)
    (hQ : ∀ a t, Q a t → Q' a t) (hE : ∀ e t, E e t → E' e t) : Wp p Q' E' s :=
  Wp.intro (fun a t hp => hQ a t (h.of_ok hp)) fun e t hp => hE e t (h.of_error hp)

theorem Wp.pure {a : α} (h : Q a s) : Wp (pure a) Q E s := h

theorem Wp.get_bind {f : σ → EStateM ε σ β} {Q : β → σ → Prop} (h : Wp (f s) Q E s) :
    Wp (get >>= f) Q E s := h

/-- A sequence: the rest runs on what the first part has left, whose error is the error. -/
theorem Wp.bind {p : EStateM ε σ α} {f : α → EStateM ε σ β} {Q : β → σ → Prop}
    (h : Wp p (fun a t => Wp (f a) Q E t) E s) : Wp (p >>= f) Q E s := by
  unfold Wp at h ⊢
  rw [bind_run]
  cases hp : p s with
  | ok a t =>
    rw [hp] at h
    exact h
  | error e t =>
    rw [hp] at h
    exact h

/-- An answer is relied on, or is the error. -/
theorem Wp.ask {answer : Except ε α} (hok : ∀ a, answer = .ok a → Q a s)
    (herror : ∀ e, answer = .error e → E e s) : Wp (Program.ask answer) Q E s := by
  cases answer with
  | ok a => exact hok a rfl
  | error e => exact herror e rfl

/-- A transaction has committed, or all is as it was. -/
theorem Wp.transaction {body : σ → Except ε (α × σ)} (hok : ∀ a t, body s = .ok (a, t) → Q a t)
    (herror : ∀ e, body s = .error e → E e s) : Wp (Program.transaction body) Q E s :=
  Wp.intro (fun a t h => hok a t (transaction_eq_ok.1 h)) fun e t h => by
    obtain ⟨hbody, rfl⟩ := transaction_eq_error.1 h
    exact herror e hbody

end Program
