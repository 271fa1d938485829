/-
A library of double-entry bookkeeping.

A movement takes an amount out of one account and puts it into another; an
absent end is the outside world, so a movement with no `debited` account is a
mint and one with no `credited` account is a burn. What a list of movements does
to an account is its `net`, a sum, so it does not depend on their order
(`net_perm`).

Making movements, or taking them back, one at a time is where the order matters: a
balance that ends in range may leave it on the way. `AppliesWithin` and `UnwindsWithin`
say that it never does; `AppliesWithin.of_prefix` reads the one off the prefixes of the
list, `UnwindsWithin.of_suffix` the other off its suffixes.

A movement between two accounts adds nothing to them together, so over all accounts the nets
add up to what was minted less what was burned (`sum_net`). Where one and the same amount is
handed on from account to account (`Handed`), all of it ends with the last.
-/
import Mathlib.Algebra.BigOperators.Group.Finset.Piecewise
import Mathlib.Algebra.BigOperators.Group.List.Basic
import Mathlib.Algebra.Group.Int.Defs
import Mathlib.Algebra.Order.Group.Int
import Mathlib.Tactic.Ring

set_option autoImplicit false

namespace Bookkeeping

/-- A movement of `amount` between two accounts of type `A`. -/
structure Movement (A : Type) where
  debited : Option A
  credited : Option A
  amount : ℤ

variable {A : Type} [DecidableEq A]

/-- What a movement adds to account `a`. -/
def Movement.effect (m : Movement A) (a : A) : ℤ :=
  (if m.credited = some a then m.amount else 0) - (if m.debited = some a then m.amount else 0)

/-- What a list of movements adds to account `a`. -/
def net (ms : List (Movement A)) (a : A) : ℤ := (ms.map fun m => m.effect a).sum

@[simp] theorem net_nil (a : A) : net ([] : List (Movement A)) a = 0 := rfl

@[simp] theorem net_cons (m : Movement A) (ms : List (Movement A)) (a : A) :
    net (m :: ms) a = m.effect a + net ms a := by
  simp [net]

theorem net_append (ms ns : List (Movement A)) (a : A) :
    net (ms ++ ns) a = net ms a + net ns a := by
  simp [net]

/-- The net does not depend on the order of the movements. -/
theorem net_perm {ms ns : List (Movement A)} (h : ms.Perm ns) (a : A) : net ms a = net ns a :=
  (h.map _).sum_eq

/-- The net is what came in minus what went out. -/
theorem net_eq_credits_sub_debits (ms : List (Movement A)) (a : A) :
    net ms a = ((ms.filter fun m => m.credited = some a).map (·.amount)).sum
      - ((ms.filter fun m => m.debited = some a).map (·.amount)).sum := by
  induction ms with
  | nil => rfl
  | cons m ms ih =>
    rw [net_cons, ih, Movement.effect]
    by_cases hc : m.credited = some a <;> by_cases hd : m.debited = some a <;>
      simp [hc, hd] <;> ring

/-! ## What comes in and what goes out

A movement with both ends adds as much to one account as it takes from another. So summed
over any accounts that contain all ends, what is left is what came from outside and what went
there.
-/

/-- The amounts that come from outside. -/
def minted (ms : List (Movement A)) : ℤ :=
  ((ms.filter fun m => m.debited.isNone && m.credited.isSome).map (·.amount)).sum

/-- The amounts that leave. -/
def burned (ms : List (Movement A)) : ℤ :=
  ((ms.filter fun m => m.debited.isSome && m.credited.isNone).map (·.amount)).sum

/-- Over the accounts it is between, a movement adds what it mints less what it burns. -/
theorem Movement.sum_effect (m : Movement A) {accounts : Finset A}
    (hcredited : ∀ a ∈ m.credited, a ∈ accounts) (hdebited : ∀ a ∈ m.debited, a ∈ accounts) :
    ∑ a ∈ accounts, m.effect a
      = (if m.debited.isNone && m.credited.isSome then m.amount else 0)
        - (if m.debited.isSome && m.credited.isNone then m.amount else 0) := by
  have hend : ∀ party : Option A, (∀ a ∈ party, a ∈ accounts) →
      (∑ a ∈ accounts, if party = some a then m.amount else 0)
        = if party.isSome then m.amount else 0 := by
    intro party hparty
    cases party with
    | none => simp
    | some a =>
      have hmem := hparty a rfl
      simp only [Option.some.injEq, Finset.sum_ite_eq, hmem, if_true, Option.isSome_some]
  unfold Movement.effect
  rw [Finset.sum_sub_distrib, hend _ hcredited, hend _ hdebited]
  cases m.credited <;> cases m.debited <;> simp

/-- Over all accounts the nets add up to what was minted less what was burned. -/
theorem sum_net {ms : List (Movement A)} {accounts : Finset A}
    (hends : ∀ m ∈ ms, (∀ a ∈ m.credited, a ∈ accounts) ∧ ∀ a ∈ m.debited, a ∈ accounts) :
    ∑ a ∈ accounts, net ms a = minted ms - burned ms := by
  induction ms with
  | nil => simp [minted, burned]
  | cons m ms ih =>
    obtain ⟨hcredited, hdebited⟩ := hends m (List.mem_cons_self ..)
    have hrest := ih fun x hx => hends x (List.mem_cons_of_mem _ hx)
    have hcons : ∀ a, net (m :: ms) a = m.effect a + net ms a := net_cons m ms
    rw [Finset.sum_congr rfl fun a _ => hcons a, Finset.sum_add_distrib, m.sum_effect hcredited hdebited, hrest]
    unfold minted burned
    rw [List.filter_cons, List.filter_cons]
    cases m.debited <;> cases m.credited <;> simp <;> ring

/-! ## One amount that is handed on

A chain of movements of one amount, each from where the last put it. Every account on the way
receives it and passes it on, and comes out even; an account may be on the way more than
once.
-/

/-- From `holder` on, each movement takes the amount from where the one before put it. -/
def Handed (amount : ℤ) : Option A → List (Movement A) → Prop
  | _, [] => True
  | holder, m :: ms => m.debited = holder ∧ m.amount = amount ∧ Handed amount m.credited ms

instance Handed.decidable (amount : ℤ) :
    (holder : Option A) → (ms : List (Movement A)) → Decidable (Handed amount holder ms)
  | _, [] => isTrue trivial
  | holder, m :: ms =>
    have := Handed.decidable amount m.credited ms
    inferInstanceAs (Decidable (m.debited = holder ∧ m.amount = amount ∧
      Handed amount m.credited ms))

/-- Where the last movement put it. -/
def handedTo (holder : Option A) (ms : List (Movement A)) : Option A :=
  (ms.getLast?.map (·.credited)).getD holder

omit [DecidableEq A] in
theorem handedTo_cons (holder : Option A) (m : Movement A) (ms : List (Movement A)) :
    handedTo holder (m :: ms) = handedTo m.credited ms := by
  unfold handedTo
  cases ms with
  | nil => rfl
  | cons x xs => rw [List.getLast?_cons_cons, List.getLast?_cons]; rfl

/-- An amount that is handed on leaves the account it started from for the last one. -/
theorem Handed.net {amount : ℤ} {holder : Option A} {ms : List (Movement A)}
    (h : Handed amount holder ms) (a : A) :
    net ms a = (if handedTo holder ms = some a then amount else 0)
      - (if holder = some a then amount else 0) := by
  induction ms generalizing holder with
  | nil =>
    have hstays : handedTo holder ([] : List (Movement A)) = holder := rfl
    rw [hstays, sub_self, net_nil]
  | cons m ms ih =>
    obtain ⟨rfl, rfl, hrest⟩ := h
    rw [net_cons, ih hrest, handedTo_cons, Movement.effect]
    ring

/-! ## Balances on the way

The net says nothing about what a balance was in between. Making movements on top of a base
goes through the prefixes of the list, taking them back through what is left of it, so a
bound on every prefix or every suffix is what such a run needs.
-/

/-- Making `ms` from first to last, on top of balances `base`, never leaves `ok`. -/
def AppliesWithin (ok : ℤ → Prop) (base : A → ℤ) : List (Movement A) → Prop
  | [] => True
  | m :: ms => (∀ a, ok (base a + m.effect a)) ∧ AppliesWithin ok (fun a => base a + m.effect a) ms

/-- Two lists in a row: the second goes on from where the first ends. -/
theorem AppliesWithin.append {ok : ℤ → Prop} {base : A → ℤ} {ms ns : List (Movement A)} :
    AppliesWithin ok base (ms ++ ns) ↔
      AppliesWithin ok base ms ∧ AppliesWithin ok (fun a => base a + net ms a) ns := by
  induction ms generalizing base with
  | nil => simp [AppliesWithin]
  | cons m ms ih =>
    have hbase : (fun a => base a + m.effect a + net ms a) = fun a => base a + net (m :: ms) a := by
      funext a
      rw [net_cons, add_assoc]
    rw [List.cons_append, AppliesWithin, AppliesWithin, ih, hbase, and_assoc]

theorem AppliesWithin.of_prefix {ok : ℤ → Prop} {base : A → ℤ} (hbase : ∀ a, ok (base a))
    {ms : List (Movement A)} :
    AppliesWithin ok base ms ↔ ∀ done, done <+: ms → ∀ a, ok (base a + net done a) := by
  induction ms generalizing base with
  | nil =>
    refine ⟨fun _ done hdone a => ?_, fun _ => trivial⟩
    rw [List.prefix_nil.1 hdone, net_nil, add_zero]
    exact hbase a
  -- a prefix is empty, or starts with the first movement
  | cons m ms ih =>
    rw [AppliesWithin]
    constructor
    · rintro ⟨hm, hms⟩ done hdone a
      cases done with
      | nil =>
        rw [net_nil, add_zero]
        exact hbase a
      | cons x done =>
        obtain ⟨rfl, hrest⟩ := List.cons_prefix_cons.1 hdone
        rw [net_cons, ← add_assoc]
        exact (ih hm).1 hms done hrest a
    · intro h
      have hm : ∀ a, ok (base a + m.effect a) := by
        intro a
        have hfirst := h [m] (List.cons_prefix_cons.2 ⟨rfl, List.nil_prefix⟩) a
        rwa [net_cons, net_nil, add_zero] at hfirst
      refine ⟨hm, (ih hm).2 fun done hdone a => ?_⟩
      have hnext := h (m :: done) (List.cons_prefix_cons.2 ⟨rfl, hdone⟩) a
      rwa [net_cons, ← add_assoc] at hnext

/-- Taking `ms` back from first to last, on top of balances `base`, never leaves
`ok`: after each step what remains is `base` and the movements not yet taken
back. -/
def UnwindsWithin (ok : ℤ → Prop) (base : A → ℤ) : List (Movement A) → Prop
  | [] => True
  | _ :: ms => (∀ a, ok (base a + net ms a)) ∧ UnwindsWithin ok base ms

theorem UnwindsWithin.of_suffix {ok : ℤ → Prop} {base : A → ℤ} {ms : List (Movement A)} :
    UnwindsWithin ok base ms ↔
      ∀ pre m post, ms = pre ++ m :: post → ∀ a, ok (base a + net post a) := by
  induction ms with
  | nil =>
    constructor
    · intro _ pre m post h
      simp at h
    · intro _
      trivial
  | cons x xs ih =>
    rw [UnwindsWithin, ih]
    constructor
    · rintro ⟨hx, hxs⟩ pre m post h
      cases pre with
      | nil =>
        cases h
        exact hx
      | cons y pre =>
        cases h
        exact hxs pre m post rfl
    · intro h
      exact ⟨h [] x xs rfl, fun pre m post e => h (x :: pre) m post (by rw [e]; rfl)⟩

end Bookkeeping
