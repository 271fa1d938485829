/-
Text, numbers and errors, as the Rust handles them.

Errors are `anyhow` errors: the model keeps the text `format_error_chain` prints,
so `context` puts its own text in front of the cause. Hex numbers are parsed as
`u64::from_str_radix(_, 16)` parses them (an optional `+`, at least one digit,
refused from `2 ^ 64` on), and the two `as` casts the repository applies to them
are `as_i64` and `as_i32`, which wrap.

Amounts are `BigDecimal`s: an integer and a decimal scale, which is how the crate
stores them. How the crate parses a text into one is outside the repository and
is a parameter of everything that needs it (`AmountParser`); what the
`NUMERIC(78,0)` column makes of it is `numeric_78_0`.
-/
import Mathlib.Algebra.Group.Int.Defs
import Mathlib.Algebra.Group.Nat.Defs
import Mathlib.Data.Int.DivMod
import Mathlib.Data.Int.Init

set_option autoImplicit false

namespace EvmIndexer

/-! ## Errors

The lemmas are about when a fallible step succeeds, since a failed call rolls its transaction
back and leaves nothing to describe. The simp set takes a `do` block apart into its steps, and
the lemmas about `mapM` and `foldlM` say what a loop that went through has done.
-/

/-- A fallible operation: its value, or the printed chain of its error. -/
abbrev Result (α : Type) : Type := Except String α

/-- `anyhow::Context::context`. -/
def context {α : Type} (text : String) : Result α → Result α
  | .ok a => .ok a
  | .error cause => .error (text ++ ": " ++ cause)

/-- A statement the database refused. -/
def db_result {α : Type} (text : String) : Option α → Result α
  | some a => .ok a
  | none => .error (text ++ ": constraint violation")

@[simp] theorem context_eq_ok {α : Type} {text : String} {r : Result α} {a : α} :
    context text r = .ok a ↔ r = .ok a := by
  cases r <;> simp [context]

@[simp] theorem db_result_eq_ok {α : Type} {text : String} {o : Option α} {a : α} :
    db_result text o = .ok a ↔ o = some a := by
  cases o <;> simp [db_result]

/-- A sequence of two fallible steps succeeds exactly when both do. -/
@[simp] theorem bind_eq_ok {α β : Type} {r : Result α} {f : α → Result β} {b : β} :
    (r >>= f) = .ok b ↔ ∃ a, r = .ok a ∧ f a = .ok b := by
  cases r with
  | error e => simp [bind, Except.bind]
  | ok a => simp [bind, Except.bind]

theorem ok_bind {α β : Type} (a : α) (f : α → Result β) : ((.ok a : Result α) >>= f) = f a := rfl

@[simp] theorem pure_eq_ok {α : Type} {a b : α} : (pure a : Result α) = .ok b ↔ a = b := by
  simp [pure, Except.pure]

/-- `?` on an early `bail!`: the check passed and the rest ran. -/
@[simp] theorem bail_eq_ok {α : Type} {c : Prop} [Decidable c] {text : String} {r : Result α}
    {a : α} : (if c then .error text else r) = .ok a ↔ ¬ c ∧ r = .ok a := by
  split <;> simp_all

@[simp] theorem map_eq_ok {α β : Type} {r : Result α} {f : α → β} {b : β} :
    r.map f = .ok b ↔ ∃ a, r = .ok a ∧ f a = b := by
  cases r <;> simp [Except.map]

theorem exists_ok_of_isOk {α : Type} {r : Result α} (h : r.isOk = true) : ∃ a, r = .ok a := by
  cases r with
  | ok a => exact ⟨a, rfl⟩
  | error e => cases h

/-- What every turn of a fallible loop relates, the whole loop relates. -/
theorem foldlM_relates {σ α : Type} {f : σ → α → Result σ} {R : σ → σ → Prop}
    (hrefl : ∀ s, R s s) (htrans : ∀ {s t u}, R s t → R t u → R s u) {l : List α}
    (hstep : ∀ x ∈ l, ∀ {s t}, f s x = .ok t → R s t) {s t : σ} (h : l.foldlM f s = .ok t) :
    R s t := by
  induction l generalizing s with
  | nil =>
    rw [List.foldlM_nil, pure_eq_ok] at h
    exact h ▸ hrefl s
  | cons x rest ih =>
    rw [List.foldlM_cons, bind_eq_ok] at h
    obtain ⟨mid, hx, hrest⟩ := h
    have hhead : R s mid := hstep x (List.mem_cons_self ..) hx
    have htail : R mid t := ih (fun y hy => hstep y (List.mem_cons_of_mem _ hy)) hrest
    exact htrans hhead htail

@[simp] theorem toOption_eq_some {α : Type} {r : Result α} {a : α} :
    r.toOption = some a ↔ r = .ok a := by
  cases r <;> simp [Except.toOption]

/-- Every result of a fallible map is the result of one of its arguments. -/
theorem exists_of_mapM_eq_ok {α β : Type} {f : α → Result β} {l : List α} {bs : List β}
    (h : l.mapM f = .ok bs) {b : β} (hb : b ∈ bs) : ∃ a ∈ l, f a = .ok b := by
  induction l generalizing bs with
  | nil =>
    rw [List.mapM_nil, pure_eq_ok] at h
    rw [← h] at hb
    cases hb
  | cons x rest ih =>
    rw [List.mapM_cons, bind_eq_ok] at h
    obtain ⟨y, hx, h⟩ := h
    rw [bind_eq_ok] at h
    obtain ⟨ys, hrest, h⟩ := h
    rw [pure_eq_ok] at h
    rw [← h] at hb
    rcases List.mem_cons.1 hb with rfl | hb
    · exact ⟨x, List.mem_cons_self .., hx⟩
    · obtain ⟨a, ha, hab⟩ := ih hrest hb
      exact ⟨a, List.mem_cons_of_mem _ ha, hab⟩

/-- Every argument of a fallible map that went through has its result. -/
theorem exists_result_of_mapM {α β : Type} {f : α → Result β} {l : List α} {bs : List β}
    (h : l.mapM f = .ok bs) {a : α} (ha : a ∈ l) : ∃ b ∈ bs, f a = .ok b := by
  induction l generalizing bs with
  | nil => cases ha
  | cons x rest ih =>
    simp only [List.mapM_cons, bind_eq_ok, pure_eq_ok] at h
    obtain ⟨y, hx, ys, hrest, rfl⟩ := h
    rcases List.mem_cons.1 ha with rfl | ha
    · exact ⟨y, List.mem_cons_self .., hx⟩
    · obtain ⟨b, hb, hab⟩ := ih hrest ha
      exact ⟨b, List.mem_cons_of_mem _ hb, hab⟩

/-- What each result has of its argument, the results have of the arguments, in
order. -/
theorem map_eq_of_mapM {α β γ : Type} {f : α → Result β} {g : β → γ} {k : α → γ} {l : List α}
    {bs : List β} (h : l.mapM f = .ok bs) (hf : ∀ a b, f a = .ok b → g b = k a) :
    bs.map g = l.map k := by
  induction l generalizing bs with
  | nil =>
    rw [List.mapM_nil, pure_eq_ok] at h
    rw [← h]
    rfl
  | cons x rest ih =>
    simp only [List.mapM_cons, bind_eq_ok, pure_eq_ok] at h
    obtain ⟨y, hx, ys, hrest, rfl⟩ := h
    rw [List.map_cons, List.map_cons, hf x y hx, ih hrest]

/-- A fallible map of the same arguments in another order gives the same results, in that
order. -/
theorem mapM_perm {α β : Type} {f : α → Result β} {l l' : List α} (hperm : l.Perm l') {bs : List β}
    (h : l.mapM f = .ok bs) : ∃ bs', l'.mapM f = .ok bs' ∧ bs'.Perm bs := by
  induction hperm generalizing bs with
  | nil => exact ⟨bs, h, List.Perm.refl bs⟩
  | cons x _ ih =>
    simp only [List.mapM_cons, bind_eq_ok, pure_eq_ok] at h ⊢
    obtain ⟨y, hx, ys, hys, rfl⟩ := h
    obtain ⟨ys', hys', hperm'⟩ := ih hys
    exact ⟨y :: ys', ⟨y, hx, ys', hys', rfl⟩, hperm'.cons y⟩
  | swap x z _ =>
    simp only [List.mapM_cons, bind_eq_ok, pure_eq_ok] at h ⊢
    obtain ⟨y, hx, _, ⟨w, hz, ys, hys, rfl⟩, rfl⟩ := h
    exact ⟨w :: y :: ys, ⟨w, hz, y :: ys, ⟨y, hx, ys, hys, rfl⟩, rfl⟩, List.Perm.swap y w ys⟩
  | trans _ _ ih ih' =>
    obtain ⟨bs', h', hperm'⟩ := ih h
    obtain ⟨bs'', h'', hperm''⟩ := ih' h'
    exact ⟨bs'', h'', hperm''.trans hperm'⟩

/-- Every turn of a fallible loop that went through was taken from some state. -/
theorem exists_turn_of_foldlM {σ α : Type} {f : σ → α → Result σ} {l : List α} {s t : σ}
    (h : l.foldlM f s = .ok t) {x : α} (hx : x ∈ l) : ∃ u v, f u x = .ok v := by
  induction l generalizing s with
  | nil => cases hx
  | cons y rest ih =>
    rw [List.foldlM_cons, bind_eq_ok] at h
    obtain ⟨mid, hy, hrest⟩ := h
    rcases List.mem_cons.1 hx with rfl | hx
    · exact ⟨s, mid, hy⟩
    · exact ih hrest hx

/-! ## Text

Numbers are written in decimal (by `format!`, in keys, cursors and details) and read in
decimal and hex (from queries and from the node). A decimal text is read back as its number,
so a key or a cursor keeps the numbers in it apart. The two casts keep a value that fits and
wrap one that does not.
-/

/-- What holds of every character of a text is decided on the text; deciding it over all
characters there are would take too long. -/
instance (priority := high) decidableForallMemText {P : Char → Prop} [DecidablePred P]
    (text : List Char) : Decidable (∀ c ∈ text, P c) := List.decidableBAll P text

/-- `str::to_ascii_lowercase`. -/
def to_ascii_lowercase (value : String) : String :=
  String.ofList (value.toList.map Char.toLower)

/-- A separator that is in neither first part tells the parts apart. -/
theorem append_separator_inj {separator : Char} {a a' b b' : List Char} (ha : separator ∉ a)
    (ha' : separator ∉ a') (h : a ++ separator :: b = a' ++ separator :: b') : a = a' ∧ b = b' := by
  induction a generalizing a' with
  | nil =>
    cases a' with
    | nil =>
      injection h with _ hb
      exact ⟨rfl, hb⟩
    | cons x xs =>
      injection h with hx _
      exact absurd (List.mem_cons.2 (Or.inl hx)) ha'
  | cons x xs ih =>
    cases a' with
    | nil =>
      injection h with hx _
      exact absurd (List.mem_cons.2 (Or.inl hx.symm)) ha
    | cons y ys =>
      injection h with hx hrest
      obtain ⟨hxs, hb⟩ := ih (fun hmem => ha (List.mem_cons_of_mem _ hmem))
        (fun hmem => ha' (List.mem_cons_of_mem _ hmem)) hrest
      rw [hx, hxs]
      exact ⟨rfl, hb⟩

/-- A number is read back from its decimal digits. -/
theorem toString_inj {m n : Nat} (h : (toString m).toList = (toString n).toList) : m = n := by
  rw [Nat.toString_eq_repr, Nat.toString_eq_repr, Nat.toList_repr, Nat.toList_repr] at h
  rw [← Nat.ofDigitChars_ten_toDigits (n := m), h, Nat.ofDigitChars_ten_toDigits]

/-- No decimal digit is a colon. -/
theorem colon_not_mem_toString (n : Nat) : ':' ∉ (toString n).toList := by
  rw [Nat.toString_eq_repr, Nat.toList_repr]
  intro hmem
  have hdigit := Nat.isDigit_of_mem_toDigits (by decide) (by decide) hmem
  exact absurd hdigit (by decide)

/-- The number decimal digits spell, where there is at least one and nothing else. -/
def decimal_value (digits : List Char) : Option Nat :=
  if digits ≠ [] ∧ digits.all Char.isDigit then some (Nat.ofDigitChars 10 digits 0) else none

/-- `str::parse` into an unsigned integer type of values below `bound`. -/
def parse_unsigned (bound : Nat) (value : List Char) : Option Nat :=
  let digits := match value with
    | '+' :: rest => rest
    | value => value
  (decimal_value digits).bind fun n => if n < bound then some n else none

/-- `str::parse` into a signed integer type of values from `-bound` to below
`bound`. -/
def parse_signed (bound : Nat) (value : List Char) : Option Int :=
  match value with
  | '-' :: digits => (decimal_value digits).bind fun n => if n ≤ bound then some (-(n : Int)) else none
  | '+' :: digits => (decimal_value digits).bind fun n => if n < bound then some (n : Int) else none
  | digits => (decimal_value digits).bind fun n => if n < bound then some (n : Int) else none

/-- A number is the value of its decimal digits. -/
@[simp] theorem decimal_value_toString (n : Nat) : decimal_value (toString n).toList = some n := by
  have hne : (toString n).toList ≠ [] := by
    rw [Nat.toString_eq_repr, Nat.toList_repr]
    exact Nat.toDigits_ne_nil
  have hdigits : (toString n).toList.all Char.isDigit = true := by
    rw [Nat.toString_eq_repr, Nat.toList_repr, List.all_eq_true]
    intro c hc
    exact Nat.isDigit_of_mem_toDigits (by decide) (by decide) hc
  unfold decimal_value
  rw [if_pos ⟨hne, hdigits⟩, Nat.toString_eq_repr, Nat.toList_repr, Nat.ofDigitChars_ten_toDigits]

/-- A natural number in range is read back by `str::parse`. -/
theorem parse_signed_toString {bound n : Nat} (h : n < bound) :
    parse_signed bound (toString n).toList = some (n : Int) := by
  have hsign : ∀ c ∈ (toString n).toList, c ≠ '-' ∧ c ≠ '+' := by
    intro c hc
    rw [Nat.toString_eq_repr, Nat.toList_repr] at hc
    have hdigit := Nat.isDigit_of_mem_toDigits (by decide) (by decide) hc
    constructor <;> rintro rfl <;> exact absurd hdigit (by decide)
  have hvalue := decimal_value_toString n
  unfold parse_signed
  split
  · rename_i digits hdigits
    exact absurd rfl (hsign '-' (hdigits ▸ List.mem_cons_self ..)).1
  · rename_i digits hdigits
    exact absurd rfl (hsign '+' (hdigits ▸ List.mem_cons_self ..)).2
  · rw [hvalue, Option.bind_some, if_pos h]

/-- The value of one hex digit, of either letter case. -/
def hex_digit (c : Char) : Option Nat :=
  if '0' ≤ c ∧ c ≤ '9' then some (c.toNat - '0'.toNat)
  else if 'a' ≤ c ∧ c ≤ 'f' then some (c.toNat - 'a'.toNat + 10)
  else if 'A' ≤ c ∧ c ≤ 'F' then some (c.toNat - 'A'.toNat + 10)
  else none

/-- The number a list of hex digits spells, most significant digit first. -/
def hex_value (digits : List Char) : Option Nat :=
  digits.foldl (fun acc c => acc.bind fun n => (hex_digit c).map fun d => 16 * n + d) (some 0)

/-- `u64::from_str_radix(digits, 16)`. -/
def u64_from_hex (digits : List Char) : Option Nat :=
  let digits := match digits with
    | '+' :: rest => rest
    | digits => digits
  if digits = [] then none
  else (hex_value digits).bind fun n => if n < 2 ^ 64 then some n else none

/-- `strip_0x`. -/
def strip_0x (value : String) : Result (List Char) :=
  match value.toList with
  | '0' :: 'x' :: rest => .ok rest
  | '0' :: 'X' :: rest => .ok rest
  | _ => .error s!"hex value must start with 0x: {value}"

/-- `parse_hex_u64`. -/
def parse_hex_u64 (value : String) : Result Nat := do
  let digits ← strip_0x value
  match u64_from_hex digits with
  | some n => .ok n
  | none => .error s!"parse hex u64: {value}"

/-- A number `u64::from_str_radix` returns fits. -/
theorem u64_from_hex_lt {digits : List Char} {n : Nat} (h : u64_from_hex digits = some n) :
    n < 2 ^ 64 := by
  have hfits : ∀ {unsigned : List Char},
      (if unsigned = [] then none
        else (hex_value unsigned).bind fun n => if n < 2 ^ 64 then some n else none) = some n →
        n < 2 ^ 64 := by
    intro unsigned h
    split at h
    · cases h
    · obtain ⟨value, -, hvalue⟩ := Option.bind_eq_some_iff.1 h
      split at hvalue
      · rename_i hlt
        rwa [← Option.some.inj hvalue]
      · cases hvalue
  unfold u64_from_hex at h
  exact hfits h

theorem parse_hex_u64_lt {value : String} {n : Nat} (h : parse_hex_u64 value = .ok n) :
    n < 2 ^ 64 := by
  unfold parse_hex_u64 at h
  rw [bind_eq_ok] at h
  obtain ⟨digits, -, h⟩ := h
  split at h
  · rename_i m hm
    rw [← Except.ok.inj h]
    exact u64_from_hex_lt hm
  · cases h

/-- `parse_hex_i32`: `i32::try_from`, so a value past `i32::MAX` is an error. -/
def parse_hex_i32 (value : String) : Result Int := do
  let parsed ← parse_hex_u64 value
  if 2 ^ 31 ≤ parsed then .error s!"hex value {value} exceeds i32" else .ok (parsed : Int)

/-- `parse_optional_hex_i32`. -/
def parse_optional_hex_i32 : Option String → Result (Option Int)
  | none => .ok none
  | some value => do
    let parsed ← parse_hex_i32 value
    .ok (some parsed)

/-- `u64 as i64`. -/
def as_i64 (n : Nat) : Int := Int.bmod n (2 ^ 64)

/-- `u64 as i64` on a value that fits. -/
theorem as_i64_of_lt {n : Nat} (h : n < 2 ^ 63) : as_i64 n = n := by
  unfold as_i64
  rw [Int.bmod_eq_of_le_mul_two]
  · omega
  · omega

/-- A value that does not fit turns negative. -/
theorem as_i64_nonneg {n : Nat} (hn : n < 2 ^ 64) (h : 0 ≤ as_i64 n) :
    as_i64 n = n ∧ n < 2 ^ 63 := by
  have hfits : n < 2 ^ 63 := by
    unfold as_i64 at h
    rw [Int.bmod_def] at h
    split at h <;> omega
  exact ⟨as_i64_of_lt hfits, hfits⟩

/-- `u64 as i32`. -/
def as_i32 (n : Nat) : Int := Int.bmod n (2 ^ 32)

/-- `u64 as i32` on a value that fits. -/
theorem as_i32_of_lt {n : Nat} (h : n < 2 ^ 31) : as_i32 n = n := by
  unfold as_i32
  rw [Int.bmod_eq_of_le_mul_two]
  · omega
  · omega

/-- Where the result is not negative, it is the low 32 bits. -/
theorem as_i32_nonneg {n : Nat} (h : 0 ≤ as_i32 n) :
    as_i32 n = (n % 2 ^ 32 : Nat) ∧ n % 2 ^ 32 < 2 ^ 31 := by
  unfold as_i32 at *
  rw [Int.bmod_def] at *
  split at h <;> split <;> omega

/-- `non_zero_address`. -/
def non_zero_address (value : String) : Option String :=
  let value := to_ascii_lowercase value
  if value = "0x0000000000000000000000000000000000000000" then none else some value

/-! ## Amounts

The decoder gives an amount as a decimal text, and the ledger parses it and stores it in a
`NUMERIC(78,0)` column. The column rounds the value to an integer and refuses one of more
than 78 digits, so a parsed amount need not be the stored one.
-/

/-- `bigdecimal::BigDecimal`: `digits * 10 ^ (-scale)`. -/
structure BigDecimal where
  digits : Int
  scale : Int
  deriving DecidableEq, Repr

/-- `str::parse::<BigDecimal>`, which is outside the repository. -/
abbrev AmountParser : Type := String → Option BigDecimal

/-- `entry.amount.parse::<BigDecimal>()` with the context the ledger gives it. -/
def parse_amount (parseAmount : AmountParser) (amount : String) : Result BigDecimal :=
  match parseAmount amount with
  | some value => .ok value
  | none => .error ("parse amount " ++ amount)

/-- The integer a `NUMERIC(78,0)` column stores: rounded half away from zero. -/
def numeric_78_0 (value : BigDecimal) : Int :=
  if value.scale ≤ 0 then value.digits * 10 ^ value.scale.natAbs
  else
    let unit : Nat := 10 ^ value.scale.natAbs
    value.digits.sign * ((value.digits.natAbs + unit / 2) / unit : Nat)

/-- The range of a `NUMERIC(78,0)` column. -/
def fits_numeric_78_0 (value : Int) : Prop := -10 ^ 78 < value ∧ value < 10 ^ 78

instance (value : Int) : Decidable (fits_numeric_78_0 value) :=
  inferInstanceAs (Decidable (_ ∧ _))

end EvmIndexer
