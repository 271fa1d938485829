/-
A library of SQL tables: lists of rows that carry their own constraints.

A table keeps its `UNIQUE` constraints and its `CHECK` constraints as fields, so
a table that violates one of them cannot be built: every statement that would
build one returns `none`, which is what the database reports as a constraint
violation. The row type says what its constraints are through `Schema`, and the
three writing statements (`insert`, `update`, `upsert`) are stated once here,
over any row type.

The order of `rows` is the physical order of the table. SQL promises nothing
about it, so `Table.HeapPerm` relates two tables that differ only in it.

What the proofs of a development use is the last section: an update whose
predicate selects one row is a replacement of that row (`update_eq_replace`),
and a replacement changes a sum over the table by the new row's term minus the
old one's (`sum_replaceRow`).
-/
import Mathlib.Algebra.BigOperators.Group.List.Basic
import Mathlib.Data.List.Nodup
import Mathlib.Data.List.Pairwise
import Mathlib.Data.List.Sort
import Mathlib.Tactic.Abel

set_option autoImplicit false

namespace Sql

/-! ## Replacing one row of a list

An update of one row is a map over the list. What a development asks of the list after it
(members, the first that matches, a selection, a sum) is asked of it here.
-/

section Replace

variable {α : Type} [DecidableEq α]

/-- The row list with `old` replaced by `new`. -/
def replaceRow (old new : α) (l : List α) : List α := l.map fun r => if r = old then new else r

theorem mem_replaceRow {old new x : α} {l : List α} (hold : old ∈ l) :
    x ∈ replaceRow old new l ↔ x = new ∨ (x ∈ l ∧ x ≠ old) := by
  unfold replaceRow
  rw [List.mem_map]
  constructor
  · rintro ⟨r, hr, hrx⟩
    by_cases h : r = old
    · rw [if_pos h] at hrx
      exact Or.inl hrx.symm
    · rw [if_neg h] at hrx
      exact Or.inr ⟨hrx ▸ hr, hrx ▸ h⟩
  · rintro (rfl | ⟨hx, hne⟩)
    · exact ⟨old, hold, if_pos rfl⟩
    · exact ⟨x, hx, if_neg hne⟩

/-- A row replaced by itself stays. -/
theorem replaceRow_self (old : α) (l : List α) : replaceRow old old l = l := by
  unfold replaceRow
  conv_rhs => rw [← List.map_id l]
  refine List.map_congr_left fun r _ => ?_
  split
  · rename_i hr
    exact hr.symm
  · rfl

theorem replaceRow_replaceRow {a b c : α} {l : List α} (hb : b ∈ l → b = a) :
    replaceRow b c (replaceRow a b l) = replaceRow a c l := by
  unfold replaceRow
  rw [List.map_map]
  refine List.map_congr_left fun r hr => ?_
  simp only [Function.comp_apply]
  by_cases h : r = a
  · rw [if_pos h, if_pos rfl, if_pos h]
  · rw [if_neg h, if_neg h, if_neg]
    intro hrb
    exact h (hrb.trans (hb (hrb ▸ hr)))

/-- A search that neither row satisfies does not see the replacement. -/
theorem find?_replaceRow {old new : α} {p : α → Bool} (hold : ¬ p old = true)
    (hnew : ¬ p new = true) (l : List α) : (replaceRow old new l).find? p = l.find? p := by
  unfold replaceRow
  induction l with
  | nil => rfl
  | cons r rs ih =>
    by_cases h : r = old
    · subst h
      simp [hold, hnew, ih]
    · simp [h, List.find?_cons, ih]

/-- A selection that neither row is in does not see the replacement. -/
theorem filter_replaceRow {old new : α} {p : α → Bool} (hold : p old = false)
    (hnew : p new = false) (l : List α) : (replaceRow old new l).filter p = l.filter p := by
  unfold replaceRow
  induction l with
  | nil => rfl
  | cons r rs ih =>
    by_cases h : r = old
    · subst h
      simp [hold, hnew, ih]
    · simp [h, List.filter_cons, ih]

/-- Replacing a stored row changes a sum over the rows by the new row's term
minus the old row's. -/
theorem sum_replaceRow {M : Type} [AddCommGroup M] (g : α → M) {old new : α} {l : List α}
    (hl : l.Nodup) (hold : old ∈ l) :
    ((replaceRow old new l).map g).sum = (l.map g).sum - g old + g new := by
  induction l with
  | nil => cases hold
  | cons x xs ih =>
    obtain ⟨hx, hxs⟩ := List.nodup_cons.1 hl
    by_cases h : x = old
    · subst h
      -- the rows behind are others, as no row is stored twice
      have hrest : replaceRow x new xs = xs := by
        unfold replaceRow
        conv_rhs => rw [← List.map_id xs]
        refine List.map_congr_left fun r hr => ?_
        rw [if_neg, id]
        rintro rfl
        exact hx hr
      have hhead : replaceRow x new (x :: xs) = new :: replaceRow x new xs := by
        simp [replaceRow]
      rw [hhead, hrest]
      simp only [List.map_cons, List.sum_cons]
      abel
    · have hold' : old ∈ xs := by
        rcases List.mem_cons.1 hold with e | e
        · exact absurd e.symm h
        · exact e
      have hhead : replaceRow old new (x :: xs) = x :: replaceRow old new xs := by
        simp [replaceRow, h]
      rw [hhead]
      simp only [List.map_cons, List.sum_cons, ih hxs hold']
      abel

end Replace

/-! ## The first row of an ordered read

A read with `ORDER BY ... LIMIT 1` is the first match of a sorted list. Of rows with equal
keys it may be any, and nothing is said of which.
-/

/-- The first row of an ordered read that satisfies `p` has the smallest key of
the rows that do. -/
theorem le_of_find?_insertionSort {α κ : Type} [LinearOrder κ] (key : α → κ) {p : α → Bool}
    {l : List α} {x y : α} (h : (l.insertionSort fun a b => key a ≤ key b).find? p = some x)
    (hy : y ∈ l) (hp : p y = true) : key x ≤ key y := by
  have htotal : Std.Total fun a b : α => key a ≤ key b := ⟨fun a b => le_total (key a) (key b)⟩
  have htrans : IsTrans α fun a b => key a ≤ key b := ⟨fun _ _ _ => le_trans⟩
  have hsorted := List.pairwise_insertionSort (fun a b => key a ≤ key b) l
  obtain ⟨-, before, after, hsplit, hbefore⟩ := List.find?_eq_some_iff_append.1 h
  rw [hsplit] at hsorted
  have hmem : y ∈ before ++ x :: after := hsplit ▸ (List.mem_insertionSort _).2 hy
  rcases List.mem_append.1 hmem with hy | hy
  · have hnot := hbefore y hy
    rw [hp] at hnot
    cases hnot
  · rcases List.mem_cons.1 hy with rfl | hy
    · exact le_rfl
    · exact List.rel_of_pairwise_cons (List.pairwise_append.1 hsorted).2.1 hy

/-! ## Constraints and tables

The two kinds of constraints are relations of the row type: `Clash` for pairs of rows,
`Check` for single ones. Because they are fields of the table, a statement can only be
defined by proving that what it builds has them, or by refusing to build it.
-/

/-- The constraints of a row type. `Clash a b` holds when some `UNIQUE`
constraint forbids `a` and `b` in one table; a primary key makes it reflexive. -/
class Schema (ρ : Type) where
  /-- Some `UNIQUE` constraint keeps the two rows apart. -/
  Clash : ρ → ρ → Prop
  /-- The `CHECK` constraints and column ranges of one row. -/
  Check : ρ → Prop
  clash_refl : ∀ a, Clash a a
  clash_symm : ∀ {a b}, Clash a b → Clash b a
  decClash : DecidableRel Clash
  decCheck : DecidablePred Check

open Schema

instance {ρ : Type} [Schema ρ] (a b : ρ) : Decidable (Clash a b) := decClash a b

instance {ρ : Type} [Schema ρ] (a : ρ) : Decidable (Check a) := decCheck a

/-- A table: its rows, pairwise apart under every `UNIQUE` constraint and each
satisfying its `CHECK` constraints. -/
structure Table (ρ : Type) [Schema ρ] where
  rows : List ρ
  unique : rows.Pairwise (fun a b => ¬ Clash a b)
  checked : ∀ r ∈ rows, Check r

variable {ρ : Type} [Schema ρ]

/-- A `SET` clause that leaves the columns of every `UNIQUE` constraint alone. -/
def KeepsKeys (set : ρ → ρ) : Prop := ∀ a b, Clash (set a) b ↔ Clash a b

theorem KeepsKeys.both {set : ρ → ρ} (h : KeepsKeys set) (a b : ρ) :
    Clash (set a) (set b) ↔ Clash a b := by
  rw [h]
  constructor
  · intro hab
    exact clash_symm ((h b a).1 (clash_symm hab))
  · intro hab
    exact clash_symm ((h b a).2 (clash_symm hab))

namespace Table

@[ext] theorem ext {t u : Table ρ} (h : t.rows = u.rows) : t = u := by
  cases t
  cases u
  cases h
  rfl

/-- The table without rows. -/
def empty : Table ρ := ⟨[], List.Pairwise.nil, by simp⟩

@[simp] theorem empty_rows : (empty : Table ρ).rows = [] := rfl

/-! ## The writing statements

A statement returns the table it leaves, or nothing where the database would report a
violation. An update must keep the keys of the rows it sets, which is proved where the
statement is written, so an update violates a `CHECK` or nothing.
-/

/-- The effect of `WHERE p SET set` on one row. -/
def setRow (p : ρ → Bool) (set : ρ → ρ) (r : ρ) : ρ := if p r then set r else r

theorem setRow_clash {set : ρ → ρ} (hset : KeepsKeys set) (p : ρ → Bool) (a b : ρ) :
    Clash (setRow p set a) (setRow p set b) ↔ Clash a b := by
  unfold setRow
  split <;> split
  · exact hset.both a b
  · exact hset a b
  · constructor
    · intro h
      exact clash_symm ((hset b a).1 (clash_symm h))
    · intro h
      exact clash_symm ((hset b a).2 (clash_symm h))
  · exact Iff.rfl

omit [Schema ρ] in
/-- A column the clause does not set stays as it was. -/
theorem setRow_keeps {γ : Type} (column : ρ → γ) {set : ρ → ρ} (p : ρ → Bool) (r : ρ)
    (hset : ∀ r, column (set r) = column r := by exact fun _ => rfl) :
    column (setRow p set r) = column r := by
  unfold setRow
  split
  · exact hset r
  · rfl

omit [Schema ρ] in
/-- Where the rows that are set drop out of a selection, it selects what it did, less the
rows that were set. -/
theorem filter_map_setRow {p q : ρ → Bool} {set : ρ → ρ} (hset : ∀ r, q (set r) = false)
    (rows : List ρ) : (rows.map (setRow p set)).filter q = (rows.filter q).filter fun r => !p r := by
  rw [List.filter_map, List.filter_filter]
  have hkept : rows.filter (q ∘ setRow p set) = rows.filter fun r => !p r && q r := by
    refine List.filter_congr fun r _ => ?_
    rw [Function.comp_apply, setRow]
    cases hp : p r with
    | true =>
      rw [if_pos rfl, hset]
      rfl
    | false => rfl
  rw [hkept]
  conv_rhs => rw [← List.map_id (rows.filter fun r => !p r && q r)]
  refine List.map_congr_left fun r hr => ?_
  obtain ⟨-, hr⟩ := List.mem_filter.1 hr
  have hp : p r = false := by simpa using (Bool.and_eq_true_iff.1 hr).1
  rw [setRow, hp]
  rfl

omit [Schema ρ] in
theorem mem_filter_map_setRow {p q : ρ → Bool} {set : ρ → ρ} (hset : ∀ r, q (set r) = false)
    {rows : List ρ} {r : ρ} :
    r ∈ (rows.map (setRow p set)).filter q ↔ r ∈ rows.filter q ∧ ¬ p r = true := by
  rw [filter_map_setRow hset, List.mem_filter, Bool.not_eq_true', Bool.not_eq_true]

omit [Schema ρ] in
/-- A selection that no row is in, before or after it is set, does not see the update. -/
theorem filter_map_setRow_of_apart {p q : ρ → Bool} {set : ρ → ρ}
    (hapart : ∀ r, p r = true → q r = false ∧ q (set r) = false) (rows : List ρ) :
    (rows.map (setRow p set)).filter q = rows.filter q := by
  induction rows with
  | nil => rfl
  | cons r rs ih =>
    rw [List.map_cons, List.filter_cons, List.filter_cons, ih, setRow]
    by_cases hp : p r = true
    · obtain ⟨hold, hnew⟩ := hapart r hp
      simp only [if_pos hp, hold, hnew, Bool.false_eq_true, if_false]
    · rw [if_neg hp]

/-- `INSERT`: refused when the row clashes with a stored one or fails its
`CHECK` constraints. -/
def insert (t : Table ρ) (r : ρ) : Option (Table ρ) :=
  if h : Check r ∧ ∀ x ∈ t.rows, ¬ Clash x r then
    some
      { rows := t.rows ++ [r]
        unique := by
          rw [List.pairwise_append]
          refine ⟨t.unique, List.pairwise_singleton _ _, ?_⟩
          intro a ha b hb
          rw [List.mem_singleton.1 hb]
          exact h.2 a ha
        checked := by
          intro x hx
          rcases List.mem_append.1 hx with hx | hx
          · exact t.checked x hx
          · rw [List.mem_singleton.1 hx]
            exact h.1 }
  else none

/-- `UPDATE ... SET set WHERE p`: refused when some updated row fails its `CHECK`
constraints. The `UNIQUE` constraints are kept because `set` keeps the keys. -/
def update (t : Table ρ) (p : ρ → Bool) (set : ρ → ρ) (hset : KeepsKeys set) :
    Option (Table ρ) :=
  if h : ∀ r ∈ t.rows, Check (setRow p set r) then
    some
      { rows := t.rows.map (setRow p set)
        unique := by
          rw [List.pairwise_map]
          exact t.unique.imp fun hab hc => hab ((setRow_clash hset p _ _).1 hc)
        checked := by
          intro x hx
          obtain ⟨r, hr, rfl⟩ := List.mem_map.1 hx
          exact h r hr }
  else none

/-- `INSERT ... ON CONFLICT (target) DO UPDATE SET set ... RETURNING *`. The
`CHECK` constraints of the proposed row are evaluated before the conflict is
looked for, so a malformed row is refused even when it would only update. -/
def upsert (t : Table ρ) (new : ρ) (target : ρ → Bool) (set : ρ → ρ) (hset : KeepsKeys set) :
    Option (ρ × Table ρ) :=
  if Check new then
    match t.rows.find? target with
    | some old => (t.update target set hset).map fun t' => (set old, t')
    | none => (t.insert new).map fun t' => (new, t')
  else none

/-- Two tables with the same rows in another physical order. -/
def HeapPerm (t u : Table ρ) : Prop := t.rows.Perm u.rows

/-! ## What a successful statement did

Each statement has a lemma that says what is known once it went through, and where it can be
told from outside, one that says when it does.
-/

theorem insert_eq_some {t t' : Table ρ} {r : ρ} :
    t.insert r = some t' ↔
      (Check r ∧ ∀ x ∈ t.rows, ¬ Clash x r) ∧ t'.rows = t.rows ++ [r] := by
  unfold insert
  split
  · rename_i h
    constructor
    · intro e
      cases e
      exact ⟨h, rfl⟩
    · rintro ⟨-, e⟩
      exact congrArg some (Table.ext e.symm)
  · rename_i h
    constructor
    · intro e
      cases e
    · rintro ⟨h', -⟩
      exact absurd h' h

theorem update_eq_some {t t' : Table ρ} {p : ρ → Bool} {set : ρ → ρ} {hset : KeepsKeys set} :
    t.update p set hset = some t' ↔
      (∀ r ∈ t.rows, Check (setRow p set r)) ∧ t'.rows = t.rows.map (setRow p set) := by
  unfold update
  split
  · rename_i h
    constructor
    · intro e
      cases e
      exact ⟨h, rfl⟩
    · rintro ⟨-, e⟩
      exact congrArg some (Table.ext e.symm)
  · rename_i h
    constructor
    · intro e
      cases e
    · rintro ⟨h', -⟩
      exact absurd h' h

/-- A row that passes its checks and clashes with no stored one is inserted. -/
theorem exists_insert {t : Table ρ} {r : ρ} (hcheck : Check r) (hfree : ∀ x ∈ t.rows, ¬ Clash x r) :
    ∃ t', t.insert r = some t' := ⟨_, dif_pos ⟨hcheck, hfree⟩⟩

/-- An update whose rows all pass their checks goes through. -/
theorem exists_update {t : Table ρ} {p : ρ → Bool} {set : ρ → ρ} {hset : KeepsKeys set}
    (h : ∀ r ∈ t.rows, p r = true → Check (set r)) : ∃ t', t.update p set hset = some t' := by
  refine ⟨_, dif_pos fun r hr => ?_⟩
  unfold setRow
  split
  · exact h r hr ‹_›
  · exact t.checked r hr

/-- An upsert that succeeds either updated the conflicting row or appended the
proposed one. -/
theorem upsert_eq_some {t t' : Table ρ} {new r : ρ} {target : ρ → Bool} {set : ρ → ρ}
    {hset : KeepsKeys set} (h : t.upsert new target set hset = some (r, t')) :
    Check new ∧
      ((∃ old, t.rows.find? target = some old ∧ r = set old ∧
          t.update target set hset = some t') ∨
        (t.rows.find? target = none ∧ r = new ∧ t.insert new = some t')) := by
  unfold upsert at h
  split at h
  · rename_i hnew
    refine ⟨hnew, ?_⟩
    split at h
    · rename_i old hold
      obtain ⟨u, hu, he⟩ := Option.map_eq_some_iff.1 h
      cases he
      exact Or.inl ⟨old, hold, rfl, hu⟩
    · rename_i hnone
      obtain ⟨u, hu, he⟩ := Option.map_eq_some_iff.1 h
      cases he
      exact Or.inr ⟨hnone, rfl, hu⟩
  · cases h

/-! ## Rows are told apart by their keys

Two rows of a table that clash are one row. So a predicate on key columns selects one row at
most, whatever the physical order, and reading a column of it is a sum over the table, which
is a form that a permutation does not change.
-/

theorem nodup (t : Table ρ) : t.rows.Nodup :=
  t.unique.imp fun {a b} hab (e : a = b) => hab (e ▸ clash_refl a)

theorem eq_of_clash (t : Table ρ) {a b : ρ} (ha : a ∈ t.rows) (hb : b ∈ t.rows)
    (h : Clash a b) : a = b := by
  by_contra hne
  have : Std.Symm (fun x y : ρ => ¬ Clash x y) := ⟨fun _ _ hxy hyx => hxy (clash_symm hyx)⟩
  exact t.unique.forall ha hb hne h

/-- A predicate that only clashing rows share finds the one row satisfying it. -/
theorem find?_eq_some_iff (t : Table ρ) {p : ρ → Bool}
    (hp : ∀ a ∈ t.rows, ∀ b ∈ t.rows, p a → p b → Clash a b) {x : ρ} :
    t.rows.find? p = some x ↔ x ∈ t.rows ∧ p x = true := by
  constructor
  · intro h
    exact ⟨List.mem_of_find?_eq_some h, List.find?_some h⟩
  · rintro ⟨hx, hpx⟩
    obtain ⟨y, hy⟩ : ∃ y, t.rows.find? p = some y :=
      Option.isSome_iff_exists.1 (List.find?_isSome.2 ⟨x, hx, hpx⟩)
    have hym : y ∈ t.rows := List.mem_of_find?_eq_some hy
    rw [hy, t.eq_of_clash hym hx (hp y hym x hx (List.find?_some hy) hpx)]

/-- Where at most one row satisfies `p`, reading a column of that row is summing
the column over the rows satisfying `p`. -/
theorem find?_getD_eq_sum {M : Type} [AddCommMonoid M] (t : Table ρ) (g : ρ → M) {p : ρ → Bool}
    (hp : ∀ a b, p a → p b → Clash a b) :
    ((t.rows.find? p).map g).getD 0 = (t.rows.map fun r => if p r then g r else 0).sum := by
  have hunique := t.unique
  generalize t.rows = rows at hunique ⊢
  induction rows with
  | nil => rfl
  | cons r rs ih =>
    obtain ⟨hr, hrs⟩ := List.pairwise_cons.1 hunique
    by_cases h : p r = true
    · have hrest : (rs.map fun x => if p x then g x else 0).sum = 0 := by
        refine List.sum_eq_zero fun m hm => ?_
        obtain ⟨x, hx, rfl⟩ := List.mem_map.1 hm
        rw [if_neg]
        intro hpx
        exact hr x hx (hp r x h hpx)
      simp only [List.find?_cons, h, List.map_cons, List.sum_cons, if_true, hrest, add_zero]
      rfl
    · simp only [List.find?_cons, h, List.map_cons, List.sum_cons, Bool.false_eq_true, if_false,
        zero_add]
      exact ih hrs

/-- An update whose predicate selects exactly the stored row `x` replaces it. -/
theorem update_eq_replace [DecidableEq ρ] {t t' : Table ρ} {p : ρ → Bool} {set : ρ → ρ} {hset : KeepsKeys set}
    (h : t.update p set hset = some t') {x : ρ} (hx : p x = true)
    (hp : ∀ r ∈ t.rows, p r = true → r = x) : t'.rows = replaceRow x (set x) t.rows := by
  rw [(update_eq_some.1 h).2]
  refine List.map_congr_left fun r hr => ?_
  unfold setRow
  by_cases hpr : p r = true
  · rw [if_pos hpr, if_pos (hp r hr hpr), hp r hr hpr]
  · rw [if_neg hpr, if_neg]
    rintro rfl
    exact hpr hx

end Table

end Sql
