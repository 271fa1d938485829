/-
A library of statements that lock rows as they go.

At the isolation level `READ COMMITTED` each statement of a transaction takes a snapshot of its
own. An `UPDATE ... WHERE p` or a `SELECT ... WHERE p FOR UPDATE` goes through the rows that match
in its snapshot one after the other: it waits until no other transaction holds the row, reads
the version that is committed by then, and locks the row if that version still matches. The
locks stay until the transaction ends. A `Scan` is such a statement under way, by the keys of
the rows.

Between two looks other transactions may commit. They leave the locked rows alone
(`Held.of_kept`), so what was locked still matches; but they may bring in rows that match and
that the statement will not look at. If none does, a finished statement holds all rows that
match (`Seen`), and a second statement with the same condition locks the same rows again
(`Again`).

A row that no longer matches is let go here. A database may keep it locked, which only rules
out some of the runs.
-/
import EvmIndexer.Lib.Runs
import Mathlib.Data.List.Nodup

set_option autoImplicit false

namespace RowLocks

/-- A statement under way: the rows of its snapshot it has still to look at, and those it has
locked. -/
structure Scan (κ : Type) where
  todo : List κ
  locked : List κ
  deriving DecidableEq, Repr

variable {ρ κ : Type} (key : ρ → κ) (p : ρ → Bool)

/-- The statement starts, with the rows of its snapshot that match. -/
def Scan.start (snapshot : List ρ) : Scan κ := { todo := snapshot.map key, locked := [] }

/-- The statement looks at a row in its committed version. -/
def Scan.look [DecidableEq κ] (rows : List ρ) (scan : Scan κ) (k : κ) : Scan κ :=
  { todo := scan.todo.erase k
    locked := if rows.any fun r => key r == k && p r then scan.locked ++ [k] else scan.locked }

/-- The locked rows are there and match. -/
def Held (rows : List ρ) (locked : List κ) : Prop := ∀ k ∈ locked, ∃ r ∈ rows, key r = k ∧ p r = true

/-- Each row that matches is locked, or will be looked at. -/
def Seen (rows : List ρ) (scan : Scan κ) : Prop :=
  ∀ r ∈ rows, p r = true → key r ∈ scan.todo ∨ key r ∈ scan.locked

/-- No row is looked at twice. -/
def Scan.Once (scan : Scan κ) : Prop := (scan.locked ++ scan.todo).Nodup

/-- The statement is to lock the rows that are locked already. -/
def Scan.Again (scan : Scan κ) (locked : List κ) : Prop :=
  ∀ k, k ∈ scan.todo ∨ k ∈ scan.locked ↔ k ∈ locked

variable {key p} {rows rows' : List ρ} {scan : Scan κ} {locked : List κ} {k : κ}

/-! ## Starting, and what others commit

What is locked stays as it was, because the others leave locked rows alone. What is not
locked may change: a row that was to be looked at may stop matching, and that is what the
look is for.
-/

theorem Held.nil : Held key p rows [] := fun _ h => absurd h List.not_mem_nil

variable (key p rows) in
theorem held_of_filter : Held key p rows ((rows.filter p).map key) := by
  intro k hk
  obtain ⟨r, hr, rfl⟩ := List.mem_map.1 hk
  obtain ⟨hmem, hmatch⟩ := List.mem_filter.1 hr
  exact ⟨r, hmem, rfl, hmatch⟩

/-- What leaves the locked rows alone leaves them matching. -/
theorem Held.of_kept (h : Held key p rows locked)
    (hkept : ∀ r ∈ rows, key r ∈ locked → r ∈ rows') : Held key p rows' locked := by
  intro k hk
  obtain ⟨r, hr, hkey, hmatch⟩ := h k hk
  exact ⟨r, hkept r hr (hkey ▸ hk), hkey, hmatch⟩

/-- A statement that starts with all rows that match will look at them. -/
theorem Seen.start {snapshot : List ρ} (hall : ∀ r ∈ rows, p r = true → r ∈ snapshot) :
    Seen key p rows (Scan.start key snapshot) :=
  fun r hr hmatch => Or.inl (List.mem_map_of_mem (hall r hr hmatch))

/-- Rows that match are still seen where each of them matched before, or will be looked at. -/
theorem Seen.of_settled (h : Seen key p rows scan)
    (hsettled : ∀ r' ∈ rows', p r' = true →
      key r' ∈ scan.todo ∨ ∃ r ∈ rows, key r = key r' ∧ p r = true) : Seen key p rows' scan := by
  intro r' hr' hmatch
  rcases hsettled r' hr' hmatch with htodo | ⟨r, hr, hkey, hold⟩
  · exact Or.inl htodo
  · exact hkey ▸ h r hr hold

theorem Scan.Once.start {snapshot : List ρ} (h : (snapshot.map key).Nodup) :
    (Scan.start key snapshot).Once := h

/-- A second statement starts with the locked rows, where all rows that match are locked. -/
theorem Scan.Again.start {snapshot : List ρ} (hheld : Held key p rows locked)
    (hall : ∀ r, r ∈ snapshot ↔ r ∈ rows ∧ p r = true)
    (hseen : ∀ r ∈ rows, p r = true → key r ∈ locked) : (Scan.start key snapshot).Again locked := by
  intro k
  unfold Scan.start
  simp only [List.not_mem_nil, or_false]
  rw [List.mem_map]
  constructor
  · rintro ⟨r, hr, rfl⟩
    obtain ⟨hmem, hmatch⟩ := (hall r).1 hr
    exact hseen r hmem hmatch
  · intro hk
    obtain ⟨r, hr, hkey, hmatch⟩ := hheld k hk
    exact ⟨r, (hall r).2 ⟨hr, hmatch⟩, hkey⟩

/-! ## What a look does

A look reads one row in its committed version, and locks it or lets it go. It is the only
step of the statement, and each of the four properties is kept by it.
-/

variable [DecidableEq κ]

/-- A look locks a row that is there and matches. -/
theorem mem_locked_look {other : κ} : other ∈ (scan.look key p rows k).locked ↔
    other ∈ scan.locked ∨ (other = k ∧ ∃ r ∈ rows, key r = k ∧ p r = true) := by
  have hany : (rows.any fun r => key r == k && p r) = true ↔ ∃ r ∈ rows, key r = k ∧ p r = true := by
    simp only [List.any_eq_true, Bool.and_eq_true, beq_iff_eq]
  unfold Scan.look
  dsimp only
  split
  · rename_i hmatch
    rw [List.mem_append, List.mem_singleton]
    simp only [hany.1 hmatch, and_true]
  · rename_i hmatch
    have hnone : ¬ ∃ r ∈ rows, key r = k ∧ p r = true := fun h => hmatch (hany.2 h)
    simp only [hnone, and_false, or_false]

variable (locked) in
/-- A row that is there and matches, first in line. -/
theorem look_head (todo : List κ) (h : ∃ r ∈ rows, key r = k ∧ p r = true) :
    Scan.look key p rows { todo := k :: todo, locked } k = { todo, locked := locked ++ [k] } := by
  obtain ⟨r, hr, hkey, hmatch⟩ := h
  unfold Scan.look
  rw [if_pos (List.any_eq_true.2 ⟨r, hr, by simp [hkey, hmatch]⟩), List.erase_cons_head]

variable (key p rows k) in
/-- The other rows are still to be looked at. -/
theorem mem_todo_look {other : κ} (h : other ∈ scan.todo) :
    other = k ∨ other ∈ (scan.look key p rows k).todo := by
  by_cases heq : other = k
  · exact Or.inl heq
  · exact Or.inr ((List.mem_erase_of_ne heq).2 h)

theorem mem_of_mem_todo_look {other : κ} (h : other ∈ (scan.look key p rows k).todo) :
    other ∈ scan.todo := List.mem_of_mem_erase h

theorem Held.look (h : Held key p rows scan.locked) :
    Held key p rows (scan.look key p rows k).locked := by
  intro other hother
  rcases mem_locked_look.1 hother with hold | ⟨rfl, hmatch⟩
  · exact h other hold
  · exact hmatch

theorem Seen.look (h : Seen key p rows scan) : Seen key p rows (scan.look key p rows k) := by
  intro r hr hmatch
  rcases h r hr hmatch with htodo | hlocked
  · rcases mem_todo_look key p rows k htodo with heq | htodo
    · exact Or.inr (mem_locked_look.2 (Or.inr ⟨heq, r, hr, heq, hmatch⟩))
    · exact Or.inl htodo
  · exact Or.inr (mem_locked_look.2 (Or.inl hlocked))

theorem Scan.Once.look (h : scan.Once) (hk : k ∈ scan.todo) : (scan.look key p rows k).Once := by
  unfold Scan.Once Scan.look at *
  dsimp only
  split
  · have hperm : (scan.locked ++ scan.todo).Perm (scan.locked ++ [k] ++ scan.todo.erase k) := by
      rw [List.append_assoc]
      exact (List.perm_cons_erase hk).append_left _
    exact hperm.nodup_iff.1 h
  · exact h.sublist ((List.Sublist.refl _).append (List.erase_sublist ..))

/-- Each of its rows still matches when it is looked at. -/
theorem Scan.Again.look (h : scan.Again locked) (hheld : Held key p rows locked)
    (hk : k ∈ scan.todo) : (scan.look key p rows k).Again locked := by
  intro other
  rw [mem_locked_look]
  constructor
  · rintro (htodo | hlocked | ⟨rfl, -⟩)
    · exact (h other).1 (Or.inl (mem_of_mem_todo_look htodo))
    · exact (h other).1 (Or.inr hlocked)
    · exact (h other).1 (Or.inl hk)
  · intro hother
    rcases (h other).2 hother with htodo | hlocked
    · rcases mem_todo_look key p rows k htodo with heq | htodo
      · exact Or.inr (Or.inr ⟨heq, hheld k (heq ▸ hother)⟩)
      · exact Or.inl htodo
    · exact Or.inr (Or.inl hlocked)

/-! ## A statement alone

With nobody else committing, all rows of the snapshot still match when they are looked at, so
the statement locks what it selected, in one run.
-/

/-- While nothing else is committed, a statement looks at its rows one after the other and locks
them all. -/
theorem look_all {σ α : Type} {step : σ → α → σ → Prop} (phase : Scan κ → σ) (op : κ → α)
    (hstep : ∀ k todo locked, step (phase { todo := k :: todo, locked }) (op k)
      (phase (Scan.look key p rows { todo := k :: todo, locked } k)))
    (ids locked : List κ) (hheld : Held key p rows ids) :
    ∃ l, Transition.Run step (phase { todo := ids, locked }) l
      (phase { todo := [], locked := locked ++ ids }) := by
  induction ids generalizing locked with
  | nil => exact ⟨[], by rw [List.append_nil]; exact Transition.Run.nil⟩
  | cons k todo ih =>
    have hfirst := hstep k todo locked
    rw [look_head locked todo (hheld k (List.mem_cons_self ..))] at hfirst
    obtain ⟨l, hrest⟩ := ih (locked ++ [k]) fun other hother =>
      hheld other (List.mem_cons_of_mem k hother)
    rw [← List.append_cons] at hrest
    exact ⟨_, Transition.Run.cons hfirst hrest⟩

end RowLocks
