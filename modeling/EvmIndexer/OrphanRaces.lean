/-
What an orphaning flags and what it reverses, while repairs commit.

`orphan_source_range` evaluates its condition twice: the `SELECT` chooses the entries whose
effects are taken out of the balances, and the `UPDATE` chooses those that are flagged. The
entries it has selected are locked, so they are still there and still match. But the source
lock does not keep repairs out, and one that moves an entry into the range between the two
statements has it flagged and not reversed: its credit stays in the balances for good.

The invariant has two halves. What is locked stays as it was, whatever is committed
(`Sound`); and what matches is locked or will be looked at, as long as no repair moves an
entry in behind the `SELECT` (`Complete`).
-/
import EvmIndexer.Ledger
import EvmIndexer.OrphanStatements

set_option autoImplicit false

namespace EvmIndexer

open Sql Transition RowLocks

/-! ## Flagged and reversed

An orphaning is judged at its commit: what the balances have lost against what was flagged.
In between it is judged by its locks. An entry that is missed satisfies the condition of the
`UPDATE` without having satisfied that of the `SELECT`, and the only way to bring that about
is a repair that writes its block.
-/

/-- The entries that one commit has flagged. -/
def newly_orphaned (db db' : Db) : Set Uuid :=
  {id | ∃ row ∈ db.ledger_entries.rows, row.id = id ∧ row.orphaned = false ∧
    ∃ row' ∈ db'.ledger_entries.rows, row'.id = id ∧ row'.orphaned = true}

/-- The entries whose effects the transaction has reversed. -/
def RaceState.reversed_entries (s : RaceState) : Set Uuid :=
  {id | id ∈ s.orphaning.reversed.map (·.id)}

/-- Between two balances stand the contributions of these entries. -/
def TakenOut (source : SourceRow) (entries : List LedgerEntryRow) (db db' : Db) : Prop :=
  ∀ source_id a, db'.balance source_id a = db.balance source_id a
    - if source_id = source.id then (entries.map (·.contribution a)).sum else 0

/-- What a commit of the orphaning did: it took the effects of the reversed entries out of the
balances, each once, and flagged these entries. -/
structure ReversesWhatItFlags (source : SourceRow) (s t : RaceState) : Prop where
  once : (s.orphaning.reversed.map (·.id)).Nodup
  balances : TakenOut source s.orphaning.reversed s.db t.db
  flagged : newly_orphaned s.db t.db = s.reversed_entries

/-- The rows an orphaning has still to look at, as long as it has not chosen what to flag. -/
def Orphaning.awaiting : Orphaning → Option (List Uuid)
  | .Selecting entries => some entries.todo
  | .Reversing .. => some []
  | _ => none

section Races

variable (source : SourceRow) (from_block to_block : Int)

/-- The repair in the slot is about to move an active entry of the source into the range, one
which the orphaning has not chosen to reverse and will not look at again before it flags. A
repair that commits before the `SELECT` moves entries in as well, and these are seen; so are
those it brings to a row that the `SELECT` is still waiting for. -/
def RaceState.MovesIn (s : RaceState) (slot : Nat) : Prop :=
  ∃ todo repaired metadata events entries, s.orphaning.awaiting = some todo ∧
    s.repairs slot = some (.UpdatingEntries repaired metadata events entries) ∧
    ∃ row ∈ s.db.ledger_entries.rows, row.id ∈ entries.locked ∧ row.id ∉ todo ∧
      row.active_in source.id from_block to_block = false ∧
      (metadata.set_entry row).active_in source.id from_block to_block = true

/-- No repair that commits moves an entry in. One that does adds an entry to the range after
the orphaning has read it, so the entry is flagged and its effect stays in the balances. -/
def NoneMovesIn (s : RaceState) : RaceOp → Prop
  | .commit_metadata slot => ¬ s.MovesIn source from_block to_block slot
  | _ => True

/-- What holds of the locked rows, whatever the repairs commit. -/
def LockedRows (db : Db) : Orphaning → Prop
  | .Idle => True
  | .SourceLocked => True
  | .Selecting entries => entries.Once ∧ Held LedgerEntryRow.id
      (LedgerEntryRow.active_in source.id from_block to_block) db.ledger_entries.rows entries.locked
  | .Reversing reversed rest own => ((reversed ++ rest).map (·.id)).Nodup ∧
      (∀ row ∈ reversed ++ rest, row ∈ db.ledger_entries.rows ∧
        row.active_in source.id from_block to_block = true) ∧ TakenOut source reversed db own
  | .MarkingEntries reversed own entries => (reversed.map (·.id)).Nodup ∧
      (∀ row ∈ reversed, row ∈ db.ledger_entries.rows ∧
        row.active_in source.id from_block to_block = true) ∧ TakenOut source reversed db own ∧
      Held LedgerEntryRow.id (LedgerEntryRow.active_in source.id from_block to_block)
        db.ledger_entries.rows entries.locked
  | .MarkingEvents reversed own entries _ => (reversed.map (·.id)).Nodup ∧
      (∀ row ∈ reversed, row ∈ db.ledger_entries.rows ∧
        row.active_in source.id from_block to_block = true) ∧ TakenOut source reversed db own ∧
      Held LedgerEntryRow.id (LedgerEntryRow.active_in source.id from_block to_block)
        db.ledger_entries.rows entries

/-- What holds in every state. -/
structure Sound (s : RaceState) : Prop where
  /-- No entry is locked by both. -/
  apart : ∀ slot repair, s.repairs slot = some repair →
    ∀ id ∈ repair.entries_locked, id ∉ s.orphaning.entries_locked
  locked : LockedRows source from_block to_block s.db s.orphaning

/-- What matches is reversed, will be, or is what is flagged. -/
def Complete (db : Db) : Orphaning → Prop
  | .Idle => True
  | .SourceLocked => True
  | .Selecting entries => Seen LedgerEntryRow.id
      (LedgerEntryRow.active_in source.id from_block to_block) db.ledger_entries.rows entries
  | .Reversing reversed rest _ => ∀ row ∈ db.ledger_entries.rows,
      row.active_in source.id from_block to_block = true → row.id ∈ (reversed ++ rest).map (·.id)
  | .MarkingEntries reversed _ entries => entries.Again (reversed.map (·.id))
  | .MarkingEvents reversed _ entries _ => ∀ id, id ∈ entries ↔ id ∈ reversed.map (·.id)

/-- The entry is in the range, and was or will be flagged without being reversed. -/
def Missed (id : Uuid) (db : Db) (orphaning : Orphaning) : Prop :=
  (∃ row ∈ db.ledger_entries.rows, row.id = id ∧
    row.active_in source.id from_block to_block = true) ∧
  match orphaning with
  | .Idle => False
  | .SourceLocked => False
  | .Selecting entries => id ∉ entries.todo ∧ id ∉ entries.locked
  | .Reversing reversed rest _ => id ∉ (reversed ++ rest).map (·.id)
  | .MarkingEntries reversed _ entries => id ∉ reversed.map (·.id) ∧
      (id ∈ entries.todo ∨ id ∈ entries.locked)
  | .MarkingEvents reversed _ entries _ => id ∉ reversed.map (·.id) ∧ id ∈ entries

end Races

/-! ## Rows that a commit writes

A commit writes the rows its transaction has locked and no others. So what two transactions
have locked apart, they write apart.
-/

section Updates

variable {db : Db} {locked : List Uuid} {set : LedgerEntryRow → LedgerEntryRow}
  {hset : KeepsKeys set} {updated : Table LedgerEntryRow}

/-- A commit writes the rows that are locked, and leaves the others. -/
theorem mem_updated_iff (h : db.ledger_entries.update (fun row => decide (row.id ∈ locked)) set hset
    = some updated) {row' : LedgerEntryRow} :
    row' ∈ updated.rows ↔ ∃ row ∈ db.ledger_entries.rows,
      (row.id ∈ locked ∧ row' = set row) ∨ (row.id ∉ locked ∧ row' = row) := by
  rw [(Table.update_eq_some.1 h).2, List.mem_map]
  refine exists_congr fun row => and_congr_right fun _ => ?_
  unfold Table.setRow
  by_cases hmem : row.id ∈ locked
  · simp only [hmem, decide_true, if_true, true_and, not_true, false_and, or_false, eq_comm]
  · simp only [hmem, decide_false, Bool.false_eq_true, if_false, not_false_eq_true, true_and,
      false_and, false_or, eq_comm]

/-- A row the writer has not locked stays. -/
theorem mem_updated_of_unlocked (h : db.ledger_entries.update (fun row => decide (row.id ∈ locked))
    set hset = some updated) {row : LedgerEntryRow} (hrow : row ∈ db.ledger_entries.rows)
    (hid : row.id ∉ locked) : row ∈ updated.rows :=
  (mem_updated_iff h).2 ⟨row, hrow, Or.inr ⟨hid, rfl⟩⟩

/-- What a commit of the orphaning flags is what its second statement has locked. -/
theorem newly_orphaned_of_update {db' : Db} {source : SourceRow} {from_block to_block : Int}
    (h : db.ledger_entries.update (fun row => decide (row.id ∈ locked))
      (LedgerEntryRow.set_orphaned true) (LedgerEntryRow.set_orphaned_keeps_keys true) = some updated)
    (hrows : db'.ledger_entries = updated)
    (hheld : Held LedgerEntryRow.id (LedgerEntryRow.active_in source.id from_block to_block)
      db.ledger_entries.rows locked) : newly_orphaned db db' = {id | id ∈ locked} := by
  ext id
  unfold newly_orphaned
  rw [hrows, Set.mem_ofPred_eq, Set.mem_ofPred_eq]
  constructor
  · rintro ⟨row, hrow, rfl, hactive, row', hrow', hid, horphaned⟩
    obtain ⟨old, hold, ⟨hlocked, rfl⟩ | ⟨-, rfl⟩⟩ := (mem_updated_iff h).1 hrow'
    · exact hid ▸ hlocked
    · -- a row that was left is as it was, and so is its mark
      rw [entry_eq_of_id db hold hrow hid, hactive] at horphaned
      cases horphaned
  · intro hid
    obtain ⟨row, hrow, rfl, hactive⟩ := hheld id hid
    unfold LedgerEntryRow.active_in at hactive
    simp only [Bool.and_eq_true, Bool.not_eq_true'] at hactive
    exact ⟨row, hrow, rfl, hactive.2, row.set_orphaned true,
      (mem_updated_iff h).2 ⟨row, hrow, Or.inl ⟨hid, rfl⟩⟩, rfl, rfl⟩

end Updates

/-! ## What is locked stays

Neither of the two locks a row that the other holds, and neither writes one. That is enough
for the first half of the invariant, with no condition on the run.
-/

section Steps

variable {source : SourceRow} {from_block to_block : Int} {s t : RaceState} {op : OrphanOp}
  {next : Orphaning} {slot : Nat}

/-- The orphaning locks what no repair holds. A row it did not hold before is one whose lock
it just got, which the database gives to one transaction at a time. -/
theorem OrphanStep.locks (h : OrphanStep source from_block to_block s op next)
    (hs : Sound source from_block to_block s) {id : Uuid} (hid : id ∈ next.entries_locked) :
    id ∈ s.orphaning.entries_locked ∨
      ∀ slot repair, s.repairs slot = some repair → id ∉ repair.entries_locked := by
  cases h with
  | lock_source | select_entries | rollback => exact absurd hid List.not_mem_nil
  | lock_entry hphase _ hfree | mark_entry hphase _ hfree =>
    rw [hphase]
    simp only [Orphaning.entries_locked, List.mem_append, mem_locked_look] at hid ⊢
    grind
  -- what is loaded is what the scan has locked
  | load_entries hphase =>
    have hlocked := hs.locked
    rw [hphase] at hlocked ⊢
    rw [Orphaning.entries_locked, List.nil_append, (load_rows_spec hlocked.2).1] at hid
    exact Or.inl hid
  | reverse_entry hphase =>
    rw [hphase]
    rw [Orphaning.entries_locked, List.append_assoc, List.singleton_append] at hid
    exact Or.inl hid
  | mark_entries hphase =>
    rw [hphase]
    rw [Orphaning.entries_locked, Scan.start, List.append_nil] at hid
    rw [Orphaning.entries_locked, List.append_nil]
    exact Or.inl hid
  | mark_events hphase | mark_event hphase =>
    rw [hphase]
    exact Or.inl hid

/-- A repair locks what the orphaning does not hold. -/
theorem MetadataStep.locks {op : MetadataOp} {next : Option Repair}
    (h : MetadataStep s slot op next) {repair : Repair} (hnext : next = some repair) {id : Uuid}
    (hid : id ∈ repair.entries_locked) :
    (∃ old, s.repairs slot = some old ∧ id ∈ old.entries_locked) ∨
      id ∉ s.orphaning.entries_locked := by
  cases h with
  | update_events | update_event | update_entries =>
    cases hnext
    exact absurd hid List.not_mem_nil
  | update_entry hslot _ hfree =>
    cases hnext
    rcases mem_locked_look.1 hid with hold | ⟨rfl, -⟩
    · exact Or.inl ⟨_, hslot, hold⟩
    · exact Or.inr hfree
  | rollback => cases hnext

/-- What is taken out of the balances for one more entry. -/
theorem TakenOut.reverse_entry {reversed : List LedgerEntryRow} {row : LedgerEntryRow}
    {db own own' : Db} (h : TakenOut source reversed db own)
    (happly : EvmIndexer.reverse_entry source.from_source (db.with_balances own) row = .ok own') :
    TakenOut source (reversed ++ [row]) db own' := by
  intro source_id a
  obtain ⟨-, hbalance⟩ := apply_balance_delta_spec happly
  have hown : (db.with_balances own).balance source_id a = own.balance source_id a :=
    balance_congr rfl source_id a
  have hid : source.from_source.id = source.id := rfl
  rw [hbalance, hown, h, hid, List.map_append, List.sum_append]
  by_cases hs : source_id = source.id
  · simp only [if_pos hs, contribution_set_orphaned, Option.map_some, Option.getD_some,
      List.map_cons, List.map_nil, List.sum_cons, List.sum_nil]
    omega
  · simp only [if_neg hs]
    omega

theorem TakenOut.of_balances {reversed : List LedgerEntryRow} {db db' own : Db}
    (h : TakenOut source reversed db own) (hbalances : db'.token_balances = db.token_balances) :
    TakenOut source reversed db' own := by
  intro source_id a
  rw [h, balance_congr hbalances]

/-- A statement of the orphaning keeps to the rows it has locked. -/
theorem OrphanStep.lockedRows (h : OrphanStep source from_block to_block s op next)
    (hs : Sound source from_block to_block s) : LockedRows source from_block to_block s.db next := by
  have hlocked := hs.locked
  cases h with
  | lock_source | rollback => exact trivial
  | select_entries => exact ⟨Scan.Once.start active_rows_in_nodup, Held.nil⟩
  -- no entry is on the list twice, so none is locked twice
  | lock_entry hphase hid =>
    rw [hphase] at hlocked
    obtain ⟨honce, hheld⟩ := hlocked
    exact ⟨honce.look (hid ▸ List.mem_cons_self ..), hheld.look⟩
  | load_entries hphase hdone =>
    rw [hphase] at hlocked
    obtain ⟨honce, hheld⟩ := hlocked
    obtain ⟨hids, hrows⟩ := load_rows_spec hheld
    unfold Scan.Once at honce
    rw [hdone, List.append_nil] at honce
    refine ⟨?_, hrows, fun source_id a => by simp⟩
    rw [List.nil_append, hids]
    exact honce
  -- what the entry contributed is taken out of the balances
  | reverse_entry hphase happly =>
    rw [hphase] at hlocked
    obtain ⟨honce, hrows, hbalances⟩ := hlocked
    rw [List.append_cons] at honce hrows
    exact ⟨honce, hrows, hbalances.reverse_entry happly⟩
  | mark_entries hphase =>
    rw [hphase] at hlocked
    obtain ⟨honce, hrows, hbalances⟩ := hlocked
    rw [List.append_nil] at honce hrows
    exact ⟨honce, hrows, hbalances, Held.nil⟩
  | mark_entry hphase =>
    rw [hphase] at hlocked
    obtain ⟨honce, hrows, hbalances, hheld⟩ := hlocked
    exact ⟨honce, hrows, hbalances, hheld.look⟩
  | mark_events hphase =>
    rw [hphase] at hlocked
    exact hlocked
  | mark_event hphase =>
    rw [hphase] at hlocked
    exact hlocked

/-- A commit that leaves the locked rows alone, and the balances. -/
theorem LockedRows.of_kept {db db' : Db} {orphaning : Orphaning}
    (h : LockedRows source from_block to_block db orphaning)
    (hkept : ∀ row ∈ db.ledger_entries.rows, row.id ∈ orphaning.entries_locked →
      row ∈ db'.ledger_entries.rows)
    (hbalances : db'.token_balances = db.token_balances) :
    LockedRows source from_block to_block db' orphaning := by
  -- what is locked grows with the phases: entries first, then the events
  cases orphaning with
  | Idle | SourceLocked => exact trivial
  | Selecting entries =>
    obtain ⟨honce, hheld⟩ := h
    exact ⟨honce, hheld.of_kept hkept⟩
  | Reversing reversed rest own =>
    obtain ⟨honce, hrows, htaken⟩ := h
    refine ⟨honce, fun row hrow => ?_, htaken.of_balances hbalances⟩
    obtain ⟨hmem, hactive⟩ := hrows row hrow
    exact ⟨hkept row hmem (List.mem_map_of_mem hrow), hactive⟩
  | MarkingEntries reversed own entries =>
    obtain ⟨honce, hrows, htaken, hheld⟩ := h
    refine ⟨honce, fun row hrow => ?_, htaken.of_balances hbalances, hheld.of_kept fun row hmem hid =>
      hkept row hmem (List.mem_append_right _ hid)⟩
    obtain ⟨hmem, hactive⟩ := hrows row hrow
    exact ⟨hkept row hmem (List.mem_append_left _ (List.mem_map_of_mem hrow)), hactive⟩
  | MarkingEvents reversed own entries events =>
    obtain ⟨honce, hrows, htaken, hheld⟩ := h
    refine ⟨honce, fun row hrow => ?_, htaken.of_balances hbalances, hheld.of_kept fun row hmem hid =>
      hkept row hmem (List.mem_append_right _ hid)⟩
    obtain ⟨hmem, hactive⟩ := hrows row hrow
    exact ⟨hkept row hmem (List.mem_append_left _ (List.mem_map_of_mem hrow)), hactive⟩

/-- Every step keeps the locked rows. A statement of the orphaning goes on from them, and a
repair that commits has locked its rows, so it writes none of these. -/
theorem Sound.step {op : RaceOp} (hs : Sound source from_block to_block s)
    (h : RaceStep source from_block to_block s op t) : Sound source from_block to_block t := by
  cases h with
  | orphan h =>
    refine ⟨fun slot repair hslot id hid hlocked => ?_, h.lockedRows hs⟩
    rcases h.locks hs hlocked with hold | hfree
    · exact hs.apart slot repair hslot id hid hold
    · exact hfree slot repair hslot hid
  | commit_orphan =>
    exact ⟨fun _ _ _ _ _ => List.not_mem_nil, trivial⟩
  | @metadata slot op next h =>
    refine ⟨fun other repair hother id hid hlocked => ?_, hs.locked⟩
    rcases update_eq_some hother with ⟨rfl, hnext⟩ | ⟨-, hold⟩
    · rcases h.locks hnext hid with ⟨old, hold, hmem⟩ | hfree
      · exact hs.apart other old hold id hmem hlocked
      · exact hfree hlocked
    · exact hs.apart other repair hold id hid hlocked
  | @commit_metadata slot _ _ _ _ _ _ hslot _ hentries =>
    refine ⟨fun other repair hother => ?_, hs.locked.of_kept (fun row hrow hlocked => ?_) rfl⟩
    · rcases update_eq_some hother with ⟨-, hnone⟩ | ⟨-, hold⟩
      · cases hnone
      · exact hs.apart other repair hold
    · exact mem_updated_of_unlocked hentries hrow fun hmine => hs.apart slot _ hslot _ hmine hlocked

theorem sound_of_run {l : List RaceOp} (hs : s.Quiet)
    (h : Run (RaceStep source from_block to_block) s l t) : Sound source from_block to_block t := by
  refine h.invariant (fun _ _ _ hs hstep => hs.step hstep) ⟨fun slot repair hslot => ?_, ?_⟩
  · rw [hs.2 slot] at hslot
    cases hslot
  · rw [hs.1]
    exact trivial

/-! ## What matches is seen

The second half is lost by a commit that brings up a row the orphaning will not look at. Such
a commit is named by the condition, so along runs that meet it the `SELECT` has seen all that
matches when it ends, and the `UPDATE` selects the same rows again.
-/

/-- A statement of the orphaning sees what matches: the `UPDATE` starts with the entries that
were reversed, as these are all that match. -/
theorem OrphanStep.complete (h : OrphanStep source from_block to_block s op next)
    (hs : Sound source from_block to_block s)
    (hcomplete : Complete source from_block to_block s.db s.orphaning) :
    Complete source from_block to_block s.db next := by
  have hlocked := hs.locked
  cases h with
  | lock_source | rollback => exact trivial
  | select_entries =>
    exact Seen.start fun row hrow hactive => mem_active_rows_in.2 ⟨hrow, hactive⟩
  -- the entry looked at is locked, as it still matches
  | lock_entry hphase =>
    rw [hphase] at hcomplete
    exact Seen.look hcomplete
  -- with nothing left to look at, what matches is locked, and is loaded
  | load_entries hphase hdone =>
    rw [hphase] at hcomplete hlocked
    intro row hrow hactive
    rw [List.nil_append, (load_rows_spec hlocked.2).1]
    rcases hcomplete row hrow hactive with htodo | hlocked
    · rw [hdone] at htodo
      exact absurd htodo List.not_mem_nil
    · exact hlocked
  | reverse_entry hphase =>
    rw [hphase] at hcomplete
    intro row hrow hactive
    have hmem := hcomplete row hrow hactive
    rw [List.append_cons] at hmem
    exact hmem
  -- the second statement starts from the rows the first has locked
  | mark_entries hphase =>
    rw [hphase] at hcomplete hlocked
    obtain ⟨-, hrows, -⟩ := hlocked
    rw [List.append_nil] at hrows
    refine Scan.Again.start (held_of_rows hrows) (fun row => List.mem_filter)
      fun row hrow hactive => ?_
    have hmem := hcomplete row hrow hactive
    rw [List.append_nil] at hmem
    exact hmem
  | mark_entry hphase hid =>
    rw [hphase] at hcomplete hlocked
    obtain ⟨-, hrows, -, -⟩ := hlocked
    exact Scan.Again.look hcomplete (held_of_rows hrows) hid
  | mark_events hphase hdone =>
    rw [hphase] at hcomplete
    intro id
    rw [← hcomplete id, hdone]
    exact ⟨Or.inr, fun h => h.resolve_left List.not_mem_nil⟩
  | mark_event hphase =>
    rw [hphase] at hcomplete
    exact hcomplete

/-- A repair that moves no entry in brings up no row that has not been seen. -/
theorem Complete.commit_metadata {metadata : LogMetadata} {repaired : SourceRow} {events : List Uuid}
    {entries : Scan Uuid} {updated : Table LedgerEntryRow} {db' : Db}
    (hcomplete : Complete source from_block to_block s.db s.orphaning)
    (hslot : s.repairs slot = some (.UpdatingEntries repaired metadata events entries))
    (hentries : s.db.ledger_entries.update (fun row => decide (row.id ∈ entries.locked))
      metadata.set_entry metadata.set_entry_keeps_keys = some updated)
    (hrows : db'.ledger_entries = updated)
    (hnone : ¬ s.MovesIn source from_block to_block slot) :
    Complete source from_block to_block db' s.orphaning := by
  -- a row that matches now did so before, or will be looked at
  have hsettled : ∀ todo, s.orphaning.awaiting = some todo → ∀ row' ∈ db'.ledger_entries.rows,
      row'.active_in source.id from_block to_block = true → row'.id ∈ todo ∨
        ∃ row ∈ s.db.ledger_entries.rows, row.id = row'.id ∧
          row.active_in source.id from_block to_block = true := by
    intro todo htodo row' hrow' hactive
    rw [hrows] at hrow'
    obtain ⟨row, hrow, ⟨hlocked, rfl⟩ | ⟨-, rfl⟩⟩ := (mem_updated_iff hentries).1 hrow'
    · by_cases hmem : row.id ∈ todo
      · exact Or.inl hmem
      · refine Or.inr ⟨row, hrow, rfl, ?_⟩
        by_contra hout
        exact hnone ⟨todo, repaired, metadata, events, entries, htodo, hslot, row, hrow, hlocked,
          hmem, Bool.eq_false_iff.2 hout, hactive⟩
    · exact Or.inr ⟨row', hrow, rfl, hactive⟩
  cases hphase : s.orphaning with
  | Idle | SourceLocked => exact trivial
  | Selecting scan =>
    rw [hphase] at hcomplete hsettled
    exact Seen.of_settled hcomplete (hsettled scan.todo rfl)
  | Reversing reversed rest own =>
    rw [hphase] at hcomplete hsettled
    intro row' hrow' hactive
    rcases hsettled [] rfl row' hrow' hactive with hmem | ⟨row, hrow, hid, hold⟩
    · exact absurd hmem List.not_mem_nil
    · exact hid ▸ hcomplete row hrow hold
  | MarkingEntries | MarkingEvents =>
    rw [hphase] at hcomplete
    exact hcomplete

/-- What holds along a run in which no repair moves an entry in. -/
structure Tracked (source : SourceRow) (from_block to_block : Int) (s : RaceState) : Prop where
  sound : Sound source from_block to_block s
  complete : Complete source from_block to_block s.db s.orphaning

theorem Tracked.step {op : RaceOp} (hs : Tracked source from_block to_block s)
    (h : RaceStep source from_block to_block s op t)
    (hnone : NoneMovesIn source from_block to_block s op) : Tracked source from_block to_block t := by
  refine ⟨hs.sound.step h, ?_⟩
  cases h with
  | orphan h => exact h.complete hs.sound hs.complete
  | commit_orphan => exact trivial
  | metadata => exact hs.complete
  | commit_metadata hslot _ hentries => exact hs.complete.commit_metadata hslot hentries rfl hnone

/-! ## A commit of the orphaning

The two halves together say that the rows that were reversed are the rows that are flagged.
The first alone says that what was reversed is flagged.
-/

/-- It takes out what was reversed, and flags what the `UPDATE` has locked. -/
theorem Sound.commit_orphan (hs : Sound source from_block to_block s)
    (h : RaceStep source from_block to_block s .commit_orphan t) :
    ∃ reversed own entries events, s.orphaning = .MarkingEvents reversed own entries events ∧
      (reversed.map (·.id)).Nodup ∧ TakenOut source reversed s.db t.db ∧
      newly_orphaned s.db t.db = {id | id ∈ entries} := by
  have hlocked := hs.locked
  cases h with
  | commit_orphan hphase _ hentries _ =>
    rw [hphase] at hlocked
    obtain ⟨honce, -, htaken, hheld⟩ := hlocked
    refine ⟨_, _, _, _, hphase, honce, fun source_id a => ?_,
      newly_orphaned_of_update hentries rfl hheld⟩
    rw [← htaken source_id a]
    exact balance_congr rfl source_id a

theorem Tracked.commit_orphan (hs : Tracked source from_block to_block s)
    (h : RaceStep source from_block to_block s .commit_orphan t) : ReversesWhatItFlags source s t := by
  obtain ⟨reversed, own, entries, events, hphase, honce, htaken, hflagged⟩ := hs.sound.commit_orphan h
  have hcomplete := hs.complete
  have hreversed : s.orphaning.reversed = reversed := by rw [hphase, Orphaning.reversed]
  rw [hphase] at hcomplete
  refine ⟨by rw [hreversed]; exact honce, by rw [hreversed]; exact htaken, ?_⟩
  rw [hflagged]
  unfold RaceState.reversed_entries
  rw [hreversed]
  exact Set.ext hcomplete

/-! ## An entry that is moved in

Conversely, an entry that was moved in behind the `SELECT` matches from then on, is never
selected, and is flagged. So the condition leaves out only runs that go wrong, where the
orphaning goes on to its commit.
-/

/-- The entry a repair moves in is missed: the orphaning has read its rows, and this one was
outside the range then. It has to be shown that the row is not among those that are locked.
-/
theorem missed_of_movesIn (hs : Sound source from_block to_block s)
    (hmoves : s.MovesIn source from_block to_block slot)
    (h : RaceStep source from_block to_block s (.commit_metadata slot) t) :
    ∃ id, Missed source from_block to_block id t.db t.orphaning := by
  obtain ⟨todo, repaired, metadata, events, entries, htodo, hslot, row, hrow, hlocked, hmem, -, hin⟩ :=
    hmoves
  refine ⟨row.id, ?_⟩
  cases h with
  | commit_metadata hslot' _ hentries =>
    rw [hslot] at hslot'
    cases hslot'
    refine ⟨⟨metadata.set_entry row, (mem_updated_iff hentries).2
      ⟨row, hrow, Or.inl ⟨hlocked, rfl⟩⟩, rfl, hin⟩, ?_⟩
    -- what the repair holds the orphaning does not
    have hfree := hs.apart slot _ hslot row.id hlocked
    dsimp only
    cases hphase : s.orphaning with
    | Idle | SourceLocked | MarkingEntries | MarkingEvents =>
      rw [hphase] at htodo
      cases htodo
    | Selecting scan =>
      rw [hphase] at htodo hfree
      cases htodo
      exact ⟨hmem, hfree⟩
    | Reversing reversed rest own =>
      rw [hphase] at hfree
      exact hfree

/-- And it stays missed: the `SELECT` does not look at it, and the `UPDATE` does. -/
theorem OrphanStep.missed (h : OrphanStep source from_block to_block s op next)
    (hs : Sound source from_block to_block s) (hgoes : op ≠ .rollback) {id : Uuid}
    (hmissed : Missed source from_block to_block id s.db s.orphaning) :
    Missed source from_block to_block id s.db next := by
  obtain ⟨hin, hphase'⟩ := hmissed
  have hlocked := hs.locked
  refine ⟨hin, ?_⟩
  cases h with
  | lock_source hphase | select_entries hphase =>
    rw [hphase] at hphase'
    exact absurd hphase' not_false
  | rollback => exact absurd rfl hgoes
  -- only an entry of the list is locked, and this one is not on it
  | lock_entry hphase htodo =>
    rw [hphase] at hphase'
    obtain ⟨hnot_todo, hnot_locked⟩ := hphase'
    refine ⟨fun hmem => hnot_todo (mem_of_mem_todo_look hmem), fun hmem => ?_⟩
    rcases mem_locked_look.1 hmem with hold | ⟨rfl, -⟩
    · exact hnot_locked hold
    · exact hnot_todo (htodo ▸ List.mem_cons_self ..)
  | load_entries hphase =>
    rw [hphase] at hphase' hlocked
    intro hmem
    rw [List.nil_append, (load_rows_spec hlocked.2).1] at hmem
    exact hphase'.2 hmem
  | reverse_entry hphase =>
    rw [hphase] at hphase'
    intro hmem
    rw [← List.append_cons] at hmem
    exact hphase' hmem
  -- the `UPDATE` selects by what is committed now, so the entry is on its list
  | mark_entries hphase =>
    rw [hphase] at hphase'
    obtain ⟨row, hrow, rfl, hactive⟩ := hin
    have hnot : row.id ∉ (_ ++ []).map _ := hphase'
    rw [List.append_nil] at hnot
    exact ⟨hnot, Or.inl (List.mem_map_of_mem (List.mem_filter.2 ⟨hrow, hactive⟩))⟩
  | @mark_entry reversed own scan looked hphase =>
    rw [hphase] at hphase'
    obtain ⟨hnot, htodo | hmem⟩ := hphase'
    · refine ⟨hnot, ?_⟩
      rcases mem_todo_look LedgerEntryRow.id _ s.db.ledger_entries.rows looked htodo with rfl | htodo
      · exact Or.inr (mem_locked_look.2 (Or.inr ⟨rfl, hin⟩))
      · exact Or.inl htodo
    · exact ⟨hnot, Or.inr (mem_locked_look.2 (Or.inl hmem))⟩
  | mark_events hphase hdone =>
    rw [hphase] at hphase'
    obtain ⟨hnot, hmem⟩ := hphase'
    rw [hdone] at hmem
    exact ⟨hnot, hmem.resolve_left List.not_mem_nil⟩
  | mark_event hphase =>
    rw [hphase] at hphase'
    exact hphase'

/-- Where an entry is missed, more is flagged than was reversed. -/
theorem Sound.commit_orphan_of_missed (hs : Sound source from_block to_block s) {id : Uuid}
    (hmissed : Missed source from_block to_block id s.db s.orphaning)
    (h : RaceStep source from_block to_block s .commit_orphan t) :
    newly_orphaned s.db t.db ≠ s.reversed_entries := by
  obtain ⟨reversed, own, entries, events, hphase, -, -, hflagged⟩ := hs.commit_orphan h
  obtain ⟨-, hmissed⟩ := hmissed
  rw [hphase] at hmissed
  obtain ⟨hnot, hmem⟩ := hmissed
  intro heq
  have hreversed : id ∈ s.reversed_entries := by
    rw [← heq, hflagged]
    exact hmem
  unfold RaceState.reversed_entries at hreversed
  rw [hphase] at hreversed
  exact hnot hreversed

end Steps

/-! ## The races

The run lemma for the condition, and the step where it fails. Both are about any number of
repairs, each at any of its statements.
-/

/-- In every run in which no repair moves an entry in behind the `SELECT`, a commit of the
orphaning flags the entries whose effects it has taken out of the balances, and no others. The
condition leaves out only what goes wrong: after a commit that moves an entry in, an orphaning
that goes on to its commit flags an entry it has not reversed. -/
theorem orphaning_reverses_what_it_flags (source : SourceRow) (from_block to_block : Int) :
    (∀ s, Reachable (Guarded (RaceStep source from_block to_block)
        (NoneMovesIn source from_block to_block)) RaceState.Quiet s →
      ∀ t, RaceStep source from_block to_block s .commit_orphan t → ReversesWhatItFlags source s t) ∧
    ∀ s, Reachable (RaceStep source from_block to_block) RaceState.Quiet s →
      ∀ slot t, RaceStep source from_block to_block s (.commit_metadata slot) t →
        ¬ NoneMovesIn source from_block to_block s (.commit_metadata slot) →
        ∀ l u, Run (Guarded (RaceStep source from_block to_block) GoesOn) t l u →
          ∀ v, RaceStep source from_block to_block u .commit_orphan v →
            newly_orphaned u.db v.db ≠ u.reversed_entries := by
  constructor
  · intro s hreachable t hcommit
    have htracked : Tracked source from_block to_block s := by
      refine hreachable.invariant (fun s hs => ⟨sound_of_run hs Run.nil, ?_⟩)
        fun s op t hs hstep => hs.step hstep.1 hstep.2
      rw [hs.1]
      exact trivial
    exact htracked.commit_orphan hcommit
  · rintro s ⟨s₀, l₀, hquiet, hrun⟩ slot t hstep hmoves l u hl v hcommit
    have hsound := sound_of_run hquiet hrun
    obtain ⟨id, hmissed⟩ := missed_of_movesIn hsound (not_not.1 hmoves) hstep
    -- the entry stays missed as long as the orphaning goes on
    have hlast : Sound source from_block to_block u ∧
        Missed source from_block to_block id u.db u.orphaning := by
      refine hl.invariant (I := fun s => Sound source from_block to_block s ∧
        Missed source from_block to_block id s.db s.orphaning) ?_ ⟨hsound.step hstep, hmissed⟩
      rintro s op t ⟨hs, hmissed⟩ ⟨hstep, hgoes⟩
      refine ⟨hs.step hstep, ?_⟩
      cases hstep with
      | orphan h => exact h.missed hs hgoes hmissed
      | commit_orphan | metadata | commit_metadata => exact absurd hgoes not_false
    exact hlast.1.commit_orphan_of_missed hlast.2 hcommit

/-! ## A transfer that is moved while its new range is orphaned -/

/-- A mint in block 1, passed on in block 2. -/
def passed_on : Db := (small_ledger mint_then_transfer).foldl (LedgerOp.commit plain_digits) Db.empty

/-- The log of the transfer, which a reorg has moved to block 3. -/
def moved_transfer : RpcLog := (erc20_transfer "0x3" "0xb3" "0xd2" alice bob).1

/-- What a repair with it writes. -/
def moved_transfer_metadata : LogMetadata :=
  { transaction_hash := "0xd2"
    log_index := 0
    block_number := 3
    block_timestamp := none
    block_hash := "0xb3"
    transaction_index := some 0
    contract_address := moved_transfer.address
    topics := moved_transfer.topics
    data := moved_transfer.data }

theorem log_metadata_moved_transfer : log_metadata moved_transfer = .ok moved_transfer_metadata := by
  decide +kernel

/-- The repair of the transfer, with both its statements done. -/
def moving_repair : Repair :=
  .UpdatingEntries small_source moved_transfer_metadata [4] { todo := [], locked := [5] }

/-- The `SELECT` finds nothing in blocks 3 to 4, and the repair of the transfer is about to
commit. -/
theorem select_then_repair : ∃ l, Run (RaceStep small_source 3 4) (under_way passed_on .Idle none) l
    (under_way passed_on (.Selecting { todo := [], locked := [] }) (some moving_repair)) := by
  have h₁ : RaceStep small_source 3 4 (under_way passed_on .Idle none) (.orphan .lock_source)
      (under_way passed_on .SourceLocked none) :=
    under_way_orphan (.lock_source rfl (by decide) (by decide) (by decide +kernel)) rfl
  have h₂ : RaceStep small_source 3 4 (under_way passed_on .SourceLocked none)
      (.orphan .select_entries) (under_way passed_on (.Selecting { todo := [], locked := [] }) none) :=
    under_way_orphan (.select_entries rfl) (congrArg Orphaning.Selecting (by decide +kernel))
  have h₃ : RaceStep small_source 3 4
      (under_way passed_on (.Selecting { todo := [], locked := [] }) none)
      (.metadata 0 (.update_events small_source moved_transfer))
      (under_way passed_on (.Selecting { todo := [], locked := [] }) (some (.UpdatingEvents small_source
        moved_transfer_metadata { todo := [4], locked := [] }))) :=
    under_way_metadata (.update_events rfl log_metadata_moved_transfer) (by decide +kernel)
  have h₄ : RaceStep small_source 3 4
      (under_way passed_on (.Selecting { todo := [], locked := [] }) (some (.UpdatingEvents small_source
        moved_transfer_metadata { todo := [4], locked := [] })))
      (.metadata 0 (.update_event 4))
      (under_way passed_on (.Selecting { todo := [], locked := [] }) (some (.UpdatingEvents small_source
        moved_transfer_metadata { todo := [], locked := [4] }))) :=
    under_way_metadata (.update_event rfl (List.mem_singleton_self 4) List.not_mem_nil
      fun _ _ hne h => absurd (under_way_eq_some h).1 hne) (by decide +kernel)
  have h₅ : RaceStep small_source 3 4
      (under_way passed_on (.Selecting { todo := [], locked := [] }) (some (.UpdatingEvents small_source
        moved_transfer_metadata { todo := [], locked := [4] })))
      (.metadata 0 .update_entries)
      (under_way passed_on (.Selecting { todo := [], locked := [] }) (some (.UpdatingEntries small_source
        moved_transfer_metadata [4] { todo := [5], locked := [] }))) :=
    under_way_metadata (.update_entries rfl rfl) (by decide +kernel)
  have h₆ : RaceStep small_source 3 4
      (under_way passed_on (.Selecting { todo := [], locked := [] }) (some (.UpdatingEntries small_source
        moved_transfer_metadata [4] { todo := [5], locked := [] })))
      (.metadata 0 (.update_entry 5))
      (under_way passed_on (.Selecting { todo := [], locked := [] }) (some moving_repair)) :=
    under_way_metadata (.update_entry rfl (List.mem_singleton_self 5) List.not_mem_nil
      fun _ _ hne h => absurd (under_way_eq_some h).1 hne) (by decide +kernel)
  exact ⟨_, (((((Run.nil.snoc h₁).snoc h₂).snoc h₃).snoc h₄).snoc h₅).snoc h₆⟩

/-- The tables with the transfer in block 3. -/
def moved_entries : Table LedgerEntryRow :=
  (passed_on.ledger_entries.update (fun row => decide (row.id ∈ [5]))
    moved_transfer_metadata.set_entry moved_transfer_metadata.set_entry_keeps_keys).get
    (by decide +kernel)

def moved_events : Table EventRow :=
  (passed_on.events.update (fun row => decide (row.id ∈ [4]))
    moved_transfer_metadata.set_event moved_transfer_metadata.set_event_keeps_keys).get
    (by decide +kernel)

def moved_on : Db := { passed_on with ledger_entries := moved_entries, events := moved_events }

theorem moving_repair_commits : RaceStep small_source 3 4
    (under_way passed_on (.Selecting { todo := [], locked := [] }) (some moving_repair))
    (.commit_metadata 0) (under_way moved_on (.Selecting { todo := [], locked := [] }) none) :=
  under_way_commit (Option.some_get _).symm (Option.some_get _).symm

theorem moving_repair_movesIn :
    (under_way passed_on (.Selecting { todo := [], locked := [] }) (some moving_repair)).MovesIn
      small_source 3 4 0 :=
  ⟨[], small_source, moved_transfer_metadata, [4], { todo := [], locked := [5] }, rfl, rfl,
    by decide +kernel⟩

/-- The `UPDATE` finds the transfer in block 3. -/
theorem orphaning_goes_on : ∃ l, Run (Guarded (RaceStep small_source 3 4) GoesOn)
    (under_way moved_on (.Selecting { todo := [], locked := [] }) none) l
    (under_way moved_on (.MarkingEvents [] moved_on [5] { todo := [], locked := [4] }) none) := by
  have h₁ : RaceStep small_source 3 4
      (under_way moved_on (.Selecting { todo := [], locked := [] }) none) (.orphan .load_entries)
      (under_way moved_on (.Reversing [] [] moved_on) none) :=
    under_way_orphan (.load_entries rfl rfl) rfl
  have h₂ : RaceStep small_source 3 4 (under_way moved_on (.Reversing [] [] moved_on) none)
      (.orphan .mark_entries)
      (under_way moved_on (.MarkingEntries [] moved_on { todo := [5], locked := [] }) none) :=
    under_way_orphan (.mark_entries rfl)
      (congrArg (Orphaning.MarkingEntries [] moved_on) (by decide +kernel))
  have h₃ : RaceStep small_source 3 4
      (under_way moved_on (.MarkingEntries [] moved_on { todo := [5], locked := [] }) none)
      (.orphan (.mark_entry 5))
      (under_way moved_on (.MarkingEntries [] moved_on { todo := [], locked := [5] }) none) :=
    under_way_orphan (.mark_entry rfl (List.mem_singleton_self 5)
        fun _ _ h => nomatch (under_way_eq_some h).2)
      (congrArg (Orphaning.MarkingEntries [] moved_on) (by decide +kernel))
  have h₄ : RaceStep small_source 3 4
      (under_way moved_on (.MarkingEntries [] moved_on { todo := [], locked := [5] }) none)
      (.orphan .mark_events)
      (under_way moved_on (.MarkingEvents [] moved_on [5] { todo := [4], locked := [] }) none) :=
    under_way_orphan (.mark_events rfl rfl)
      (congrArg (Orphaning.MarkingEvents [] moved_on [5]) (by decide +kernel))
  have h₅ : RaceStep small_source 3 4
      (under_way moved_on (.MarkingEvents [] moved_on [5] { todo := [4], locked := [] }) none)
      (.orphan (.mark_event 4))
      (under_way moved_on (.MarkingEvents [] moved_on [5] { todo := [], locked := [4] }) none) :=
    under_way_orphan (.mark_event rfl (List.mem_singleton_self 4)
        fun _ _ h => nomatch (under_way_eq_some h).2)
      (congrArg (Orphaning.MarkingEvents [] moved_on [5]) (by decide +kernel))
  exact ⟨_, ((((Run.nil.snoc ⟨h₁, nofun⟩).snoc ⟨h₂, nofun⟩).snoc ⟨h₃, nofun⟩).snoc
    ⟨h₄, nofun⟩).snoc ⟨h₅, nofun⟩⟩

theorem orphaning_commits : ∃ v, RaceStep small_source 3 4
    (under_way moved_on (.MarkingEvents [] moved_on [5] { todo := [], locked := [4] }) none)
    .commit_orphan v := by
  obtain ⟨marked, hentries⟩ : ∃ marked, moved_on.ledger_entries.update
      (fun row => decide (row.id ∈ [5])) (LedgerEntryRow.set_orphaned true)
      (LedgerEntryRow.set_orphaned_keeps_keys true) = some marked :=
    Table.exists_update fun row hrow _ => moved_on.ledger_entries.checked row hrow
  obtain ⟨marked_events, hevents⟩ : ∃ marked_events, moved_on.events.update
      (fun row => decide (row.id ∈ [4])) (EventRow.set_orphaned true)
      (EventRow.set_orphaned_keeps_keys true) = some marked_events :=
    Table.exists_update fun row hrow _ => moved_on.events.checked row hrow
  exact ⟨_, .commit_orphan rfl rfl hentries hevents⟩

/-- Block 2 is orphaned with the transfer in it, and nothing else under way; and blocks 3 to 4
are, while the transfer is moved in. -/
theorem orphaning_reverses_what_it_flags_transfer :
    (∃ s t, RaceStep small_source 2 2 s .commit_orphan t ∧ t.db.balance 0 (bob, "") = 0 ∧
      ReversesWhatItFlags small_source s t) ∧
      ∃ u v, RaceStep small_source 3 4 u .commit_orphan v ∧
        newly_orphaned u.db v.db ≠ u.reversed_entries := by
  constructor
  · have horphan : (orphan_source_range passed_on small_source 2 2).map
        (fun result => result.2.balance 0 (bob, "")) = .ok 0 := by decide +kernel
    rw [map_eq_ok] at horphan
    obtain ⟨⟨summary, db'⟩, hok, hbalance⟩ := horphan
    obtain ⟨l, s, hrun, hcommit⟩ := orphan_statements_alone hok
    have hguarded : Run (Guarded (RaceStep small_source 2 2) (NoneMovesIn small_source 2 2))
        (alone passed_on .Idle) l s := by
      refine hrun.mono fun s op t hstep => ⟨hstep.1, ?_⟩
      cases op with
      | orphan op => exact trivial
      | commit_orphan | metadata | commit_metadata => exact absurd hstep.2 not_false
    exact ⟨s, _, hcommit, hbalance, (orphaning_reverses_what_it_flags small_source 2 2).1 s
      ⟨_, l, under_way_quiet passed_on, hguarded⟩ _ hcommit⟩
  · obtain ⟨l, hbefore⟩ := select_then_repair
    obtain ⟨m, hafter⟩ := orphaning_goes_on
    obtain ⟨v, hcommit⟩ := orphaning_commits
    exact ⟨_, v, hcommit, (orphaning_reverses_what_it_flags small_source 3 4).2 _
      ⟨_, l, under_way_quiet passed_on, hbefore⟩ 0 _ moving_repair_commits
      (not_not.2 moving_repair_movesIn) m _ hafter v hcommit⟩

/-- The transfer is flagged, and stays in the balances. -/
theorem moved_transfer_is_flagged_only :
    ¬ ∀ (parseAmount : AmountParser) (source : SourceRow) (from_block to_block : Int) (s : RaceState),
      Reachable (RaceStep source from_block to_block)
        (fun s => s.Quiet ∧ LedgerReachable parseAmount s.db) s →
      ∀ t, RaceStep source from_block to_block s .commit_orphan t →
        newly_orphaned s.db t.db = s.reversed_entries := by
  intro h
  obtain ⟨l, hbefore⟩ := select_then_repair
  obtain ⟨m, hafter⟩ := orphaning_goes_on
  obtain ⟨v, hcommit⟩ := orphaning_commits
  have hrun := (hbefore.snoc moving_repair_commits).append hafter.of_guarded
  have hquiet := under_way_quiet passed_on
  have hmissed : Missed small_source 3 4 5 moved_on
      (.MarkingEvents [] moved_on [5] { todo := [], locked := [4] }) :=
    ⟨by decide +kernel, List.not_mem_nil, List.mem_singleton_self 5⟩
  refine (sound_of_run hquiet hrun).commit_orphan_of_missed hmissed hcommit ?_
  exact h plain_digits small_source 3 4 _ ⟨_, _, ⟨hquiet, LedgerReachable.empty.commits _⟩, hrun⟩ v
    hcommit

end EvmIndexer
