/-
`orphan_source_range` and `update_log_metadata` of `ledger_repository.rs`, statement by
statement.

`orphan_source_range` locks the row of its source, and so do all that persist logs: it has the
balances of the source to itself. The repairs of `update_log_metadata` lock no source. They may
commit between any two of its statements, and between two rows of one: what keeps the two apart
is only that neither writes a row which the other has locked. Each statement reads what is
committed when it starts, and what it has waited for (`RowLocks`).

The database here is what is committed. The locks of the two and what the orphaning has
reversed so far are in the states of the transactions, and a rollback drops them. Run with
nothing else under way, the statements are the two functions of the repository
(`orphan_statements_alone`, `metadata_statements_alone`).
-/
import EvmIndexer.Balances
import EvmIndexer.Lib.RowLocks
import EvmIndexer.Lib.Runs

set_option autoImplicit false

namespace EvmIndexer

open Sql Transition RowLocks

/-! ## The statements of `update_log_metadata`

The function has two updates, on the events and on the entries of one log. Between the two it
holds the locks of the first, so a repair under way is known by its log and by what it has
locked.
-/

/-- The columns `update_log_metadata` reads off a log, under the names it gives them. -/
structure LogMetadata where
  transaction_hash : String
  log_index : Int
  block_number : Int
  block_timestamp : Option Timestamp
  block_hash : String
  transaction_index : Option Int
  contract_address : String
  topics : List String
  data : String
  deriving DecidableEq, Repr

/-- They are read before the first statement. -/
def log_metadata (log : RpcLog) : Result LogMetadata := do
  let log_index ← parse_hex_u64 log.log_index
  let block_number ← parse_hex_u64 log.block_number
  let transaction_index ← parse_optional_hex_i32 log.transaction_index
  .ok
    { transaction_hash := to_ascii_lowercase log.transaction_hash
      log_index := as_i32 log_index
      block_number := as_i64 block_number
      block_timestamp := log.block_timestamp
      block_hash := to_ascii_lowercase log.block_hash
      transaction_index
      contract_address := to_ascii_lowercase log.address
      topics := normalized_topics log
      data := to_ascii_lowercase log.data }

/-- The `WHERE` clause of the update of `events`. -/
def LogMetadata.is_of_event (metadata : LogMetadata) (source : SourceRow) (row : EventRow) : Bool :=
  row.source_id == source.id && row.chain_id == source.chain_id &&
    row.transaction_hash == metadata.transaction_hash && row.log_index == metadata.log_index

/-- Its `SET` clause. -/
def LogMetadata.set_event (metadata : LogMetadata) (row : EventRow) : EventRow :=
  { row with
    block_number := metadata.block_number
    block_timestamp := metadata.block_timestamp
    block_hash := metadata.block_hash
    transaction_index := metadata.transaction_index
    contract_address := metadata.contract_address
    topics := metadata.topics
    data := metadata.data }

theorem LogMetadata.set_event_keeps_keys (metadata : LogMetadata) : KeepsKeys metadata.set_event :=
  fun _ _ => Iff.rfl

/-- The `WHERE` clause of the update of `ledger_entries`. -/
def LogMetadata.is_of_entry (metadata : LogMetadata) (source : SourceRow) (row : LedgerEntryRow) :
    Bool :=
  row.source_id == source.id && row.chain_id == source.chain_id &&
    row.transaction_hash == metadata.transaction_hash && row.log_index == metadata.log_index

/-- Its `SET` clause. -/
def LogMetadata.set_entry (metadata : LogMetadata) (row : LedgerEntryRow) : LedgerEntryRow :=
  { row with
    block_number := metadata.block_number
    block_timestamp := metadata.block_timestamp
    block_hash := metadata.block_hash
    transaction_index := metadata.transaction_index }

theorem LogMetadata.set_entry_keeps_keys (metadata : LogMetadata) : KeepsKeys metadata.set_entry :=
  fun _ _ => Iff.rfl

/-- `update_log_metadata` with its statements under these names. -/
theorem update_log_metadata_eq (db : Db) (source : SourceRow) (log : RpcLog) :
    update_log_metadata db source log = (do
      let metadata ← log_metadata log
      let events ← db_result "update event log metadata" (db.events.update
        (metadata.is_of_event source) metadata.set_event metadata.set_event_keeps_keys)
      let ledger_entries ← db_result "update ledger entry log metadata" (db.ledger_entries.update
        (metadata.is_of_entry source) metadata.set_entry metadata.set_entry_keeps_keys)
      .ok
        ({ events_updated := (db.events.rows.filter (metadata.is_of_event source)).length
           ledger_entries_updated :=
             (db.ledger_entries.rows.filter (metadata.is_of_entry source)).length },
         { db with events, ledger_entries })) := by
  unfold update_log_metadata log_metadata
  cases parse_hex_u64 log.log_index with
  | error e => rfl
  | ok log_index =>
  cases parse_hex_u64 log.block_number with
  | error e => rfl
  | ok block_number =>
  cases parse_optional_hex_i32 log.transaction_index with
  | error e => rfl
  | ok transaction_index =>
  simp only [ok_bind]
  -- the casts would unfold
  generalize as_i64 block_number = stored_block
  generalize as_i32 log_index = stored_index
  rfl

/-- A transaction of `update_log_metadata` under way: in its first statement, or with the rows
that one has locked in its second. -/
inductive Repair
  | UpdatingEvents (source : SourceRow) (metadata : LogMetadata) (events : Scan Uuid)
  | UpdatingEntries (source : SourceRow) (metadata : LogMetadata) (events : List Uuid)
      (entries : Scan Uuid)
  deriving DecidableEq, Repr

/-- The events it has locked. -/
def Repair.events_locked : Repair → List Uuid
  | .UpdatingEvents _ _ events => events.locked
  | .UpdatingEntries _ _ events _ => events

/-- The entries it has locked. -/
def Repair.entries_locked : Repair → List Uuid
  | .UpdatingEvents .. => []
  | .UpdatingEntries _ _ _ entries => entries.locked

/-! ## The statements of `orphan_source_range`

The function locks the source, selects the entries of the range, reverses them one after the
other, and marks entries and events with two updates. What it reverses is in its own balances
until it commits, and since it has locked the source nobody else writes these.
-/

/-- The transaction of `orphan_source_range`. What it has reversed is in the balances of its
`own` database. -/
inductive Orphaning
  | Idle
  | SourceLocked
  | Selecting (entries : Scan Uuid)
  | Reversing (reversed rest : List LedgerEntryRow) (own : Db)
  | MarkingEntries (reversed : List LedgerEntryRow) (own : Db) (entries : Scan Uuid)
  | MarkingEvents (reversed : List LedgerEntryRow) (own : Db) (entries : List Uuid)
      (events : Scan Uuid)

/-- The entries it has locked. -/
def Orphaning.entries_locked : Orphaning → List Uuid
  | .Idle => []
  | .SourceLocked => []
  | .Selecting entries => entries.locked
  | .Reversing reversed rest _ => (reversed ++ rest).map (·.id)
  | .MarkingEntries reversed _ entries => reversed.map (·.id) ++ entries.locked
  | .MarkingEvents reversed _ entries _ => reversed.map (·.id) ++ entries

/-- The events it has locked. -/
def Orphaning.events_locked : Orphaning → List Uuid
  | .MarkingEvents _ _ _ events => events.locked
  | _ => []

/-- The entries whose balance effects it has reversed. -/
def Orphaning.reversed : Orphaning → List LedgerEntryRow
  | .Reversing reversed _ _ => reversed
  | .MarkingEntries reversed _ _ => reversed
  | .MarkingEvents reversed _ _ _ => reversed
  | _ => []

/-! ## Both together

The state has what is committed, one orphaning and any number of repairs. A step is a
statement, one look of it, a commit or a rollback, and a look waits until the row is held by
nobody else.
-/

/-- What is committed, the orphaning and the repairs under way. -/
structure RaceState where
  db : Db
  orphaning : Orphaning
  repairs : Nat → Option Repair

/-- Nothing is under way: the orphaning has committed or has not begun, and no repair holds a
row. The runs begin in such a state; between two statements of an orphaning the flags and the
balances may disagree. -/
def RaceState.Quiet (s : RaceState) : Prop := s.orphaning = .Idle ∧ ∀ slot, s.repairs slot = none

/-- A statement of the orphaning, or a row one looks at. -/
inductive OrphanOp
  | lock_source
  | select_entries
  | lock_entry (id : Uuid)
  | load_entries
  | reverse_entry
  | mark_entries
  | mark_entry (id : Uuid)
  | mark_events
  | mark_event (id : Uuid)
  | rollback
  deriving DecidableEq, Repr

/-- The same of a repair. -/
inductive MetadataOp
  | update_events (source : SourceRow) (log : RpcLog)
  | update_event (id : Uuid)
  | update_entries
  | update_entry (id : Uuid)
  | rollback
  deriving DecidableEq, Repr

/-- What may happen next. -/
inductive RaceOp
  | orphan (op : OrphanOp)
  | commit_orphan
  | metadata (slot : Nat) (op : MetadataOp)
  | commit_metadata (slot : Nat)
  deriving DecidableEq, Repr

/-- The database with the balances of another. -/
def Db.with_balances (db own : Db) : Db :=
  { db with next_uuid := own.next_uuid, token_balances := own.token_balances }

section Steps

variable (source : SourceRow) (from_block to_block : Int)

/-- The stored rows with these ids, in their order. -/
def load_rows (db : Db) (ids : List Uuid) : List LedgerEntryRow :=
  ids.filterMap fun id => db.ledger_entries.rows.find? fun row => row.id == id

/-- A statement of the orphaning, up to its commit. An entry or event it looks at is held by no
repair. -/
inductive OrphanStep (s : RaceState) : OrphanOp → Orphaning → Prop
  | lock_source (hphase : s.orphaning = .Idle) (hfrom : 0 ≤ from_block) (hle : from_block ≤ to_block)
      (hlock : lock_source_for_write_conn s.db source.from_source = .ok ()) :
      OrphanStep s .lock_source .SourceLocked
  | select_entries (hphase : s.orphaning = .SourceLocked) :
      OrphanStep s .select_entries (.Selecting (Scan.start LedgerEntryRow.id
        (active_rows_in s.db source.id from_block to_block)))
  /-- The rows of a `SELECT ... FOR UPDATE` are locked in the order they are returned in. -/
  | lock_entry {entries : Scan Uuid} {id : Uuid} {todo : List Uuid}
      (hphase : s.orphaning = .Selecting entries) (hid : entries.todo = id :: todo)
      (hfree : ∀ slot repair, s.repairs slot = some repair → id ∉ repair.entries_locked) :
      OrphanStep s (.lock_entry id) (.Selecting (entries.look LedgerEntryRow.id
        (LedgerEntryRow.active_in source.id from_block to_block) s.db.ledger_entries.rows id))
  | load_entries {entries : Scan Uuid} (hphase : s.orphaning = .Selecting entries)
      (hdone : entries.todo = []) :
      OrphanStep s .load_entries (.Reversing [] (load_rows s.db entries.locked) s.db)
  | reverse_entry {reversed rest : List LedgerEntryRow} {row : LedgerEntryRow} {own own' : Db}
      (hphase : s.orphaning = .Reversing reversed (row :: rest) own)
      (happly : EvmIndexer.reverse_entry source.from_source (s.db.with_balances own) row = .ok own') :
      OrphanStep s .reverse_entry (.Reversing (reversed ++ [row]) rest own')
  /-- An `UPDATE` may look at its rows in any order. -/
  | mark_entries {reversed : List LedgerEntryRow} {own : Db}
      (hphase : s.orphaning = .Reversing reversed [] own) :
      OrphanStep s .mark_entries (.MarkingEntries reversed own (Scan.start LedgerEntryRow.id
        (s.db.ledger_entries.rows.filter (LedgerEntryRow.active_in source.id from_block to_block))))
  | mark_entry {reversed : List LedgerEntryRow} {own : Db} {entries : Scan Uuid} {id : Uuid}
      (hphase : s.orphaning = .MarkingEntries reversed own entries) (hid : id ∈ entries.todo)
      (hfree : ∀ slot repair, s.repairs slot = some repair → id ∉ repair.entries_locked) :
      OrphanStep s (.mark_entry id) (.MarkingEntries reversed own (entries.look LedgerEntryRow.id
        (LedgerEntryRow.active_in source.id from_block to_block) s.db.ledger_entries.rows id))
  | mark_events {reversed : List LedgerEntryRow} {own : Db} {entries : Scan Uuid}
      (hphase : s.orphaning = .MarkingEntries reversed own entries) (hdone : entries.todo = []) :
      OrphanStep s .mark_events (.MarkingEvents reversed own entries.locked (Scan.start EventRow.id
        (s.db.events.rows.filter (EventRow.active_in source.id from_block to_block))))
  | mark_event {reversed : List LedgerEntryRow} {own : Db} {entries : List Uuid}
      {events : Scan Uuid} {id : Uuid}
      (hphase : s.orphaning = .MarkingEvents reversed own entries events) (hid : id ∈ events.todo)
      (hfree : ∀ slot repair, s.repairs slot = some repair → id ∉ repair.events_locked) :
      OrphanStep s (.mark_event id) (.MarkingEvents reversed own entries (events.look EventRow.id
        (EventRow.active_in source.id from_block to_block) s.db.events.rows id))
  | rollback : OrphanStep s .rollback .Idle

/-- A statement of a repair, up to its commit. An event or entry it looks at is held by no other
transaction. -/
inductive MetadataStep (s : RaceState) (slot : Nat) : MetadataOp → Option Repair → Prop
  | update_events {source : SourceRow} {log : RpcLog} {metadata : LogMetadata}
      (hslot : s.repairs slot = none) (hlog : log_metadata log = .ok metadata) :
      MetadataStep s slot (.update_events source log) (some (.UpdatingEvents source metadata
        (Scan.start EventRow.id (s.db.events.rows.filter (metadata.is_of_event source)))))
  | update_event {source : SourceRow} {metadata : LogMetadata} {events : Scan Uuid} {id : Uuid}
      (hslot : s.repairs slot = some (.UpdatingEvents source metadata events))
      (hid : id ∈ events.todo) (hfree : id ∉ s.orphaning.events_locked)
      (hothers : ∀ other repair, other ≠ slot → s.repairs other = some repair →
        id ∉ repair.events_locked) :
      MetadataStep s slot (.update_event id) (some (.UpdatingEvents source metadata
        (events.look EventRow.id (metadata.is_of_event source) s.db.events.rows id)))
  | update_entries {source : SourceRow} {metadata : LogMetadata} {events : Scan Uuid}
      (hslot : s.repairs slot = some (.UpdatingEvents source metadata events))
      (hdone : events.todo = []) :
      MetadataStep s slot .update_entries (some (.UpdatingEntries source metadata events.locked
        (Scan.start LedgerEntryRow.id
          (s.db.ledger_entries.rows.filter (metadata.is_of_entry source)))))
  | update_entry {source : SourceRow} {metadata : LogMetadata} {events : List Uuid}
      {entries : Scan Uuid} {id : Uuid}
      (hslot : s.repairs slot = some (.UpdatingEntries source metadata events entries))
      (hid : id ∈ entries.todo) (hfree : id ∉ s.orphaning.entries_locked)
      (hothers : ∀ other repair, other ≠ slot → s.repairs other = some repair →
        id ∉ repair.entries_locked) :
      MetadataStep s slot (.update_entry id) (some (.UpdatingEntries source metadata events
        (entries.look LedgerEntryRow.id (metadata.is_of_entry source) s.db.ledger_entries.rows id)))
  | rollback : MetadataStep s slot .rollback none

/-- A step of one of the transactions. What it has written is read by the others from its commit
on; a `CHECK` constraint that a repair violates leaves it the rollback. -/
inductive RaceStep (s : RaceState) : RaceOp → RaceState → Prop
  | orphan {op : OrphanOp} {next : Orphaning}
      (h : OrphanStep source from_block to_block s op next) :
      RaceStep s (.orphan op) { s with orphaning := next }
  | commit_orphan {reversed : List LedgerEntryRow} {own : Db} {entries : List Uuid}
      {events : Scan Uuid} {marked : Table LedgerEntryRow} {marked_events : Table EventRow}
      (hphase : s.orphaning = .MarkingEvents reversed own entries events) (hdone : events.todo = [])
      (hentries : s.db.ledger_entries.update (fun row => decide (row.id ∈ entries))
        (LedgerEntryRow.set_orphaned true) (LedgerEntryRow.set_orphaned_keeps_keys true) = some marked)
      (hevents : s.db.events.update (fun row => decide (row.id ∈ events.locked))
        (EventRow.set_orphaned true) (EventRow.set_orphaned_keeps_keys true) = some marked_events) :
      RaceStep s .commit_orphan
        { s with
          db := { s.db.with_balances own with ledger_entries := marked, events := marked_events }
          orphaning := .Idle }
  | metadata {slot : Nat} {op : MetadataOp} {next : Option Repair}
      (h : MetadataStep s slot op next) :
      RaceStep s (.metadata slot op) { s with repairs := Function.update s.repairs slot next }
  | commit_metadata {slot : Nat} {source : SourceRow} {metadata : LogMetadata} {events : List Uuid}
      {entries : Scan Uuid} {updated : Table LedgerEntryRow} {updated_events : Table EventRow}
      (hslot : s.repairs slot = some (.UpdatingEntries source metadata events entries))
      (hdone : entries.todo = [])
      (hentries : s.db.ledger_entries.update (fun row => decide (row.id ∈ entries.locked))
        metadata.set_entry metadata.set_entry_keeps_keys = some updated)
      (hevents : s.db.events.update (fun row => decide (row.id ∈ events))
        metadata.set_event metadata.set_event_keeps_keys = some updated_events) :
      RaceStep s (.commit_metadata slot)
        { s with
          db := { s.db with ledger_entries := updated, events := updated_events }
          repairs := Function.update s.repairs slot none }

end Steps

/-! ## Rows of the table

Locks are kept by id, and the rows behind them are read again when they are needed, as they
are then. For locked rows this is the version that was locked.
-/

/-- An entry is told by its id. -/
theorem entry_eq_of_id (db : Db) {a b : LedgerEntryRow} (ha : a ∈ db.ledger_entries.rows)
    (hb : b ∈ db.ledger_entries.rows) (h : a.id = b.id) : a = b :=
  db.ledger_entries.eq_of_clash ha hb (Or.inl h)

section Load

variable {source : SourceRow} {from_block to_block : Int} {db : Db} {ids : List Uuid}

theorem load_rows_cons {row : LedgerEntryRow} (hrow : row ∈ db.ledger_entries.rows) :
    load_rows db (row.id :: ids) = row :: load_rows db ids := by
  have hfind : db.ledger_entries.rows.find? (fun other => other.id == row.id) = some row :=
    (db.ledger_entries.find?_eq_some_iff fun a _ b _ ha hb =>
      Or.inl ((beq_iff_eq.1 ha).trans (beq_iff_eq.1 hb).symm)).2 ⟨hrow, beq_self_eq_true row.id⟩
  unfold load_rows
  rw [List.filterMap_cons, hfind]

theorem load_rows_of_rows {rows : List LedgerEntryRow}
    (h : ∀ row ∈ rows, row ∈ db.ledger_entries.rows) : load_rows db (rows.map (·.id)) = rows := by
  induction rows with
  | nil => rfl
  | cons row rest ih =>
    rw [List.map_cons, load_rows_cons (h row (List.mem_cons_self ..)),
      ih fun other hother => h other (List.mem_cons_of_mem row hother)]

/-- The rows that were locked are loaded, each in the version that was locked. -/
theorem load_rows_spec (h : Held LedgerEntryRow.id
    (LedgerEntryRow.active_in source.id from_block to_block) db.ledger_entries.rows ids) :
    (load_rows db ids).map (·.id) = ids ∧ ∀ row ∈ load_rows db ids,
      row ∈ db.ledger_entries.rows ∧ row.active_in source.id from_block to_block = true := by
  induction ids with
  | nil => exact ⟨rfl, fun _ hrow => absurd hrow List.not_mem_nil⟩
  | cons id rest ih =>
    obtain ⟨hids, hrows⟩ := ih fun k hk => h k (List.mem_cons_of_mem id hk)
    obtain ⟨row, hrow, hid, hactive⟩ := h id (List.mem_cons_self ..)
    subst hid
    rw [load_rows_cons hrow]
    refine ⟨?_, fun other hother => ?_⟩
    · rw [List.map_cons, hids]
    · rcases List.mem_cons.1 hother with rfl | hother
      · exact ⟨hrow, hactive⟩
      · exact hrows other hother

/-- The rows the `SELECT` starts with. -/
theorem mem_active_rows_in {row : LedgerEntryRow} :
    row ∈ active_rows_in db source.id from_block to_block ↔ row ∈ db.ledger_entries.rows ∧
      row.active_in source.id from_block to_block = true := by
  unfold active_rows_in
  rw [List.mem_insertionSort, List.mem_filter]

/-- Each of them once. -/
theorem active_rows_in_nodup :
    ((active_rows_in db source.id from_block to_block).map LedgerEntryRow.id).Nodup := by
  have hids : (db.ledger_entries.rows.map LedgerEntryRow.id).Nodup := by
    rw [List.Nodup, List.pairwise_map]
    exact db.ledger_entries.unique.imp fun hapart heq => hapart (Or.inl heq)
  exact ((List.perm_insertionSort _ _).map LedgerEntryRow.id).nodup_iff.2
    (hids.sublist (List.filter_sublist.map _))

/-- Rows that are there and match are held. -/
theorem held_of_rows {rows : List LedgerEntryRow} (h : ∀ row ∈ rows,
    row ∈ db.ledger_entries.rows ∧ row.active_in source.id from_block to_block = true) :
    Held LedgerEntryRow.id (LedgerEntryRow.active_in source.id from_block to_block)
      db.ledger_entries.rows (rows.map (·.id)) := by
  intro id hid
  obtain ⟨row, hrow, rfl⟩ := List.mem_map.1 hid
  exact ⟨row, (h row hrow).1, rfl, (h row hrow).2⟩

end Load

/-! ## Each alone

With nothing else under way the statements of each transaction lead from the database before
it to what the function of `LedgerRepository` computes. This ties the two descriptions of the
code together.
-/

/-- At most one repair under way. -/
def under_way (db : Db) (orphaning : Orphaning) (repair : Option Repair) : RaceState :=
  { db, orphaning, repairs := Function.update (fun _ => none) 0 repair }

@[simp] theorem under_way_db (db : Db) (orphaning : Orphaning) (repair : Option Repair) :
    (under_way db orphaning repair).db = db := rfl

theorem under_way_quiet (db : Db) : (under_way db .Idle none).Quiet := by
  refine ⟨rfl, fun slot => ?_⟩
  unfold under_way
  exact congrFun (Function.update_eq_self 0 (fun _ => none)) slot

section UnderWay

variable {source : SourceRow} {from_block to_block : Int} {db : Db} {orphaning : Orphaning}
  {repair : Option Repair}

theorem under_way_orphan {op : OrphanOp} {next next' : Orphaning}
    (h : OrphanStep source from_block to_block (under_way db orphaning repair) op next)
    (hnext : next = next') : RaceStep source from_block to_block (under_way db orphaning repair)
      (.orphan op) (under_way db next' repair) := hnext ▸ RaceStep.orphan h

theorem under_way_metadata {op : MetadataOp} {next next' : Option Repair}
    (h : MetadataStep (under_way db orphaning repair) 0 op next) (hnext : next = next') :
    RaceStep source from_block to_block (under_way db orphaning repair) (.metadata 0 op)
      (under_way db orphaning next') := by
  have hstep : RaceStep source from_block to_block (under_way db orphaning repair) (.metadata 0 op) _ :=
    .metadata h
  unfold under_way at hstep ⊢
  rw [Function.update_idem, hnext] at hstep
  exact hstep

theorem under_way_commit {repaired : SourceRow} {metadata : LogMetadata} {events entries : List Uuid}
    {updated : Table LedgerEntryRow} {updated_events : Table EventRow}
    (hentries : db.ledger_entries.update (fun row => decide (row.id ∈ entries))
      metadata.set_entry metadata.set_entry_keeps_keys = some updated)
    (hevents : db.events.update (fun row => decide (row.id ∈ events))
      metadata.set_event metadata.set_event_keeps_keys = some updated_events) :
    RaceStep source from_block to_block
      (under_way db orphaning (some (.UpdatingEntries repaired metadata events
        { todo := [], locked := entries })))
      (.commit_metadata 0)
      (under_way { db with ledger_entries := updated, events := updated_events } orphaning none) := by
  have hstep : RaceStep source from_block to_block
      (under_way db orphaning (some (.UpdatingEntries repaired metadata events
        { todo := [], locked := entries }))) (.commit_metadata 0) _ :=
    .commit_metadata rfl rfl hentries hevents
  unfold under_way at hstep ⊢
  rw [Function.update_idem] at hstep
  exact hstep

/-- There is no other repair. -/
theorem under_way_eq_some {slot : Nat} {held : Repair}
    (h : (under_way db orphaning repair).repairs slot = some held) : slot = 0 ∧ repair = some held := by
  have hupdate : Function.update (fun _ => none) 0 repair slot = some held := h
  rcases update_eq_some hupdate with hslot | ⟨-, hnone⟩
  · exact hslot
  · cases hnone

end UnderWay

/-- Only the orphaning, in the given phase. -/
abbrev alone (db : Db) (orphaning : Orphaning) : RaceState := under_way db orphaning none

/-- The orphaning goes on. -/
def GoesOn (_ : RaceState) : RaceOp → Prop
  | .orphan op => op ≠ .rollback
  | _ => False

/-- The runs of an orphaning that goes on, with nothing else. -/
abbrev OrphanRun (source : SourceRow) (from_block to_block : Int) :
    RaceState → List RaceOp → RaceState → Prop :=
  Run (Guarded (RaceStep source from_block to_block) GoesOn)

theorem Db.with_balances_of_onlyBalances {db own : Db} (h : OnlyBalances db own) :
    db.with_balances own = own := by
  obtain ⟨hsources, hcheckpoints, hevents, hentries, hjobs, hattempts⟩ := h
  unfold Db.with_balances
  rw [← hsources, ← hcheckpoints, ← hevents, ← hentries, ← hjobs, ← hattempts]

section Alone

variable {source : SourceRow} {from_block to_block : Int} {db : Db}

theorem goes_on {orphaning next : Orphaning} {op : OrphanOp}
    (h : OrphanStep source from_block to_block (alone db orphaning) op next) (hop : op ≠ .rollback) :
    Guarded (RaceStep source from_block to_block) GoesOn (alone db orphaning) (.orphan op)
      (alone db next) := ⟨.orphan h, hop⟩

variable (source from_block to_block db) in
/-- The entries are reversed one after the other. -/
theorem reverse_all (reversed : List LedgerEntryRow) {rest : List LedgerEntryRow} {own mid : Db}
    (hown : OnlyBalances db own)
    (h : rest.foldlM (reverse_entry source.from_source) own = .ok mid) :
    ∃ l, OrphanRun source from_block to_block (alone db (.Reversing reversed rest own)) l
      (alone db (.Reversing (reversed ++ rest) [] mid)) := by
  induction rest generalizing reversed own with
  | nil =>
    rw [List.foldlM_nil, pure_eq_ok] at h
    subst h
    exact ⟨[], by rw [List.append_nil]; exact Run.nil⟩
  | cons row rest ih =>
    rw [List.foldlM_cons, bind_eq_ok] at h
    obtain ⟨own', hrow, hrest⟩ := h
    obtain ⟨hframe, -⟩ := apply_balance_delta_spec hrow
    obtain ⟨l, hl⟩ := ih (reversed ++ [row]) (hown.trans hframe) hrest
    rw [← List.append_cons] at hl
    have hview : reverse_entry source.from_source (db.with_balances own) row = .ok own' := by
      rw [Db.with_balances_of_onlyBalances hown]
      exact hrow
    exact ⟨_, Run.cons (goes_on (.reverse_entry rfl hview) nofun) hl⟩

/-- What has been locked is what the statement's condition selects. -/
theorem update_of_ids {ρ : Type} [Schema ρ] {table updated : Table ρ} {key : ρ → Uuid}
    {p : ρ → Bool} {set : ρ → ρ} {hset : KeepsKeys set}
    (hkey : ∀ a ∈ table.rows, ∀ b ∈ table.rows, key a = key b → a = b)
    (h : table.update p set hset = some updated) :
    table.update (fun row => decide (key row ∈ (table.rows.filter p).map key)) set hset
      = some updated := by
  have hsame : ∀ row ∈ table.rows,
      Table.setRow (fun row => decide (key row ∈ (table.rows.filter p).map key)) set row
        = Table.setRow p set row := by
    intro row hrow
    -- no two rows share the key, so the ids select the same rows
    have hmem : key row ∈ (table.rows.filter p).map key ↔ p row = true := by
      constructor
      · intro hkeys
        obtain ⟨other, hother, heq⟩ := List.mem_map.1 hkeys
        obtain ⟨hmem, hmatch⟩ := List.mem_filter.1 hother
        rw [← hkey other hmem row hrow heq]
        exact hmatch
      · intro hmatch
        exact List.mem_map_of_mem (List.mem_filter.2 ⟨hrow, hmatch⟩)
    unfold Table.setRow
    simp only [hmem, decide_eq_true_eq]
  obtain ⟨hcheck, hrows⟩ := Table.update_eq_some.1 h
  refine Table.update_eq_some.2 ⟨fun row hrow => ?_, ?_⟩
  · rw [hsame row hrow]
    exact hcheck row hrow
  · rw [hrows]
    exact (List.map_congr_left hsame).symm

/-- No repair holds anything. -/
theorem alone_free {orphaning : Orphaning} {P : Repair → Prop} (slot : Nat) (repair : Repair)
    (h : (alone db orphaning).repairs slot = some repair) : P repair := by
  cases (under_way_eq_some h).2

variable (source from_block to_block db) in
/-- The `SELECT` alone: it returns the active rows of the range. -/
theorem select_alone : ∃ l, OrphanRun source from_block to_block (alone db .SourceLocked) l
    (alone db (.Reversing [] (active_rows_in db source.id from_block to_block) db)) := by
  have hrows : ∀ row ∈ active_rows_in db source.id from_block to_block,
      row ∈ db.ledger_entries.rows ∧ row.active_in source.id from_block to_block = true :=
    fun row hrow => mem_active_rows_in.1 hrow
  have hlock : ∀ k todo locked, Guarded (RaceStep source from_block to_block) GoesOn
      (alone db (.Selecting { todo := k :: todo, locked })) (.orphan (.lock_entry k))
      (alone db (.Selecting (Scan.look LedgerEntryRow.id
        (LedgerEntryRow.active_in source.id from_block to_block) db.ledger_entries.rows
        { todo := k :: todo, locked } k))) :=
    fun k todo locked => goes_on (.lock_entry rfl rfl alone_free) nofun
  obtain ⟨l, hlook⟩ := look_all (fun scan => alone db (.Selecting scan)) _ hlock
    ((active_rows_in db source.id from_block to_block).map (·.id)) [] (held_of_rows hrows)
  rw [List.nil_append] at hlook
  have hload := @OrphanStep.load_entries source from_block to_block (alone db (.Selecting
    { todo := [], locked := (active_rows_in db source.id from_block to_block).map (·.id) })) _ rfl rfl
  have hloaded : load_rows db ((active_rows_in db source.id from_block to_block).map (·.id))
      = active_rows_in db source.id from_block to_block :=
    load_rows_of_rows fun row hrow => (hrows row hrow).1
  simp only [under_way_db] at hload
  rw [hloaded] at hload
  exact ⟨_, Run.cons (goes_on (.select_entries rfl) nofun) (hlook.snoc (goes_on hload nofun))⟩

variable (source from_block to_block db) in
/-- The two `UPDATE`s alone: they lock the active entries and events of the range. -/
theorem mark_alone (reversed : List LedgerEntryRow) (own : Db) :
    ∃ l, OrphanRun source from_block to_block (alone db (.Reversing reversed [] own)) l
      (alone db (.MarkingEvents reversed own
        ((db.ledger_entries.rows.filter
          (LedgerEntryRow.active_in source.id from_block to_block)).map LedgerEntryRow.id)
        { todo := []
          locked := (db.events.rows.filter
            (EventRow.active_in source.id from_block to_block)).map EventRow.id })) := by
  -- alone, no row is held by another, so each lock is granted
  have hentry : ∀ k todo locked, Guarded (RaceStep source from_block to_block) GoesOn
      (alone db (.MarkingEntries reversed own { todo := k :: todo, locked })) (.orphan (.mark_entry k))
      (alone db (.MarkingEntries reversed own (Scan.look LedgerEntryRow.id
        (LedgerEntryRow.active_in source.id from_block to_block) db.ledger_entries.rows
        { todo := k :: todo, locked } k))) :=
    fun k todo locked => goes_on (.mark_entry rfl (List.mem_cons_self ..) alone_free) nofun
  have hevent : ∀ entries k todo locked, Guarded (RaceStep source from_block to_block) GoesOn
      (alone db (.MarkingEvents reversed own entries { todo := k :: todo, locked }))
      (.orphan (.mark_event k))
      (alone db (.MarkingEvents reversed own entries (Scan.look EventRow.id
        (EventRow.active_in source.id from_block to_block) db.events.rows
        { todo := k :: todo, locked } k))) :=
    fun entries k todo locked => goes_on (.mark_event rfl (List.mem_cons_self ..) alone_free) nofun
  -- the scan goes over the rows the statement selects, one at a time
  obtain ⟨l, hentries⟩ := look_all (fun scan => alone db (.MarkingEntries reversed own scan)) _ hentry
    _ [] (held_of_filter LedgerEntryRow.id (LedgerEntryRow.active_in source.id from_block to_block)
      db.ledger_entries.rows)
  obtain ⟨m, hevents⟩ := look_all (fun scan => alone db (.MarkingEvents reversed own _ scan)) _
    (hevent _) _ [] (held_of_filter EventRow.id (EventRow.active_in source.id from_block to_block)
      db.events.rows)
  rw [List.nil_append] at hentries hevents
  exact ⟨_, Run.cons (goes_on (.mark_entries rfl) nofun)
    (hentries.append (Run.cons (goes_on (.mark_events rfl rfl) nofun) hevents))⟩

/-- `orphan_source_range` is a run of its statements, with no repair under way. -/
theorem orphan_statements_alone {db' : Db} {summary : OrphanRangeSummary}
    (h : orphan_source_range db source from_block to_block = .ok (summary, db')) :
    ∃ l s, OrphanRun source from_block to_block (alone db .Idle) l s ∧
      RaceStep source from_block to_block s .commit_orphan (alone db' .Idle) := by
  unfold orphan_source_range at h
  simp only [bail_eq_ok, context_eq_ok, bind_eq_ok, db_result_eq_ok] at h
  obtain ⟨hnegative, hle, _, hlock, mid, hmid, marked, hmarked, marked_events, hevents, h⟩ := h
  cases h
  obtain ⟨hframe, -⟩ := reverse_entries_spec hmid
  rw [hframe.ledger_entries] at hmarked
  rw [hframe.events] at hevents
  have hlock_source : OrphanStep source from_block to_block (alone db .Idle) .lock_source
      .SourceLocked := .lock_source rfl (by omega) (by omega) hlock
  obtain ⟨l₁, hselect⟩ := select_alone source from_block to_block db
  obtain ⟨l₂, hreverse⟩ := reverse_all source from_block to_block db [] (OnlyBalances.refl db) hmid
  obtain ⟨l₃, hmark⟩ := mark_alone source from_block to_block db
    ([] ++ active_rows_in db source.id from_block to_block) mid
  have hgoes_on := goes_on hlock_source (by intro heq; cases heq)
  refine ⟨_, _, Run.cons hgoes_on (hselect.append (hreverse.append hmark)), ?_⟩
  -- what is written is what the conditions select
  have hentries := update_of_ids (fun _ ha _ hb => entry_eq_of_id db ha hb) hmarked
  have hevents' := update_of_ids (fun _ ha _ hb heq => db.events.eq_of_clash ha hb (Or.inl heq)) hevents
  have hphase : (alone db (.MarkingEvents
      ([] ++ active_rows_in db source.id from_block to_block) mid
      ((db.ledger_entries.rows.filter
        (LedgerEntryRow.active_in source.id from_block to_block)).map LedgerEntryRow.id)
      { todo := []
        locked := (db.events.rows.filter
          (EventRow.active_in source.id from_block to_block)).map EventRow.id })).orphaning = _ := rfl
  have hcommit : RaceStep source from_block to_block _ .commit_orphan _ :=
    .commit_orphan hphase rfl hentries hevents'
  simp only [under_way_db] at hcommit
  rw [Db.with_balances_of_onlyBalances hframe] at hcommit
  exact hcommit

end Alone

section Metadata

variable {source : SourceRow} {from_block to_block : Int} {db : Db}

/-- `update_log_metadata` is a run of its statements, with no orphaning under way. -/
theorem metadata_statements_alone {db' : Db} {repaired : SourceRow} {log : RpcLog}
    {update : LogMetadataUpdate} (h : update_log_metadata db repaired log = .ok (update, db')) :
    ∃ l, Run (RaceStep source from_block to_block) (alone db .Idle) l (alone db' .Idle) := by
  rw [update_log_metadata_eq] at h
  simp only [bind_eq_ok, db_result_eq_ok] at h
  obtain ⟨metadata, hlog, updated_events, hevents, updated, hentries, h⟩ := h
  cases h
  have hevent : ∀ k todo locked, RaceStep source from_block to_block
      (under_way db .Idle (some (.UpdatingEvents repaired metadata { todo := k :: todo, locked })))
      (.metadata 0 (.update_event k))
      (under_way db .Idle (some (.UpdatingEvents repaired metadata
        (Scan.look EventRow.id (metadata.is_of_event repaired) db.events.rows
          { todo := k :: todo, locked } k)))) :=
    fun k todo locked => under_way_metadata (.update_event rfl (List.mem_cons_self ..)
      List.not_mem_nil fun _ _ hne hother => absurd (under_way_eq_some hother).1 hne) rfl
  have hentry : ∀ events k todo locked, RaceStep source from_block to_block
      (under_way db .Idle
        (some (.UpdatingEntries repaired metadata events { todo := k :: todo, locked })))
      (.metadata 0 (.update_entry k))
      (under_way db .Idle (some (.UpdatingEntries repaired metadata events
        (Scan.look LedgerEntryRow.id (metadata.is_of_entry repaired) db.ledger_entries.rows
          { todo := k :: todo, locked } k)))) :=
    fun events k todo locked => under_way_metadata (.update_entry rfl (List.mem_cons_self ..)
      List.not_mem_nil fun _ _ hne hother => absurd (under_way_eq_some hother).1 hne) rfl
  obtain ⟨l, hfirst⟩ := look_all
    (fun scan => under_way db .Idle (some (.UpdatingEvents repaired metadata scan))) _ hevent _ []
    (held_of_filter EventRow.id (metadata.is_of_event repaired) db.events.rows)
  obtain ⟨m, hsecond⟩ := look_all
    (fun scan => under_way db .Idle (some (.UpdatingEntries repaired metadata
      ((db.events.rows.filter (metadata.is_of_event repaired)).map EventRow.id) scan))) _
    (hentry _) _ []
    (held_of_filter LedgerEntryRow.id (metadata.is_of_entry repaired) db.ledger_entries.rows)
  rw [List.nil_append] at hfirst hsecond
  have hbegin : RaceStep source from_block to_block (alone db .Idle)
      (.metadata 0 (.update_events repaired log)) _ :=
    under_way_metadata (.update_events rfl hlog) rfl
  have hmiddle := hfirst.snoc (under_way_metadata (.update_entries rfl rfl) rfl)
  -- what is written is what the conditions select
  have hentries' := update_of_ids (fun _ ha _ hb => entry_eq_of_id db ha hb) hentries
  have hevents' := update_of_ids (fun _ ha _ hb heq => db.events.eq_of_clash ha hb (Or.inl heq)) hevents
  exact ⟨_, Run.cons hbegin ((hmiddle.append hsecond).snoc (under_way_commit hentries' hevents'))⟩

end Metadata

end EvmIndexer
