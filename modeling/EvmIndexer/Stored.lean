/-
What persisting leaves in `events` and `ledger_entries`, as two upsert loops.

Both tables are written by an upsert that may be followed by a restore, so both are
a `Rule` of the upsert library: which rows conflict, and what the conflicting row
becomes (`EventRow.stored`, `LedgerEntryRow.stored`). `upsert_event_spec` says what
one upsert of an event does, and `persist_decoded_logs_stores` that persisting logs
is the loop of the events' rule on one table and the loop of the entries' rule on the
other.
-/
import EvmIndexer.Replay

set_option autoImplicit false

namespace EvmIndexer

open Sql

/-! ## The two rules

The upserts of the two tables have the same form: a conflict on chain, hash and index, a
`SET` clause that takes some columns over, and a flag that is cleared where the caller
restores. Storing a value twice is storing it once, which makes both of them rules that
settle.
-/

/-- The row an upsert leaves where `old` was stored. -/
def EventRow.stored (options : PersistDecodedLogsOptions) (values old : EventRow) : EventRow :=
  if options.restore_orphaned_conflicts && old.orphaned then
    (values.on_conflict old).set_orphaned false
  else values.on_conflict old

theorem same_log_iff {a b : EventRow} : a.same_log b = true ↔ a.chain_id = b.chain_id ∧
    a.transaction_hash = b.transaction_hash ∧ a.log_index = b.log_index := by
  simp [EventRow.same_log, and_assoc]

/-- What a stored event has of the row it replaces. -/
theorem EventRow.stored_keeps (options : PersistDecodedLogsOptions) (values old : EventRow) :
    (values.stored options old).id = old.id ∧
      (values.stored options old).source_id = old.source_id ∧
      (values.stored options old).chain_id = old.chain_id ∧
      (values.stored options old).transaction_hash = old.transaction_hash ∧
      (values.stored options old).log_index = old.log_index ∧
      (values.stored options old).block_number = old.block_number := by
  unfold EventRow.stored
  split <;> exact ⟨rfl, rfl, rfl, rfl, rfl, rfl⟩

/-- What a stored event takes from the proposed row, and its mark. -/
theorem EventRow.stored_takes (options : PersistDecodedLogsOptions) (values old : EventRow) :
    (values.stored options old).args = values.args ∧
      (values.stored options old).block_hash = values.block_hash ∧
      (values.stored options old).orphaned
        = (old.orphaned && !options.restore_orphaned_conflicts) := by
  unfold EventRow.stored
  cases hrestore : options.restore_orphaned_conflicts <;> cases horphaned : old.orphaned <;>
    simp [EventRow.set_orphaned, EventRow.on_conflict, horphaned]

/-- Storing twice is storing once. -/
theorem EventRow.stored_stored (options : PersistDecodedLogsOptions) (values old : EventRow) :
    values.stored options (values.stored options old) = values.stored options old := by
  unfold EventRow.stored
  by_cases h : (options.restore_orphaned_conflicts && old.orphaned) = true
  · rw [if_pos h, if_neg]
    · rfl
    · simp [EventRow.set_orphaned, EventRow.on_conflict]
  · rw [if_neg h, if_neg]
    · rfl
    · exact h

/-- A new event stored over itself stays. -/
theorem EventRow.stored_self {options : PersistDecodedLogsOptions} {values : EventRow}
    (hactive : values.orphaned = false) (hfinalized : values.finalized = true) :
    values.stored options values = values := by
  unfold EventRow.stored
  rw [if_neg (by simp [hactive])]
  unfold EventRow.on_conflict
  rw [← hfinalized]

theorem LedgerEntryRow.stored_event_id (options : PersistDecodedLogsOptions)
    (values old : LedgerEntryRow) : (values.stored options old).event_id = old.event_id := by
  unfold LedgerEntryRow.stored
  split <;> rfl

theorem LedgerEntryRow.stored_block_number (options : PersistDecodedLogsOptions)
    (values old : LedgerEntryRow) : (values.stored options old).block_number = old.block_number := by
  unfold LedgerEntryRow.stored
  split <;> rfl

/-- What a stored entry takes from the proposed row, and its mark. -/
theorem LedgerEntryRow.stored_takes (options : PersistDecodedLogsOptions)
    (values old : LedgerEntryRow) : (values.stored options old).amount = values.amount ∧
      (values.stored options old).block_hash = values.block_hash ∧
      (values.stored options old).orphaned
        = (old.orphaned && !options.restore_orphaned_conflicts) := by
  unfold LedgerEntryRow.stored
  cases hrestore : options.restore_orphaned_conflicts <;> cases horphaned : old.orphaned <;>
    simp [LedgerEntryRow.set_orphaned, LedgerEntryRow.on_conflict, horphaned]

theorem LedgerEntryRow.stored_stored (options : PersistDecodedLogsOptions)
    (values old : LedgerEntryRow) :
    values.stored options (values.stored options old) = values.stored options old := by
  unfold LedgerEntryRow.stored
  by_cases h : (options.restore_orphaned_conflicts && old.orphaned) = true
  · rw [if_pos h, if_neg]
    · rfl
    · simp [LedgerEntryRow.set_orphaned, LedgerEntryRow.on_conflict]
  · rw [if_neg h, if_neg]
    · rfl
    · exact h

theorem LedgerEntryRow.stored_self {options : PersistDecodedLogsOptions} {values : LedgerEntryRow}
    (hactive : values.orphaned = false) : values.stored options values = values := by
  unfold LedgerEntryRow.stored
  rw [if_neg (by simp [hactive])]
  rfl

/-- The upsert of `events`. -/
def event_rule (options : PersistDecodedLogsOptions) : Upsert.Rule EventRow where
  same := EventRow.same_log
  merge := EventRow.stored options
  same_refl a := same_log_iff.2 ⟨rfl, rfl, rfl⟩
  same_symm h := by
    obtain ⟨h1, h2, h3⟩ := same_log_iff.1 h
    exact same_log_iff.2 ⟨h1.symm, h2.symm, h3.symm⟩
  same_trans h k := by
    obtain ⟨h1, h2, h3⟩ := same_log_iff.1 h
    obtain ⟨k1, k2, k3⟩ := same_log_iff.1 k
    exact same_log_iff.2 ⟨h1.trans k1, h2.trans k2, h3.trans k3⟩
  same_merge values old := by
    obtain ⟨-, -, h1, h2, h3, -⟩ := EventRow.stored_keeps options values old
    exact same_log_iff.2 ⟨h1.symm, h2.symm, h3.symm⟩

/-- The rows of `events` are apart under its upsert. -/
theorem events_apart (options : PersistDecodedLogsOptions) (db : Db) :
    Upsert.Apart (event_rule options) db.events.rows :=
  db.events.unique.imp fun h hsame => h (Or.inr (same_log_iff.1 hsame))

/-- The rows of `ledger_entries` are apart under its upsert. -/
theorem entries_apart (options : PersistDecodedLogsOptions) (db : Db) :
    Upsert.Apart (entry_rule options) db.ledger_entries.rows := by
  refine db.ledger_entries.unique.imp fun h hsame => h (Or.inr ?_)
  obtain ⟨h1, h2, h3, h4⟩ := same_entry_iff.1 hsame
  exact ⟨h1.symm, h2.symm, h3.symm, h4.symm⟩

/-! ## One event

An event is upserted with a fresh identifier, which is only used if there is no conflict.
-/

theorem new_event_row_flags {id : Uuid} {source : SourceRef} {log : RpcLog} {decoded : DecodedLog}
    {values : EventRow} (h : new_event_row id source log decoded = .ok values) :
    values.orphaned = false ∧ values.finalized = true := by
  unfold new_event_row at h
  simp only [bind_eq_ok] at h
  obtain ⟨_, -, _, -, _, -, hv⟩ := h
  rw [← Except.ok.inj hv]
  exact ⟨rfl, rfl⟩

/-- The event is stored in the block of the log. -/
def EventRow.in_block (log : RpcLog) (event : EventRow) : Prop :=
  (parse_hex_u64 log.block_number).toOption.map as_i64 = some event.block_number

instance (log : RpcLog) (event : EventRow) : Decidable (event.in_block log) :=
  inferInstanceAs (Decidable (_ = _))

/-- What the event of a log is stored with. -/
theorem new_event_row_shows {id : Uuid} {source : SourceRef} {log : RpcLog} {decoded : DecodedLog}
    {values : EventRow}
    (h : new_event_row id source log decoded = .ok values) :
    values.args = decoded.entries ∧ values.block_hash = to_ascii_lowercase log.block_hash ∧
      values.source_id = source.id ∧ values.chain_id = source.chain_id ∧ values.in_block log := by
  unfold new_event_row at h
  simp only [bind_eq_ok] at h
  obtain ⟨block_number, hblock, _, -, _, -, hv⟩ := h
  rw [← Except.ok.inj hv]
  refine ⟨rfl, rfl, rfl, rfl, ?_⟩
  unfold EventRow.in_block
  rw [hblock]
  simp only [Except.toOption, Option.map_some]

/-- What upserting an event did: the table is the rule's, an identifier was drawn whether a
row was inserted or not, and the identifier that is returned is that of the stored row. -/
theorem upsert_event_spec {db db' : Db} {source : SourceRef} {log : RpcLog} {decoded : DecodedLog}
    {options : PersistDecodedLogsOptions} {event_id : Uuid}
    (h : upsert_event db source log decoded options = .ok (event_id, db')) :
    ∃ values, new_event_row db.next_uuid source log decoded = .ok values ∧ Schema.Check values ∧
      db' = { db with next_uuid := db.next_uuid + 1, events := db'.events } ∧
      event_id = (Upsert.touched (event_rule options) db.events.rows values).id ∧
      db'.events.rows = Upsert.store (event_rule options) db.events.rows values := by
  have hframe := upsert_event_frame h
  unfold upsert_event at h
  simp only [bind_eq_ok, db_result_eq_ok] at h
  obtain ⟨values, hvalues, ⟨row, events⟩, hupsert, h⟩ := h
  have hactive := (new_event_row_flags hvalues).1
  obtain ⟨hcheck, hcases⟩ := Table.upsert_eq_some hupsert
  refine ⟨values, hvalues, hcheck, hframe, ?_⟩
  unfold Upsert.touched Upsert.store
  -- `on_conflict` found a row, or the new row was inserted
  rcases hcases with ⟨old, hfind, rfl, hupdate⟩ | ⟨hfind, rfl, hinsert⟩
  · have hrule : db.events.rows.find? ((event_rule options).same values) = some old := hfind
    have hold : old ∈ db.events.rows := List.mem_of_find?_eq_some hfind
    have hsame : values.same_log old = true := List.find?_some hfind
    have hrows := Table.update_eq_replace hupdate hsame fun r hr hr' =>
      (events_apart options db).eq_of_same hr hold
        ((event_rule options).same_trans ((event_rule options).same_symm hr') hsame)
    have hmem : values.on_conflict old ∈ events.rows := by
      rw [hrows, mem_replaceRow hold]
      exact Or.inl rfl
    rw [hrule]
    -- the second statement of the source runs only on an orphaned row it may restore
    by_cases hrestore : (options.restore_orphaned_conflicts && old.orphaned) = true
    · have hrestore' : (options.restore_orphaned_conflicts
          && (values.on_conflict old).orphaned) = true := hrestore
      simp only [hrestore', if_true, bind_eq_ok, db_result_eq_ok] at h
      obtain ⟨restored, hset, h⟩ := h
      cases h
      have hset' := Table.update_eq_replace hset (x := values.on_conflict old) (by simp)
        (fun r hr hid => events.eq_of_clash hr hmem (Or.inl (by simpa using hid)))
      have hstored : (event_rule options).merge values old
          = (values.on_conflict old).set_orphaned false := if_pos hrestore
      simp only [hstored]
      refine ⟨rfl, ?_⟩
      rw [hset', hrows, replaceRow_replaceRow]
      intro hin
      exact db.events.eq_of_clash hin hold (Or.inl rfl)
    · have hrestore' : ¬ (options.restore_orphaned_conflicts
          && (values.on_conflict old).orphaned) = true := hrestore
      simp only [hrestore'] at h
      cases h
      have hstored : (event_rule options).merge values old = values.on_conflict old :=
        if_neg hrestore
      simp only [hstored]
      exact ⟨trivial, hrows⟩
  · have hrule : db.events.rows.find? ((event_rule options).same row) = none := hfind
    -- an inserted row is active, so there is nothing to restore
    have hrestore : ¬ (options.restore_orphaned_conflicts && row.orphaned) = true := by
      simp [hactive]
    rw [hrule]
    simp only [hrestore] at h
    cases h
    exact ⟨rfl, (Table.insert_eq_some.1 hinsert).2⟩

/-! ## Upserts that go through

The other direction: values that pass their checks are stored, as long as the identifier for
a new row is not taken.
-/

/-- An event that passes its checks is upserted, unless a new identifier is taken. -/
theorem upsert_event_succeeds (options : PersistDecodedLogsOptions) {db : Db} {source : SourceRef}
    {log : RpcLog} {decoded : DecodedLog} {values : EventRow}
    (hvalues : new_event_row db.next_uuid source log decoded = .ok values)
    (hcheck : Schema.Check values)
    (hfresh : db.events.rows.find? values.same_log = none →
      ∀ r ∈ db.events.rows, r.id ≠ values.id) :
    ∃ event_id db', upsert_event db source log decoded options = .ok (event_id, db') := by
  -- the statement updates the row at the key of the log, or the key is free
  have hupsert : ∃ row events, db.events.upsert values values.same_log values.on_conflict
      values.on_conflict_keeps_keys = some (row, events) := by
    unfold Table.upsert
    rw [if_pos hcheck]
    cases hfind : db.events.rows.find? values.same_log with
    | some old =>
      obtain ⟨events, hupdate⟩ : ∃ events, db.events.update values.same_log values.on_conflict
          values.on_conflict_keeps_keys = some events := by
        refine Table.exists_update fun r hr _ => ?_
        obtain ⟨h1, h2, -, h4, h5⟩ := db.events.checked r hr
        exact ⟨h1, h2, hcheck.2.2.1, h4, h5⟩
      refine ⟨values.on_conflict old, events, ?_⟩
      simp only [hupdate, Option.map_some]
    | none =>
      obtain ⟨events, hinsert⟩ := Table.exists_insert (t := db.events) hcheck (by
        rintro r hr (hid | ⟨h1, h2, h3⟩)
        · exact hfresh hfind r hr hid
        · exact List.find?_eq_none.1 hfind r hr (same_log_iff.2 ⟨h1.symm, h2.symm, h3.symm⟩))
      refine ⟨values, events, ?_⟩
      simp only [hinsert, Option.map_some]
  obtain ⟨row, events, hupsert⟩ := hupsert
  unfold upsert_event
  simp only [hvalues, hupsert, bind_eq_ok, db_result_eq_ok, Except.ok.injEq, exists_eq_left',
    Option.some.injEq]
  split
  · obtain ⟨restored, hrestored⟩ : ∃ restored, events.update (fun r => r.id == row.id)
        (EventRow.set_orphaned false) (EventRow.set_orphaned_keeps_keys false) = some restored :=
      Table.exists_update fun r hr _ => events.checked r hr
    refine ⟨row.id, { db with next_uuid := db.next_uuid + 1, events := restored }, ?_⟩
    simp only [bind_eq_ok, db_result_eq_ok]
    exact ⟨restored, hrestored, rfl⟩
  · exact ⟨row.id, _, rfl⟩

/-- An entry whose log has a number for an index is looked up under its key. -/
theorem lock_existing_of_values {parseAmount : AmountParser} (db : Db) {source : SourceRef}
    {log : RpcLog} {entry : DecodedLedgerEntry} {id event_id : Uuid} {values : LedgerEntryRow}
    (hvalues : new_ledger_entry_row parseAmount id source log event_id entry = .ok values) :
    lock_existing_ledger_entry db source log entry.batch_index
      = .ok (db.ledger_entries.rows.find? values.same_entry) := by
  obtain ⟨-, -, log_index, hlog, hkey⟩ := new_ledger_entry_row_key hvalues
  unfold lock_existing_ledger_entry
  rw [hlog, hkey]
  rfl

/-- An entry that passes its checks is upserted, unless a new identifier is taken. -/
theorem upsert_ledger_entry_succeeds {parseAmount : AmountParser}
    (options : PersistDecodedLogsOptions) {db : Db} {source : SourceRef} {log : RpcLog}
    {event_id : Uuid} {entry : DecodedLedgerEntry} {values : LedgerEntryRow}
    (hvalues : new_ledger_entry_row parseAmount db.next_uuid source log event_id entry = .ok values)
    (hcheck : Schema.Check values)
    (hfresh : db.ledger_entries.rows.find? values.same_entry = none →
      ∀ r ∈ db.ledger_entries.rows, r.id ≠ values.id) :
    ∃ row db', upsert_ledger_entry parseAmount db source log event_id entry options
      = .ok (row, db') := by
  -- the statement itself; restoring a row afterwards changes no column that is checked
  have hupsert : ∃ row ledger_entries, db.ledger_entries.upsert values values.same_entry
      values.on_conflict values.on_conflict_keeps_keys = some (row, ledger_entries) := by
    unfold Table.upsert
    rw [if_pos hcheck]
    cases hfind : db.ledger_entries.rows.find? values.same_entry with
    -- the row there keeps its checks: it takes the amount and the place of the new one
    | some old =>
      obtain ⟨ledger_entries, hupdate⟩ : ∃ ledger_entries, db.ledger_entries.update
          values.same_entry values.on_conflict values.on_conflict_keeps_keys
            = some ledger_entries := by
        refine Table.exists_update fun r hr _ => ?_
        obtain ⟨h1, -, -, h4, h5, h6, -, h8⟩ := db.ledger_entries.checked r hr
        exact ⟨h1, hcheck.2.1, hcheck.2.2.1, h4, h5, h6, hcheck.2.2.2.2.2.2.1, h8⟩
      refine ⟨values.on_conflict old, ledger_entries, ?_⟩
      simp only [hupdate, Option.map_some]
    | none =>
      obtain ⟨ledger_entries, hinsert⟩ := Table.exists_insert (t := db.ledger_entries) hcheck (by
        rintro r hr (hid | ⟨h1, h2, h3, h4⟩)
        · exact hfresh hfind r hr hid
        · exact List.find?_eq_none.1 hfind r hr (same_entry_iff.2 ⟨h1, h2, h3, h4⟩))
      refine ⟨values, ledger_entries, ?_⟩
      simp only [hinsert, Option.map_some]
  obtain ⟨row, ledger_entries, hupsert⟩ := hupsert
  unfold upsert_ledger_entry
  simp only [hvalues, hupsert, bind_eq_ok, db_result_eq_ok, Except.ok.injEq, exists_eq_left',
    Option.some.injEq]
  split
  · obtain ⟨restored, hrestored⟩ : ∃ restored, ledger_entries.update (fun r => r.id == row.id)
        (LedgerEntryRow.set_orphaned false) (LedgerEntryRow.set_orphaned_keeps_keys false)
          = some restored :=
      Table.exists_update fun r hr _ => ledger_entries.checked r hr
    refine ⟨row.set_orphaned false,
      { db with next_uuid := db.next_uuid + 1, ledger_entries := restored }, ?_⟩
    simp only [bind_eq_ok, db_result_eq_ok]
    exact ⟨restored, hrestored, rfl⟩
  · exact ⟨row, _, rfl⟩

/-! ## The loops

The loop of the code goes log by log, and in each log from the event to the entries. The two
tables do not see each other, except that an entry carries the identifier of its event; so
the loop is one loop on each table.
-/

/-- An event without the identifier it was given. -/
def EventRow.forget_id (row : EventRow) : EventRow := { row with id := 0 }

/-- The events a fresh index stores for a list of logs, up to their identifiers. -/
def fresh_events (source : SourceRef) (logs : List (RpcLog × DecodedLog)) :
    Result (List EventRow) :=
  logs.mapM fun log => new_event_row 0 source log.1 log.2

theorem new_event_row_forget_id {id : Uuid} {source : SourceRef} {log : RpcLog}
    {decoded : DecodedLog} {values : EventRow}
    (h : new_event_row id source log decoded = .ok values) :
    new_event_row 0 source log decoded = .ok values.forget_id := by
  unfold new_event_row at h ⊢
  simp only [bind_eq_ok] at h ⊢
  obtain ⟨block_number, hblock, transaction_index, htx, log_index, hlog, hv⟩ := h
  refine ⟨block_number, hblock, transaction_index, htx, log_index, hlog, ?_⟩
  cases hv
  simp only [EventRow.forget_id]

/-- The loop over the entries is the loop of their rule. -/
theorem StoredAs.storeAll {options : PersistDecodedLogsOptions} {source_id : Uuid}
    {rows vs rows' : List LedgerEntryRow} (h : StoredAs options source_id rows vs rows') :
    rows' = Upsert.storeAll (entry_rule options) rows vs := by
  induction h with
  | nil => rfl
  | cons _ _ ih =>
    rw [ih, store_entry_eq]
    rfl

section Persist

variable {parseAmount : AmountParser} {source : SourceRef} {options : PersistDecodedLogsOptions}

/-- What persisting logs did to `events`. -/
def StoresEvents (source : SourceRef) (options : PersistDecodedLogsOptions)
    (logs : List (RpcLog × DecodedLog)) (db db' : Db) : Prop :=
  ∃ es : List EventRow, (∀ e ∈ es, Schema.Check e ∧ e.orphaned = false ∧ e.finalized = true) ∧
    fresh_events source logs = .ok (es.map EventRow.forget_id) ∧
    db'.events.rows = Upsert.storeAll (event_rule options) db.events.rows es

/-- Persisting an entry writes no event. -/
theorem persist_entry_frame {log : RpcLog} {event_id : Uuid} {entry : DecodedLedgerEntry}
    {db db' : Db} (h : persist_entry parseAmount source log event_id options db entry = .ok db') :
    db'.events = db.events ∧ db'.sources = db.sources := by
  obtain ⟨previous, current, mid, hprev, -, hupsert, happly⟩ := persist_entry_spec h
  obtain ⟨hframe, -⟩ := apply_balance_delta_spec happly
  obtain ⟨-, ledger_entries, -, -, hmid, -, -⟩ := upsert_ledger_entry_spec hprev hupsert
  rw [hframe.events, hframe.sources, hmid]
  exact ⟨rfl, rfl⟩

theorem persist_entries_frame {log : RpcLog} {event_id : Uuid} {entries : List DecodedLedgerEntry}
    {db db' : Db}
    (h : entries.foldlM (persist_entry parseAmount source log event_id options) db = .ok db') :
    db'.events = db.events ∧ db'.sources = db.sources :=
  foldlM_relates (R := fun s t : Db => t.events = s.events ∧ t.sources = s.sources)
    (fun _ => ⟨rfl, rfl⟩) (fun hst htu => ⟨htu.1.trans hst.1, htu.2.trans hst.2⟩)
    (fun _ _ _ _ => persist_entry_frame) h

theorem persist_logs_stores_events {logs : List (RpcLog × DecodedLog)} {db db' : Db}
    (h : logs.foldlM (persist_log parseAmount source options) db = .ok db') :
    StoresEvents source options logs db db' := by
  induction logs generalizing db with
  | nil =>
    rw [List.foldlM_nil, pure_eq_ok] at h
    subst h
    exact ⟨[], fun e he => absurd he List.not_mem_nil, rfl, rfl⟩
  | cons log rest ih =>
    rw [List.foldlM_cons, bind_eq_ok] at h
    obtain ⟨mid, hlog, hrest⟩ := h
    unfold persist_log at hlog
    rw [bind_eq_ok] at hlog
    obtain ⟨⟨event_id, first⟩, hevent, hentries⟩ := hlog
    obtain ⟨values, hvalues, hcheck, -, -, hrows⟩ := upsert_event_spec hevent
    obtain ⟨hevents, -⟩ := persist_entries_frame hentries
    obtain ⟨es, hes, hfresh, hstored⟩ := ih hrest
    -- the first log stores its event, its entries store none
    refine ⟨values :: es, ?_, ?_, ?_⟩
    · intro e he
      rcases List.mem_cons.1 he with rfl | he
      · exact ⟨hcheck, new_event_row_flags hvalues⟩
      · exact hes e he
    · unfold fresh_events at hfresh ⊢
      rw [List.mapM_cons, new_event_row_forget_id hvalues, hfresh]
      rfl
    · rw [hstored, hevents, hrows]
      rfl

theorem lock_source_for_write_conn_iff {db : Db} :
    lock_source_for_write_conn db source = .ok () ↔ ∃ row ∈ db.sources.rows, row.id = source.id := by
  unfold lock_source_for_write_conn
  cases hfind : db.sources.rows.find? (fun r => r.id == source.id) with
  | some row =>
    simp only [true_iff]
    exact ⟨row, List.mem_of_find?_eq_some hfind, by simpa using List.find?_some hfind⟩
  | none =>
    simp only [reduceCtorEq, false_iff]
    rintro ⟨row, hrow, hid⟩
    exact List.find?_eq_none.1 hfind row hrow (beq_iff_eq.2 hid)

/-- A call commits what its loop leaves. -/
theorem persist_decoded_logs_iff {logs : List (RpcLog × DecodedLog)} {db db' : Db} :
    (∃ summary, persist_decoded_logs_with_options parseAmount db source logs options
        = .ok (summary, db')) ↔
      (∃ row ∈ db.sources.rows, row.id = source.id) ∧
        logs.foldlM (persist_log parseAmount source options) db = .ok db' := by
  rw [← lock_source_for_write_conn_iff]
  unfold persist_decoded_logs_with_options
  simp only [context_eq_ok, bind_eq_ok]
  constructor
  · rintro ⟨summary, _, hlock, mid, hlogs, h⟩
    cases h
    exact ⟨hlock, hlogs⟩
  · rintro ⟨hlock, hlogs⟩
    exact ⟨_, (), hlock, db', hlogs, rfl⟩

/-- Persisting logs leaves the sources alone. -/
theorem persist_decoded_logs_sources {logs : List (RpcLog × DecodedLog)} {summary : ScanSummary}
    {db db' : Db} (h : persist_decoded_logs_with_options parseAmount db source logs options
      = .ok (summary, db')) : db'.sources = db.sources :=
  persist_decoded_logs_relates (R := fun s t : Db => t.sources = s.sources) (fun _ => rfl)
    (fun hst htu => htu.trans hst) (fun _ _ => rfl) (fun hentry => (persist_entry_frame hentry).2) h

/-- What was persisted passed its checks. -/
theorem persist_decoded_logs_checked {logs : List (RpcLog × DecodedLog)} {summary : ScanSummary}
    {db db' : Db} (h : persist_decoded_logs_with_options parseAmount db source logs options
      = .ok (summary, db')) {log : RpcLog × DecodedLog} (hlog : log ∈ logs)
    {entry : DecodedLedgerEntry} (hentry : entry ∈ log.2.entries) :
    ∃ values, new_ledger_entry_row parseAmount 0 source log.1 0 entry = .ok values ∧
      Schema.Check values := by
  unfold persist_decoded_logs_with_options at h
  simp only [context_eq_ok, bind_eq_ok] at h
  obtain ⟨_, -, mid, hlogs, -⟩ := h
  obtain ⟨_, _, hturn⟩ := exists_turn_of_foldlM hlogs hlog
  unfold persist_log at hturn
  rw [bind_eq_ok] at hturn
  obtain ⟨⟨event_id, _⟩, -, hentries⟩ := hturn
  obtain ⟨s, t, hturn⟩ := exists_turn_of_foldlM hentries hentry
  obtain ⟨previous, current, _, hprev, -, hupsert, -⟩ := persist_entry_spec hturn
  obtain ⟨values, -, hvalues, hcheck, -⟩ := upsert_ledger_entry_spec hprev hupsert
  exact ⟨values.forget_ids, new_ledger_entry_row_forget_ids hvalues, hcheck⟩

/-- Persisting logs is the loop of each rule on its table. -/
theorem persist_decoded_logs_stores {logs : List (RpcLog × DecodedLog)} {summary : ScanSummary}
    {db db' : Db} (h : persist_decoded_logs_with_options parseAmount db source logs options
      = .ok (summary, db')) :
    StoresEvents source options logs db db' ∧
      StoresEntries parseAmount source options (log_entries logs) db db' := by
  refine ⟨?_, persist_decoded_logs_rows h⟩
  unfold persist_decoded_logs_with_options at h
  simp only [context_eq_ok, bind_eq_ok] at h
  obtain ⟨_, -, mid, hlogs, h⟩ := h
  cases h
  exact persist_logs_stores_events hlogs

end Persist

/-! ## Logs with keys of their own

The response of an RPC could have a log twice. Where it does not, and no log has two entries
with one batch index, the loops meet no row that they have stored themselves.
-/

/-- The key a log is stored under: its transaction hash in lower case, and its log
index as the column holds it. -/
def stored_key (log : RpcLog) : String × Option Int :=
  (to_ascii_lowercase log.transaction_hash, (parse_hex_u64 log.log_index).toOption.map as_i32)

/-- The event is stored under the key of the log. -/
def EventRow.at_log (source : SourceRef) (log : RpcLog) (event : EventRow) : Prop :=
  event.chain_id = source.chain_id ∧
    (event.transaction_hash, some event.log_index) = stored_key log

instance (source : SourceRef) (log : RpcLog) (event : EventRow) :
    Decidable (event.at_log source log) := inferInstanceAs (Decidable (_ ∧ _))

/-- No two of the logs are stored under one key, nor two entries of one log. Logs of one
chain have this as long as their indexes fit 32 bits, and the decoder numbers the entries of
a batch. -/
structure DistinctStored (logs : List (RpcLog × DecodedLog)) : Prop where
  keys : (logs.map fun log => stored_key log.1).Nodup
  batch : ∀ log ∈ logs, (log.2.entries.map (·.batch_index)).Nodup

section Distinct

variable {parseAmount : AmountParser} {source : SourceRef} {logs : List (RpcLog × DecodedLog)}

theorem stored_key_of_event {id : Uuid} {log : RpcLog} {decoded : DecodedLog} {values : EventRow}
    (h : new_event_row id source log decoded = .ok values) :
    (values.transaction_hash, some values.log_index) = stored_key log := by
  unfold new_event_row at h
  simp only [bind_eq_ok] at h
  obtain ⟨_, -, _, -, log_index, hlog, hv⟩ := h
  unfold stored_key
  rw [← Except.ok.inj hv, hlog]
  simp only [Except.toOption, Option.map_some]

theorem stored_key_of_entry {id event_id : Uuid} {log : RpcLog} {entry : DecodedLedgerEntry}
    {values : LedgerEntryRow}
    (h : new_ledger_entry_row parseAmount id source log event_id entry = .ok values) :
    ((values.transaction_hash, some values.log_index), values.batch_index)
      = (stored_key log, entry.batch_index) := by
  unfold new_ledger_entry_row at h
  simp only [bind_eq_ok] at h
  obtain ⟨_, -, _, -, _, -, log_index, hlog, hv⟩ := h
  unfold stored_key
  rw [← Except.ok.inj hv, hlog]
  simp only [Except.toOption, Option.map_some]

/-- The events of such logs are apart. -/
theorem fresh_events_apart {options : PersistDecodedLogsOptions} {es : List EventRow}
    (hdistinct : DistinctStored logs)
    (hfresh : fresh_events source logs = .ok (es.map EventRow.forget_id)) :
    Upsert.Apart (event_rule options) es := by
  have hkeys := map_eq_of_mapM (g := fun e : EventRow => (e.transaction_hash, some e.log_index))
    (k := fun log : RpcLog × DecodedLog => stored_key log.1) hfresh
    (fun log e he => stored_key_of_event he)
  have hnodup := hdistinct.keys
  rw [← hkeys, List.map_map] at hnodup
  refine (List.pairwise_map.1 hnodup).imp fun hne hsame => hne ?_
  obtain ⟨-, hhash, hindex⟩ := same_log_iff.1 hsame
  show (_, some _) = (_, some _)
  exact Prod.ext hhash (congrArg some hindex)

/-- The entries of such logs have distinct keys. Keys of different logs differ in the log,
and those of one log in the batch index. -/
theorem fresh_rows_distinct {vs : List LedgerEntryRow} (hdistinct : DistinctStored logs)
    (hfresh : fresh_rows parseAmount source logs = .ok (vs.map LedgerEntryRow.forget_ids)) :
    DistinctKeys vs := by
  have hkeys := map_eq_of_mapM
    (g := fun v : LedgerEntryRow => ((v.transaction_hash, some v.log_index), v.batch_index))
    (k := fun entry : RpcLog × DecodedLedgerEntry => (stored_key entry.1, entry.2.batch_index))
    hfresh (fun entry v hv => stored_key_of_entry hv)
  -- the entries of one log differ in the batch index, those of two logs in the key
  have hnodup : ((log_entries logs).map fun entry =>
      (stored_key entry.1, entry.2.batch_index)).Nodup := by
    unfold log_entries
    rw [List.map_flatMap]
    refine List.nodup_flatMap.2 ⟨fun log hlog => ?_, ?_⟩
    · rw [List.map_map]
      refine (List.pairwise_map.2 ((List.pairwise_map.1 (hdistinct.batch log hlog)).imp ?_))
      intro a b hab heq
      exact hab (Prod.ext_iff.1 heq).2
    · refine (List.pairwise_map.1 hdistinct.keys).imp fun {a b} hab => ?_
      intro key ha hb
      simp only [List.map_map] at ha hb
      obtain ⟨_, -, rfl⟩ := List.mem_map.1 ha
      obtain ⟨_, -, heq⟩ := List.mem_map.1 hb
      exact hab (Prod.ext_iff.1 heq).1.symm
  rw [← hkeys, List.map_map] at hnodup
  refine (List.pairwise_map.1 hnodup).imp fun hne hsame => hne ?_
  obtain ⟨-, hhash, hindex, hbatch⟩ := same_entry_iff.1 hsame
  show ((_, some _), _) = ((_, some _), _)
  exact Prod.ext (Prod.ext hhash.symm (congrArg some hindex.symm)) hbatch.symm

end Distinct

/-! ## Fresh identifiers

Rows get their identifiers from the generator, so every stored identifier is behind it.
Without that an insert could clash with a stored row that is not the one of its key.
-/

/-- The next uuid is not the id of an event or of a ledger entry. -/
structure FreshRowIds (db : Db) : Prop where
  events : ∀ e ∈ db.events.rows, e.id < db.next_uuid
  entries : ∀ r ∈ db.ledger_entries.rows, r.id < db.next_uuid

/-- Balances draw uuids and give none back. -/
theorem apply_balance_delta_uuid {db db' : Db} {source : SourceRef}
    {previous : Option LedgerEntryRow} {current : LedgerEntryRow}
    (h : apply_balance_delta db source previous current = .ok db') : db.next_uuid ≤ db'.next_uuid := by
  refine foldlM_relates (R := fun s t : Db => s.next_uuid ≤ t.next_uuid) (fun _ => le_refl _)
    le_trans (fun delta _ s t hdelta => ?_) h
  unfold apply_holder_balance_delta at hdelta
  simp only [bail_eq_ok] at hdelta
  obtain ⟨-, hdelta⟩ := hdelta
  split at hdelta
  · simp only [bind_eq_ok, db_result_eq_ok] at hdelta
    obtain ⟨token_balances, -, hdelta⟩ := hdelta
    cases hdelta
    exact le_refl _
  · split at hdelta
    · cases hdelta
      exact le_refl _
    · simp only [bind_eq_ok, db_result_eq_ok] at hdelta
      obtain ⟨token_balances, -, hdelta⟩ := hdelta
      cases hdelta
      exact Nat.le_succ _

theorem FreshRowIds.of_balances {db db' : Db} (h : FreshRowIds db) (hframe : OnlyBalances db db')
    (huuid : db.next_uuid ≤ db'.next_uuid) : FreshRowIds db' := by
  refine ⟨fun e he => ?_, fun r hr => ?_⟩
  · rw [hframe.events] at he
    exact lt_of_lt_of_le (h.events e he) huuid
  · rw [hframe.ledger_entries] at hr
    exact lt_of_lt_of_le (h.entries r hr) huuid

/-- A `SET` clause that leaves the ids alone keeps them fresh. -/
theorem id_lt_of_mem_setRow {ρ : Type} [Schema ρ] (id : ρ → Uuid) {next : Uuid} {rows : List ρ}
    {p : ρ → Bool} {set : ρ → ρ} (hset : ∀ r, id (set r) = id r) (h : ∀ r ∈ rows, id r < next) :
    ∀ r ∈ rows.map (Table.setRow p set), id r < next := by
  intro r hr
  obtain ⟨old, hold, rfl⟩ := List.mem_map.1 hr
  rw [Table.setRow_keeps id p old hset]
  exact h old hold

/-- An upsert that gives a new row the next id keeps the ids fresh. -/
theorem id_lt_of_mem_store {ρ : Type} [DecidableEq ρ] {rule : Upsert.Rule ρ} (id : ρ → Uuid)
    {next : Uuid} {rows : List ρ} {value : ρ} (hmerge : ∀ old, id (rule.merge value old) = id old)
    (hvalue : id value = next) (h : ∀ r ∈ rows, id r < next) :
    ∀ r ∈ Upsert.store rule rows value, id r < next + 1 := by
  intro r hr
  unfold Upsert.store at hr
  cases hfind : rows.find? (rule.same value) with
  | none =>
    rw [hfind, List.mem_append, List.mem_singleton] at hr
    rcases hr with hr | rfl
    · exact Nat.lt_succ_of_lt (h r hr)
    · exact hvalue ▸ Nat.lt_succ_self _
  | some old =>
    have hold := List.mem_of_find?_eq_some hfind
    rw [hfind, mem_replaceRow hold] at hr
    rcases hr with rfl | ⟨hr, -⟩
    · rw [hmerge]
      exact Nat.lt_succ_of_lt (h old hold)
    · exact Nat.lt_succ_of_lt (h r hr)

theorem new_event_row_gets_id {id : Uuid} {source : SourceRef} {log : RpcLog} {decoded : DecodedLog}
    {values : EventRow} (h : new_event_row id source log decoded = .ok values) : values.id = id := by
  unfold new_event_row at h
  simp only [bind_eq_ok] at h
  obtain ⟨_, -, _, -, _, -, hv⟩ := h
  rw [← Except.ok.inj hv]

section Fresh

variable {parseAmount : AmountParser} {source : SourceRef} {options : PersistDecodedLogsOptions}

theorem new_ledger_entry_row_gets_ids {id event_id : Uuid} {log : RpcLog}
    {entry : DecodedLedgerEntry} {values : LedgerEntryRow}
    (h : new_ledger_entry_row parseAmount id source log event_id entry = .ok values) :
    values.id = id ∧ values.event_id = event_id := by
  unfold new_ledger_entry_row at h
  simp only [bind_eq_ok] at h
  obtain ⟨_, -, _, -, _, -, _, -, hv⟩ := h
  rw [← Except.ok.inj hv]
  exact ⟨rfl, rfl⟩

theorem upsert_event_freshRowIds {log : RpcLog} {decoded : DecodedLog} {event_id : Uuid}
    {db db' : Db} (h : upsert_event db source log decoded options = .ok (event_id, db'))
    (hfresh : FreshRowIds db) : FreshRowIds db' := by
  obtain ⟨values, hvalues, -, hframe, -, hrows⟩ := upsert_event_spec h
  have huuid : db'.next_uuid = db.next_uuid + 1 := by rw [hframe]
  refine ⟨?_, fun r hr => ?_⟩
  · rw [hrows, huuid]
    exact id_lt_of_mem_store EventRow.id (fun old => (EventRow.stored_keeps options _ old).1)
      (new_event_row_gets_id hvalues) hfresh.events
  · have hentries : db'.ledger_entries = db.ledger_entries := by rw [hframe]
    rw [hentries] at hr
    exact huuid ▸ Nat.lt_succ_of_lt (hfresh.entries r hr)

theorem persist_entry_freshRowIds {log : RpcLog} {event_id : Uuid} {entry : DecodedLedgerEntry}
    {db db' : Db} (h : persist_entry parseAmount source log event_id options db entry = .ok db')
    (hfresh : FreshRowIds db) : FreshRowIds db' := by
  obtain ⟨previous, current, mid, hprev, -, hupsert, happly⟩ := persist_entry_spec h
  obtain ⟨hframe, -⟩ := apply_balance_delta_spec happly
  obtain ⟨values, ledger_entries, hvalues, -, hmid, hlookup, hrows⟩ :=
    upsert_ledger_entry_spec hprev hupsert
  have hstored : mid.ledger_entries.rows
      = Upsert.store (entry_rule options) db.ledger_entries.rows values := by
    rw [← store_entry_eq, hmid]
    unfold store_entry
    rw [← hlookup]
    rcases hrows with ⟨rfl, rfl, hrows⟩ | ⟨old, rfl, -, -, rfl, hrows⟩
    · exact hrows
    · exact hrows
  -- a row that is there keeps its id
  have hid : ∀ old : LedgerEntryRow, (values.stored options old).id = old.id := by
    intro old
    unfold LedgerEntryRow.stored
    split <;> rfl
  have huuid : mid.next_uuid = db.next_uuid + 1 := by rw [hmid]
  have hevents : mid.events = db.events := by rw [hmid]
  -- the entry has drawn one id; a new balance draws the next
  have hfirst : FreshRowIds mid := by
    refine ⟨fun e he => ?_, ?_⟩
    · rw [hevents] at he
      exact huuid ▸ Nat.lt_succ_of_lt (hfresh.events e he)
    · rw [hstored, huuid]
      exact id_lt_of_mem_store LedgerEntryRow.id hid
        (new_ledger_entry_row_gets_ids hvalues).1 hfresh.entries
  exact hfirst.of_balances hframe (apply_balance_delta_uuid happly)

theorem persist_log_freshRowIds {log : RpcLog × DecodedLog} {db db' : Db}
    (h : persist_log parseAmount source options db log = .ok db') (hfresh : FreshRowIds db) :
    FreshRowIds db' := by
  unfold persist_log at h
  rw [bind_eq_ok] at h
  obtain ⟨⟨event_id, mid⟩, hevent, hentries⟩ := h
  exact foldlM_relates (R := fun s t : Db => FreshRowIds s → FreshRowIds t) (fun _ => id)
    (fun hst htu hs => htu (hst hs)) (fun _ _ _ _ => persist_entry_freshRowIds) hentries
    (upsert_event_freshRowIds hevent hfresh)

theorem LedgerOp.apply_freshRowIds {db db' : Db} {op : LedgerOp}
    (h : op.apply parseAmount db = .ok db') (hfresh : FreshRowIds db) : FreshRowIds db' := by
  cases op with
  | ensure_source chain_id name contract_address standard start_block =>
    obtain ⟨row, hrow⟩ := map_snd_eq_ok.1 h
    rw [ensure_source_frame hrow]
    exact ⟨fun e he => Nat.lt_succ_of_lt (hfresh.events e he),
      fun r hr => Nat.lt_succ_of_lt (hfresh.entries r hr)⟩
  | persist_decoded_logs_with_options source logs options =>
    obtain ⟨summary, hsummary⟩ := map_snd_eq_ok.1 h
    exact foldlM_relates (R := fun s t : Db => FreshRowIds s → FreshRowIds t) (fun _ => id)
      (fun hst htu hs => htu (hst hs)) (fun _ _ _ _ => persist_log_freshRowIds)
      (persist_decoded_logs_iff.1 ⟨summary, hsummary⟩).2 hfresh
  | orphan_source_range source from_block to_block =>
    obtain ⟨summary, hsummary⟩ := map_snd_eq_ok.1 h
    obtain ⟨mid, hmid, hdb, hentry_rows, hevent_rows⟩ := orphan_source_range_spec hsummary
    -- the balances that are reversed may take ids, the rows keep theirs
    have hloop : db.next_uuid ≤ mid.next_uuid :=
      foldlM_relates (R := fun s t : Db => s.next_uuid ≤ t.next_uuid) (fun _ => le_refl _)
        le_trans (fun _ _ _ _ => apply_balance_delta_uuid) hmid
    have huuid : db.next_uuid ≤ db'.next_uuid := by
      rw [hdb]
      exact hloop
    refine ⟨?_, ?_⟩
    · rw [hevent_rows]
      exact id_lt_of_mem_setRow EventRow.id (fun _ => rfl)
        fun e he => lt_of_lt_of_le (hfresh.events e he) huuid
    · rw [hentry_rows]
      exact id_lt_of_mem_setRow LedgerEntryRow.id (fun _ => rfl)
        fun r hr => lt_of_lt_of_le (hfresh.entries r hr) huuid
  | update_log_metadata source log =>
    obtain ⟨summary, hsummary⟩ := map_snd_eq_ok.1 h
    unfold EvmIndexer.update_log_metadata at hsummary
    simp only [bind_eq_ok, db_result_eq_ok] at hsummary
    obtain ⟨_, -, _, -, _, -, events, hevents, ledger_entries, hentries, hdb⟩ := hsummary
    cases hdb
    refine ⟨?_, ?_⟩
    · rw [(Table.update_eq_some.1 hevents).2]
      exact id_lt_of_mem_setRow EventRow.id (fun _ => rfl) hfresh.events
    · rw [(Table.update_eq_some.1 hentries).2]
      exact id_lt_of_mem_setRow LedgerEntryRow.id (fun _ => rfl) hfresh.entries

/-- In every database of the ledger the next uuid is new to events and entries. -/
theorem LedgerReachable.freshRowIds {db : Db} (h : LedgerReachable parseAmount db) :
    FreshRowIds db := by
  have hempty : FreshRowIds Db.empty :=
    ⟨fun e he => absurd he List.not_mem_nil, fun r hr => absurd hr List.not_mem_nil⟩
  refine ledger_invariant (I := FreshRowIds) hempty ?_ ?_ h
  · intro db op db' hdb hop
    exact LedgerOp.apply_freshRowIds hop hdb
  · intro db db' hdb hsame
    refine ⟨fun e he => ?_, fun r hr => ?_⟩
    · rw [hsame.next_uuid]
      exact hdb.events e (hsame.events.mem_iff.2 he)
    · rw [hsame.next_uuid]
      exact hdb.entries r (hsame.ledger_entries.mem_iff.2 hr)

end Fresh

end EvmIndexer
