/-
When `events` and `ledger_entries` agree.

An event keeps its decoded entries in `args`, and each entry has a row of
`ledger_entries`. The two tables are written by upserts that overwrite different
columns: an event gets new `args`, an entry keeps the parties, the token and the block
number it was first stored with. So they only agree while a log that is persisted
again says what is stored (`LogAgrees`): the rows of its event are among its entries
with the parties they have, and an entry without a row finds the event in its block,
of its source and active.

Orphaning and repairing need no condition: an entry has the source, the log and the
block of its event, so whatever selects the one by these selects the other. That is
the second half of the invariant (`Agreement`), and the main result is that a run
whose persists meet the condition keeps it (`events_agree`).
-/
import EvmIndexer.Reingest

set_option autoImplicit false

namespace EvmIndexer

open Sql Transition

/-! ## What a row shows of an entry

An event has the list of its entries in `args`, a row has one of them in its columns. The
columns split into those an upsert writes again (hash, time, amount) and those it keeps from
the first time (parties, token, block). The second kind is `EntryColumns`, and it is where
the two tables can come apart.
-/

/-- The columns of an entry that an upsert stores once and then keeps. -/
structure EntryColumns where
  token_standard : TokenStandard
  operator_address : Option String
  from_address : Option String
  to_address : Option String
  token_id : String
  deriving DecidableEq, Repr

/-- The kept columns a row has. -/
def LedgerEntryRow.columns (row : LedgerEntryRow) : EntryColumns :=
  { token_standard := row.token_standard
    operator_address := row.operator_address
    from_address := row.from_address
    to_address := row.to_address
    token_id := row.token_id }

/-- The kept columns an entry is stored with. -/
def DecodedLedgerEntry.columns (entry : DecodedLedgerEntry) : EntryColumns :=
  { token_standard := entry.token_standard
    operator_address := entry.operator.map to_ascii_lowercase
    from_address := non_zero_address entry.«from»
    to_address := non_zero_address entry.«to»
    token_id := entry.token_id }

section Agreement

variable (parseAmount : AmountParser)

/-- The amount an entry is stored with. -/
def DecodedLedgerEntry.stored_amount (entry : DecodedLedgerEntry) : Result Int :=
  (parse_amount parseAmount entry.amount).map numeric_78_0

/-- The row has the parties, the token and the amount of the entry. -/
def RowShows (entry : DecodedLedgerEntry) (row : LedgerEntryRow) : Prop :=
  entry.columns = row.columns ∧ entry.stored_amount parseAmount = .ok row.amount

/-- A row of an event is one of its entries, in its block, and orphaned if it is. -/
structure RowAgrees (event : EventRow) (row : LedgerEntryRow) : Prop where
  entry : ∃ entry ∈ event.args, entry.batch_index = row.batch_index
  shows : ∀ entry ∈ event.args, entry.batch_index = row.batch_index → RowShows parseAmount entry row
  block_number : row.block_number = event.block_number
  block_hash : row.block_hash = event.block_hash
  orphaned : row.orphaned = event.orphaned

/-- The two tables agree: every row of an event agrees with it, and every entry of an
event has a row. -/
structure EventsAgree (db : Db) : Prop where
  rows : ∀ event ∈ db.events.rows, ∀ row ∈ db.ledger_entries.rows, row.event_id = event.id →
    RowAgrees parseAmount event row
  entries : ∀ event ∈ db.events.rows, ∀ entry ∈ event.args,
    ∃ row ∈ db.ledger_entries.rows, row.event_id = event.id ∧ row.batch_index = entry.batch_index

/-- A row is of the source and the log of its event. -/
structure BelongsTo (event : EventRow) (row : LedgerEntryRow) : Prop where
  source_id : row.source_id = event.source_id
  chain_id : row.chain_id = event.chain_id
  transaction_hash : row.transaction_hash = event.transaction_hash
  log_index : row.log_index = event.log_index

/-- The tables agree, and every row belongs to an event. -/
structure Agreement (db : Db) : Prop extends EventsAgree parseAmount db where
  owner : ∀ row ∈ db.ledger_entries.rows, ∃ event ∈ db.events.rows,
    row.event_id = event.id ∧ BelongsTo event row
  fresh : FreshRowIds db

/-! ## When a persisted log agrees with what is stored

The condition is asked of each log at the moment the loop comes to it, since logs before it
in the same call may have stored rows under its key. It compares the log with the stored rows
of its event, and for entries without a row it asks that the event is one the new row can
belong to.
-/

/-- Persisting the log says nothing else than what is stored. Entries with one batch index
are stored alike, because they share a row. Every row of the event under the log's key is one
of the entries, with the parties and the token it has, because these columns are kept. And an
entry without a row finds the event in its block, of its source and active, or about to be
restored, because the new row takes block, source and mark from the log and not from the
event. -/
def LogAgrees (source : SourceRef) (options : PersistDecodedLogsOptions) (db : Db)
    (log : RpcLog × DecodedLog) : Prop :=
  (∀ a ∈ log.2.entries, ∀ b ∈ log.2.entries, a.batch_index = b.batch_index →
    a.columns = b.columns ∧ a.stored_amount parseAmount = b.stored_amount parseAmount) ∧
  ∀ event ∈ db.events.rows, event.at_log source log.1 →
    (∀ row ∈ db.ledger_entries.rows, row.event_id = event.id →
      ∃ entry ∈ log.2.entries, entry.batch_index = row.batch_index ∧ entry.columns = row.columns) ∧
    ∀ entry ∈ log.2.entries,
      (∀ row ∈ db.ledger_entries.rows, row.event_id = event.id →
        row.batch_index ≠ entry.batch_index) →
      event.source_id = source.id ∧ event.in_block log.1 ∧
        (event.orphaned = false ∨ options.restore_orphaned_conflicts = true)

instance (source : SourceRef) (options : PersistDecodedLogsOptions) (db : Db)
    (log : RpcLog × DecodedLog) : Decidable (LogAgrees parseAmount source options db log) :=
  inferInstanceAs (Decidable (_ ∧ _))

/-- Each log of a call agrees with what the logs before it have left. -/
def LogsAgree (source : SourceRef) (options : PersistDecodedLogsOptions) (db : Db) :
    List (RpcLog × DecodedLog) → Prop
  | [] => True
  | log :: rest => LogAgrees parseAmount source options db log ∧
    match persist_log parseAmount source options db log with
    | .ok db' => LogsAgree source options db' rest
    | .error _ => True

variable {parseAmount}

/-! ## The turn of one log

A turn upserts the event and then its entries. In between the tables do not agree: the event
has its new `args`, and the rows of the entries to come are the old ones. `EntriesDone` is
what holds after a part of the entries, each stored for the event as it is now, and the rest
as they were before the turn.
-/

/-- What the entry of a log is stored with. -/
theorem new_ledger_entry_row_shows {id event_id : Uuid} {source : SourceRef} {log : RpcLog}
    {entry : DecodedLedgerEntry} {values : LedgerEntryRow}
    (h : new_ledger_entry_row parseAmount id source log event_id entry = .ok values) :
    RowShows parseAmount entry values ∧ values.chain_id = source.chain_id ∧
      values.block_hash = to_ascii_lowercase log.block_hash ∧
      (parse_hex_u64 log.block_number).toOption.map as_i64 = some values.block_number := by
  unfold new_ledger_entry_row at h
  simp only [bind_eq_ok] at h
  obtain ⟨amount, hamount, block_number, hblock, _, -, _, -, hv⟩ := h
  rw [← Except.ok.inj hv]
  refine ⟨⟨rfl, ?_⟩, rfl, rfl, ?_⟩
  · unfold DecodedLedgerEntry.stored_amount
    rw [hamount]
    rfl
  · rw [hblock]
    simp only [Except.toOption, Option.map_some]

section Turn

variable (parseAmount) (source : SourceRef) (options : PersistDecodedLogsOptions) (db : Db)
  (log : RpcLog × DecodedLog) (event : EventRow)

/-- The event a turn has upserted, against the entries that were there before it. -/
structure Turn : Prop where
  at_log : event.at_log source log.1
  args : event.args = log.2.entries
  block_hash : event.block_hash = to_ascii_lowercase log.1.block_hash
  restored : options.restore_orphaned_conflicts = true → event.orphaned = false
  /-- What is stored under the log's key is the event's. -/
  keyed : ∀ row ∈ db.ledger_entries.rows, row.chain_id = event.chain_id →
    row.transaction_hash = event.transaction_hash → row.log_index = event.log_index →
    row.event_id = event.id
  belongs : ∀ row ∈ db.ledger_entries.rows, row.event_id = event.id →
    BelongsTo event row ∧ row.block_number = event.block_number ∧
      (row.orphaned && !options.restore_orphaned_conflicts) = event.orphaned
  /-- What the event has is among the entries. -/
  stored : ∀ row ∈ db.ledger_entries.rows, row.event_id = event.id →
    ∃ entry ∈ log.2.entries, entry.batch_index = row.batch_index ∧ entry.columns = row.columns
  /-- What the event has not fits it. -/
  missing : ∀ entry ∈ log.2.entries, (∀ row ∈ db.ledger_entries.rows, row.event_id = event.id →
    row.batch_index ≠ entry.batch_index) →
      event.source_id = source.id ∧ event.in_block log.1 ∧ event.orphaned = false
  alike : ∀ a ∈ log.2.entries, ∀ b ∈ log.2.entries, a.batch_index = b.batch_index →
    a.columns = b.columns ∧ a.stored_amount parseAmount = b.stored_amount parseAmount

/-- The row is one the turn has stored for the entry. -/
structure StoredFor (entry : DecodedLedgerEntry) (row : LedgerEntryRow) : Prop where
  batch_index : entry.batch_index = row.batch_index
  shows : RowShows parseAmount entry row
  block_hash : row.block_hash = event.block_hash
  orphaned : row.orphaned = event.orphaned

/-- The rows once the entries `done` of the turn are stored. -/
structure EntriesDone (done : List DecodedLedgerEntry) (rows : List LedgerEntryRow) : Prop where
  others : ∀ row, row.event_id ≠ event.id → (row ∈ rows ↔ row ∈ db.ledger_entries.rows)
  mine : ∀ row ∈ rows, row.event_id = event.id →
    BelongsTo event row ∧ row.block_number = event.block_number ∧
      ((∃ entry ∈ done, StoredFor parseAmount event entry row) ∨
        (row ∈ db.ledger_entries.rows ∧ ∀ entry ∈ done, entry.batch_index ≠ row.batch_index))
  kept : ∀ row ∈ db.ledger_entries.rows, row.event_id = event.id →
    ∃ row' ∈ rows, row'.event_id = event.id ∧ row'.batch_index = row.batch_index
  stored : ∀ entry ∈ done, ∃ row ∈ rows, row.event_id = event.id ∧
    row.batch_index = entry.batch_index

variable {parseAmount source options db log event}

theorem EntriesDone.start (h : Turn parseAmount source options db log event) :
    EntriesDone parseAmount db event [] db.ledger_entries.rows := by
  refine ⟨fun _ _ => Iff.rfl, fun row hrow hid => ?_, fun row hrow hid => ⟨row, hrow, hid, rfl⟩,
    fun entry hentry => absurd hentry List.not_mem_nil⟩
  obtain ⟨hbelongs, hblock, -⟩ := h.belongs row hrow hid
  exact ⟨hbelongs, hblock, Or.inr ⟨hrow, fun entry hentry => absurd hentry List.not_mem_nil⟩⟩

/-- What is under the key of an entry's values: the rows of the event with the entry's
batch index. -/
theorem Turn.same_entry_iff (h : Turn parseAmount source options db log event)
    {entry : DecodedLedgerEntry} {id : Uuid} {values row : LedgerEntryRow}
    (hvalues : new_ledger_entry_row parseAmount id source log.1 event.id entry = .ok values) :
    values.same_entry row = true ↔ (row.chain_id = event.chain_id ∧
      row.transaction_hash = event.transaction_hash ∧ row.log_index = event.log_index) ∧
        row.batch_index = entry.batch_index := by
  obtain ⟨-, hchain, -, -⟩ := new_ledger_entry_row_shows hvalues
  have hkey := stored_key_of_entry hvalues
  rw [← h.at_log.2] at hkey
  obtain ⟨hlog, hindex⟩ := Prod.ext_iff.1 hkey
  obtain ⟨hhash, hlog_index⟩ := Prod.ext_iff.1 hlog
  have hlog_index : values.log_index = event.log_index := Option.some.inj hlog_index
  have hindex : values.batch_index = entry.batch_index := hindex
  have hhash : values.transaction_hash = event.transaction_hash := hhash
  rw [EvmIndexer.same_entry_iff, hchain, hhash, hlog_index, hindex, h.at_log.1]
  simp only [and_assoc]

theorem LedgerEntryRow.stored_columns (options : PersistDecodedLogsOptions)
    (values old : LedgerEntryRow) : (values.stored options old).columns = old.columns := by
  unfold LedgerEntryRow.stored
  split <;> rfl

theorem BelongsTo.stored {values old : LedgerEntryRow} (h : BelongsTo event old) :
    BelongsTo event (values.stored options old) := by
  obtain ⟨h1, h2, h3, h4⟩ := h
  unfold LedgerEntryRow.stored
  split <;> exact ⟨h1, h2, h3, h4⟩

/-- The entries with one batch index say the same of a row. -/
theorem Turn.shows (h : Turn parseAmount source options db log event)
    {a b : DecodedLedgerEntry} {row : LedgerEntryRow} (ha : a ∈ log.2.entries)
    (hb : b ∈ log.2.entries) (hbatch : a.batch_index = b.batch_index)
    (hshows : RowShows parseAmount a row) : RowShows parseAmount b row := by
  obtain ⟨hcolumns, hamount⟩ := h.alike a ha b hb hbatch
  exact ⟨hcolumns ▸ hshows.1, hamount ▸ hshows.2⟩

/-- What the event has after the entries `done` is stored as it was, or for one of them. -/
theorem EntriesDone.columns_of {done : List DecodedLedgerEntry} {rows : List LedgerEntryRow}
    (h : Turn parseAmount source options db log event)
    (hdone : EntriesDone parseAmount db event done rows)
    (hmem : ∀ entry ∈ done, entry ∈ log.2.entries) {row : LedgerEntryRow} (hrow : row ∈ rows)
    (hid : row.event_id = event.id) :
    (∃ entry ∈ log.2.entries, entry.batch_index = row.batch_index ∧ entry.columns = row.columns) ∧
      (row.orphaned && !options.restore_orphaned_conflicts) = event.orphaned := by
  obtain ⟨-, -, ⟨entry, hentry, hstored⟩ | ⟨hold, -⟩⟩ := hdone.mine row hrow hid
  · refine ⟨⟨entry, hmem entry hentry, hstored.batch_index, hstored.shows.1⟩, ?_⟩
    rw [hstored.orphaned]
    cases hrestore : options.restore_orphaned_conflicts with
    | true => rw [h.restored hrestore]; rfl
    | false => simp only [Bool.not_false, Bool.and_true]
  · exact ⟨h.stored row hold hid, (h.belongs row hold hid).2.2⟩

/-- An entry without a row gets one that fits the event. -/
theorem EntriesDone.append {done : List DecodedLedgerEntry} {rows : List LedgerEntryRow}
    (h : Turn parseAmount source options db log event)
    (hdone : EntriesDone parseAmount db event done rows) {entry : DecodedLedgerEntry}
    (hentry : entry ∈ log.2.entries) {id : Uuid} {values : LedgerEntryRow}
    (hvalues : new_ledger_entry_row parseAmount id source log.1 event.id entry = .ok values)
    (hfind : rows.find? values.same_entry = none) :
    EntriesDone parseAmount db event (done ++ [entry]) (rows ++ [values]) := by
  -- no stored row is that of the entry: a row of the event is at the key of the log
  have hnone : ∀ row ∈ rows, row.event_id = event.id → row.batch_index ≠ entry.batch_index := by
    intro row hrow hid hbatch
    have hbelongs := (hdone.mine row hrow hid).1
    exact List.find?_eq_none.1 hfind row hrow ((h.same_entry_iff hvalues).2
      ⟨⟨hbelongs.chain_id, hbelongs.transaction_hash, hbelongs.log_index⟩, hbatch⟩)
  -- so the event had none before its turn, and the log agrees with the columns it gets
  have hmissing : ∀ row ∈ db.ledger_entries.rows, row.event_id = event.id →
      row.batch_index ≠ entry.batch_index := by
    intro row hrow hid hbatch
    obtain ⟨row', hrow', hid', hbatch'⟩ := hdone.kept row hrow hid
    exact hnone row' hrow' hid' (hbatch'.trans hbatch)
  obtain ⟨hsource, hin_block, hactive⟩ := h.missing entry hentry hmissing
  obtain ⟨hshows, -, hblock_hash, hblock⟩ := new_ledger_entry_row_shows hvalues
  obtain ⟨hvalues_source, hvalues_active, -⟩ := new_ledger_entry_row_key hvalues
  have hid := (new_ledger_entry_row_gets_ids hvalues).2
  have hkey := (h.same_entry_iff hvalues).1 (same_entry_refl values)
  have hbelongs : BelongsTo event values :=
    ⟨hvalues_source.trans hsource.symm, hkey.1.1, hkey.1.2.1, hkey.1.2.2⟩
  have hstored : StoredFor parseAmount event entry values :=
    ⟨hkey.2.symm, hshows, hblock_hash.trans h.block_hash.symm, hvalues_active.trans hactive.symm⟩
  have hblock : values.block_number = event.block_number :=
    Option.some.inj (hblock.symm.trans hin_block)
  -- others, rows of the event, rows kept, and entries done
  refine ⟨fun row hother => ?_, fun row hrow hrow_id => ?_, fun row hrow hrow_id => ?_,
    fun done_entry hdone_entry => ?_⟩
  · rw [List.mem_append, List.mem_singleton, hdone.others row hother]
    exact or_iff_left fun heq => hother (heq ▸ hid)
  · rw [List.mem_append, List.mem_singleton] at hrow
    rcases hrow with hrow | rfl
    · obtain ⟨hrow_belongs, hrow_block, hrow_stored⟩ := hdone.mine row hrow hrow_id
      refine ⟨hrow_belongs, hrow_block, hrow_stored.imp ?_ ?_⟩
      · rintro ⟨e, he, hrow_stored⟩
        exact ⟨e, List.mem_append_left _ he, hrow_stored⟩
      · rintro ⟨hold, hunstored⟩
        refine ⟨hold, fun e he => ?_⟩
        rw [List.mem_append, List.mem_singleton] at he
        rcases he with he | rfl
        · exact hunstored e he
        · exact (hnone row hrow hrow_id).symm
    · exact ⟨hbelongs, hblock, Or.inl ⟨entry, List.mem_append_right _ (List.mem_singleton_self _),
        hstored⟩⟩
  · obtain ⟨row', hrow', hrow'_id⟩ := hdone.kept row hrow hrow_id
    exact ⟨row', List.mem_append_left _ hrow', hrow'_id⟩
  · rw [List.mem_append, List.mem_singleton] at hdone_entry
    rcases hdone_entry with hdone_entry | rfl
    · obtain ⟨row, hrow, hrow_id⟩ := hdone.stored done_entry hdone_entry
      exact ⟨row, List.mem_append_left _ hrow, hrow_id⟩
    · exact ⟨values, List.mem_append_right _ (List.mem_singleton_self _), hid, hkey.2⟩

/-- The row of an entry is stored again, for the entry. -/
theorem EntriesDone.replace {done : List DecodedLedgerEntry} {rows : List LedgerEntryRow}
    (h : Turn parseAmount source options db log event)
    (hdone : EntriesDone parseAmount db event done rows)
    (hmem : ∀ entry ∈ done, entry ∈ log.2.entries)
    (hapart : Upsert.Apart (entry_rule options) rows) {entry : DecodedLedgerEntry}
    (hentry : entry ∈ log.2.entries) {id : Uuid} {values old : LedgerEntryRow}
    (hvalues : new_ledger_entry_row parseAmount id source log.1 event.id entry = .ok values)
    (hfind : rows.find? values.same_entry = some old) :
    EntriesDone parseAmount db event (done ++ [entry])
      (replaceRow old (values.stored options old) rows) := by
  have hold : old ∈ rows := List.mem_of_find?_eq_some hfind
  have hsame : values.same_entry old = true := List.find?_some hfind
  obtain ⟨⟨hchain, hhash, hlog_index⟩, hbatch⟩ := (h.same_entry_iff hvalues).1 hsame
  -- a row of another event would be there from before, under the key of this one
  have hold_id : old.event_id = event.id := by
    by_contra hother
    exact hother (h.keyed old ((hdone.others old hother).1 hold) hchain hhash hlog_index)
  obtain ⟨hbelongs, hblock, -⟩ := hdone.mine old hold hold_id
  obtain ⟨⟨like, hlike, hlike_batch, hlike_columns⟩, horphaned⟩ :=
    hdone.columns_of h hmem hold hold_id
  obtain ⟨hshows, -, hblock_hash, -⟩ := new_ledger_entry_row_shows hvalues
  obtain ⟨hamount, hnew_hash, hnew_orphaned⟩ := LedgerEntryRow.stored_takes options values old
  have hnew_id : (values.stored options old).event_id = event.id :=
    (LedgerEntryRow.stored_event_id options values old).trans hold_id
  have hnew_batch : (values.stored options old).batch_index = old.batch_index :=
    (EvmIndexer.same_entry_iff.1 (stored_same_entry options values old)).2.2.2
  have hnew_block : (values.stored options old).block_number = old.block_number :=
    LedgerEntryRow.stored_block_number options values old
  have hstored : StoredFor parseAmount event entry (values.stored options old) := by
    refine ⟨(hnew_batch.trans hbatch).symm, ⟨?_, ?_⟩, ?_, hnew_orphaned.trans horphaned⟩
    · rw [LedgerEntryRow.stored_columns, ← hlike_columns]
      exact (h.alike entry hentry like hlike (hbatch.symm.trans hlike_batch.symm)).1
    · rw [hamount]
      exact hshows.2
    · rw [hnew_hash, hblock_hash, h.block_hash]
  -- whatever the event had under a batch index, it still has
  have hcarry : ∀ row ∈ rows, row.event_id = event.id →
      ∃ row' ∈ replaceRow old (values.stored options old) rows,
        row'.event_id = event.id ∧ row'.batch_index = row.batch_index := by
    intro row hrow hrow_id
    by_cases heq : row = old
    · subst heq
      exact ⟨_, (mem_replaceRow hold).2 (Or.inl rfl), hnew_id, hnew_batch⟩
    · exact ⟨row, (mem_replaceRow hold).2 (Or.inr ⟨hrow, heq⟩), hrow_id, rfl⟩
  refine ⟨fun row hother => ?_, fun row hrow hrow_id => ?_, fun row hrow hrow_id => ?_,
    fun done_entry hdone_entry => ?_⟩
  · rw [mem_replaceRow hold, ← hdone.others row hother]
    constructor
    · rintro (rfl | ⟨hrow, -⟩)
      · exact absurd hnew_id hother
      · exact hrow
    · exact fun hrow => Or.inr ⟨hrow, fun heq => hother (heq ▸ hold_id)⟩
  · rw [mem_replaceRow hold] at hrow
    rcases hrow with rfl | ⟨hrow, hne⟩
    · exact ⟨hbelongs.stored, hnew_block.trans hblock,
        Or.inl ⟨entry, List.mem_append_right _ (List.mem_singleton_self _), hstored⟩⟩
    · obtain ⟨hrow_belongs, hrow_block, hrow_stored⟩ := hdone.mine row hrow hrow_id
      refine ⟨hrow_belongs, hrow_block, hrow_stored.imp ?_ ?_⟩
      · rintro ⟨e, he, hrow_stored⟩
        exact ⟨e, List.mem_append_left _ he, hrow_stored⟩
      · rintro ⟨hrow_old, hunstored⟩
        refine ⟨hrow_old, fun e he heq => ?_⟩
        rw [List.mem_append, List.mem_singleton] at he
        rcases he with he | rfl
        · exact hunstored e he heq
        · refine hne (hapart.eq_of_same hrow hold (same_entry_trans (same_entry_symm ?_) hsame))
          exact (h.same_entry_iff hvalues).2 ⟨⟨hrow_belongs.chain_id,
            hrow_belongs.transaction_hash, hrow_belongs.log_index⟩, heq.symm⟩
  · obtain ⟨row', hrow', hrow'_id, hrow'_batch⟩ := hdone.kept row hrow hrow_id
    obtain ⟨row'', hrow'', hrow''_id, hrow''_batch⟩ := hcarry row' hrow' hrow'_id
    exact ⟨row'', hrow'', hrow''_id, hrow''_batch.trans hrow'_batch⟩
  · rw [List.mem_append, List.mem_singleton] at hdone_entry
    rcases hdone_entry with hdone_entry | rfl
    · obtain ⟨row, hrow, hrow_id, hrow_batch⟩ := hdone.stored done_entry hdone_entry
      obtain ⟨row', hrow', hrow'_id, hrow'_batch⟩ := hcarry row hrow hrow_id
      exact ⟨row', hrow', hrow'_id, hrow'_batch.trans hrow_batch⟩
    · exact ⟨_, (mem_replaceRow hold).2 (Or.inl rfl), hnew_id, hnew_batch.trans hbatch⟩

/-- One entry of the turn. -/
theorem EntriesDone.step {done : List DecodedLedgerEntry} {s t : Db}
    (h : Turn parseAmount source options db log event)
    (hdone : EntriesDone parseAmount db event done s.ledger_entries.rows)
    (hmem : ∀ entry ∈ done, entry ∈ log.2.entries) {entry : DecodedLedgerEntry}
    (hentry : entry ∈ log.2.entries)
    (hstep : persist_entry parseAmount source log.1 event.id options s entry = .ok t) :
    EntriesDone parseAmount db event (done ++ [entry]) t.ledger_entries.rows := by
  obtain ⟨previous, current, mid, hprev, -, hupsert, happly⟩ := persist_entry_spec hstep
  obtain ⟨values, ledger_entries, hvalues, -, hmid, hlookup, hrows⟩ :=
    upsert_ledger_entry_spec hprev hupsert
  have ht : t.ledger_entries = ledger_entries := by
    rw [(apply_balance_delta_spec happly).1.ledger_entries, hmid]
  rw [ht]
  rcases hrows with ⟨rfl, -, hrows⟩ | ⟨old, rfl, -, -, rfl, hrows⟩
  · rw [hrows]
    exact hdone.append h hentry hvalues hlookup.symm
  · rw [hrows]
    exact hdone.replace h hmem (entries_apart options s) hentry hvalues hlookup.symm

/-- The entries of the turn, one after the other. -/
theorem EntriesDone.run {done rest : List DecodedLedgerEntry} {s t : Db}
    (h : Turn parseAmount source options db log event) (hsplit : done ++ rest = log.2.entries)
    (hdone : EntriesDone parseAmount db event done s.ledger_entries.rows)
    (hrun : rest.foldlM (persist_entry parseAmount source log.1 event.id options) s = .ok t) :
    EntriesDone parseAmount db event log.2.entries t.ledger_entries.rows := by
  induction rest generalizing done s with
  | nil =>
    rw [List.foldlM_nil, pure_eq_ok] at hrun
    rw [List.append_nil] at hsplit
    exact hsplit ▸ hrun ▸ hdone
  | cons entry rest ih =>
    rw [List.foldlM_cons, bind_eq_ok] at hrun
    obtain ⟨mid, hentry, hrest⟩ := hrun
    have hmem : ∀ e ∈ done ++ entry :: rest, e ∈ log.2.entries := fun e he => hsplit ▸ he
    refine ih ((List.append_assoc done [entry] rest).trans hsplit) ?_ hrest
    exact hdone.step h (fun e he => hmem e (List.mem_append_left _ he))
      (hmem entry (List.mem_append_right _ List.mem_cons_self)) hentry

/-- Once all entries are stored, the rows of the event agree with it. -/
theorem EntriesDone.agrees {rows : List LedgerEntryRow}
    (h : Turn parseAmount source options db log event)
    (hdone : EntriesDone parseAmount db event log.2.entries rows) {row : LedgerEntryRow}
    (hrow : row ∈ rows) (hid : row.event_id = event.id) : RowAgrees parseAmount event row := by
  obtain ⟨-, hblock, ⟨entry, hentry, hstored⟩ | ⟨hold, hunstored⟩⟩ := hdone.mine row hrow hid
  · refine ⟨⟨entry, h.args ▸ hentry, hstored.batch_index⟩, fun other hother hbatch => ?_,
      hblock, hstored.block_hash, hstored.orphaned⟩
    rw [h.args] at hother
    exact h.shows hentry hother (hstored.batch_index.trans hbatch.symm) hstored.shows
  · obtain ⟨entry, hentry, hbatch, -⟩ := h.stored row hold hid
    exact absurd hbatch (hunstored entry hentry)

end Turn

section Persist

variable {source : SourceRef} {options : PersistDecodedLogsOptions} {log : RpcLog × DecodedLog}

/-- A log whose event is new. No row has the identifier drawn for it, so its entries are all
new rows, and the loop over them has nothing stored to agree with. -/
theorem Agreement.turn_of_new {db : Db} (h : Agreement parseAmount db)
    (hlog : LogAgrees parseAmount source options db log) {values : EventRow}
    (hvalues : new_event_row db.next_uuid source log.1 log.2 = .ok values)
    (hfind : db.events.rows.find? values.same_log = none) :
    Turn parseAmount source options db log values := by
  obtain ⟨hargs, hhash, hsource, hchain, hblock⟩ := new_event_row_shows hvalues
  obtain ⟨hactive, -⟩ := new_event_row_flags hvalues
  have hid := new_event_row_gets_id hvalues
  have hnone : ∀ row ∈ db.ledger_entries.rows, row.event_id ≠ values.id := by
    intro row hrow heq
    obtain ⟨owner, howner, howner_id, -⟩ := h.owner row hrow
    exact absurd (howner_id.symm.trans (heq.trans hid)) (Nat.ne_of_lt (h.fresh.events owner howner))
  refine
    { at_log := ⟨hchain, stored_key_of_event hvalues⟩
      args := hargs
      block_hash := hhash
      restored := fun _ => hactive
      keyed := fun row hrow hrow_chain hrow_hash hrow_index => ?_
      belongs := fun row hrow heq => absurd heq (hnone row hrow)
      stored := fun row hrow heq => absurd heq (hnone row hrow)
      missing := fun _ _ _ => ⟨hsource, hblock, hactive⟩
      alike := hlog.1 }
  -- the row's event would be stored under the log's key
  obtain ⟨owner, howner, -, hbelongs⟩ := h.owner row hrow
  refine absurd (same_log_iff.2 ⟨?_, ?_, ?_⟩) (List.find?_eq_none.1 hfind owner howner)
  · exact hrow_chain.symm.trans hbelongs.chain_id
  · exact hrow_hash.symm.trans hbelongs.transaction_hash
  · exact hrow_index.symm.trans hbelongs.log_index

/-- A log whose event is stored. Its content is overwritten and its block is kept, so the
rows it has must be among the new entries, which is what `LogAgrees` asks. -/
theorem Agreement.turn_of_stored {db : Db} (h : Agreement parseAmount db)
    (hlog : LogAgrees parseAmount source options db log) {id : Uuid} {values old : EventRow}
    (hvalues : new_event_row id source log.1 log.2 = .ok values) (hold : old ∈ db.events.rows)
    (hsame : values.same_log old = true) :
    Turn parseAmount source options db log (values.stored options old) := by
  obtain ⟨hargs, hhash, -, hchain, -⟩ := new_event_row_shows hvalues
  obtain ⟨hkeep_id, hkeep_source, hkeep_chain, hkeep_hash, hkeep_index, hkeep_block⟩ :=
    EventRow.stored_keeps options values old
  obtain ⟨htake_args, htake_hash, htake_orphaned⟩ := EventRow.stored_takes options values old
  obtain ⟨hsame_chain, hsame_hash, hsame_index⟩ := same_log_iff.1 hsame
  -- the conflicting event is at the key of the log
  have hat_log : old.at_log source log.1 := by
    refine ⟨hsame_chain.symm.trans hchain, ?_⟩
    rw [← hsame_hash, ← hsame_index]
    exact stored_key_of_event hvalues
  obtain ⟨hstored, hmissing⟩ := hlog.2 old hold hat_log
  refine
    { at_log := ?_
      args := htake_args.trans hargs
      block_hash := htake_hash.trans hhash
      restored := fun hrestore => ?_
      keyed := fun row hrow hrow_chain hrow_hash hrow_index => ?_
      belongs := fun row hrow heq => ?_
      stored := fun row hrow heq => hstored row hrow (heq.trans hkeep_id)
      missing := fun entry hentry hnone => ?_
      alike := hlog.1 }
  · unfold EventRow.at_log
    rw [hkeep_chain, hkeep_hash, hkeep_index]
    exact hat_log
  · rw [htake_orphaned, hrestore, Bool.not_true, Bool.and_false]
  · -- a row at the key belongs to an event there, and there is one event under a key
    obtain ⟨owner, howner, howner_id, hbelongs⟩ := h.owner row hrow
    have hsame_owner : owner.same_log old = true := same_log_iff.2
      ⟨hbelongs.chain_id.symm.trans (hrow_chain.trans hkeep_chain),
        hbelongs.transaction_hash.symm.trans (hrow_hash.trans hkeep_hash),
        hbelongs.log_index.symm.trans (hrow_index.trans hkeep_index)⟩
    have howner_old := (events_apart options db).eq_of_same howner hold hsame_owner
    rw [howner_id, howner_old, hkeep_id]
  · -- the rows of the event agree with it, and the stored event keeps those columns
    have heq_old : row.event_id = old.id := heq.trans hkeep_id
    obtain ⟨owner, howner, howner_id, hbelongs⟩ := h.owner row hrow
    have hagrees := h.rows old hold row hrow heq_old
    rw [db.events.eq_of_clash howner hold (Or.inl (howner_id.symm.trans heq_old))] at hbelongs
    refine ⟨⟨hbelongs.source_id.trans hkeep_source.symm, hbelongs.chain_id.trans hkeep_chain.symm,
      hbelongs.transaction_hash.trans hkeep_hash.symm, hbelongs.log_index.trans hkeep_index.symm⟩,
      hagrees.block_number.trans hkeep_block.symm, ?_⟩
    rw [hagrees.orphaned, htake_orphaned]
  · obtain ⟨hmissing_source, hmissing_block, hmissing_active⟩ := hmissing entry hentry
      fun row hrow heq => hnone row hrow (heq.trans hkeep_id.symm)
    refine ⟨hkeep_source.trans hmissing_source, ?_, ?_⟩
    · unfold EventRow.in_block
      rw [hkeep_block]
      exact hmissing_block
    · rw [htake_orphaned]
      rcases hmissing_active with hactive | hrestore
      · rw [hactive, Bool.false_and]
      · rw [hrestore, Bool.not_true, Bool.and_false]

/-- Upserting the event of a log that agrees starts its turn; the other events stay. -/
theorem Agreement.turn {db mid : Db} (h : Agreement parseAmount db)
    (hlog : LogAgrees parseAmount source options db log) {event_id : Uuid}
    (hupsert : upsert_event db source log.1 log.2 options = .ok (event_id, mid)) :
    ∃ event, event.id = event_id ∧ Turn parseAmount source options db log event ∧
      ∀ e, e ∈ mid.events.rows ↔ e = event ∨ (e ∈ db.events.rows ∧ e.id ≠ event.id) := by
  obtain ⟨values, hvalues, -, -, hid, hrows⟩ := upsert_event_spec hupsert
  rw [hid, hrows]
  unfold Upsert.touched Upsert.store
  have hsame : (event_rule options).same values = values.same_log := rfl
  rw [hsame]
  cases hfind : db.events.rows.find? values.same_log with
  | none =>
    refine ⟨values, rfl, h.turn_of_new hlog hvalues hfind, fun e => ?_⟩
    have hvalues_id := new_event_row_gets_id hvalues
    rw [List.mem_append, List.mem_singleton, or_comm]
    -- a new event gets an id that no stored one has
    refine or_congr_right (iff_self_and.2 fun he => ?_)
    exact hvalues_id ▸ Nat.ne_of_lt (h.fresh.events e he)
  | some old =>
    have hold : old ∈ db.events.rows := List.mem_of_find?_eq_some hfind
    obtain ⟨hkeep_id, -⟩ := EventRow.stored_keeps options values old
    refine ⟨values.stored options old, rfl,
      h.turn_of_stored hlog hvalues hold (List.find?_some hfind), fun e => ?_⟩
    rw [hkeep_id]
    refine (mem_replaceRow hold).trans (or_congr_right (and_congr_right fun he => ?_))
    exact not_congr ⟨fun heq => heq ▸ rfl, fun heq => db.events.eq_of_clash he hold (Or.inl heq)⟩

/-- A log that agrees with what is stored keeps the tables in agreement. -/
theorem Agreement.persist_log {db db' : Db} (h : Agreement parseAmount db)
    (hlog : LogAgrees parseAmount source options db log)
    (hpersist : persist_log parseAmount source options db log = .ok db') :
    Agreement parseAmount db' := by
  have hfresh := persist_log_freshRowIds hpersist h.fresh
  unfold EvmIndexer.persist_log at hpersist
  rw [bind_eq_ok] at hpersist
  obtain ⟨⟨event_id, mid⟩, hupsert, hentries⟩ := hpersist
  obtain ⟨event, rfl, hturn, hmid⟩ := h.turn hlog hupsert
  obtain ⟨-, -, -, hframe, -⟩ := upsert_event_spec hupsert
  have hrows : mid.ledger_entries = db.ledger_entries := by rw [hframe]
  -- the entries of the log are stored in a turn of its event
  have hdone := EntriesDone.run hturn (List.nil_append _)
    (hrows ▸ EntriesDone.start hturn) hentries
  have hevents : ∀ e, e ∈ db'.events.rows ↔ e = event ∨ (e ∈ db.events.rows ∧ e.id ≠ event.id) := by
    rw [(persist_entries_frame hentries).1]
    exact hmid
  -- every row is one of the log or untouched by it
  refine { rows := ?_, entries := ?_, owner := ?_, fresh := hfresh }
  · intro e he row hrow hrow_id
    rcases (hevents e).1 he with rfl | ⟨he, hother⟩
    · exact hdone.agrees hturn hrow hrow_id
    · exact h.rows e he row ((hdone.others row fun heq => hother (hrow_id.symm.trans heq)).1 hrow)
        hrow_id
  · intro e he entry hentry
    rcases (hevents e).1 he with rfl | ⟨he, hother⟩
    · exact hdone.stored entry (hturn.args ▸ hentry)
    · obtain ⟨row, hrow, hrow_id, hbatch⟩ := h.entries e he entry hentry
      exact ⟨row, (hdone.others row fun heq => hother (hrow_id.symm.trans heq)).2 hrow, hrow_id,
        hbatch⟩
  · intro row hrow
    by_cases hmine : row.event_id = event.id
    · exact ⟨event, (hevents event).2 (Or.inl rfl), hmine, (hdone.mine row hrow hmine).1⟩
    · obtain ⟨owner, howner, howner_id, hbelongs⟩ := h.owner row ((hdone.others row hmine).1 hrow)
      exact ⟨owner, (hevents owner).2 (Or.inr ⟨howner, fun heq => hmine (howner_id.trans heq)⟩),
        howner_id, hbelongs⟩

/-- Logs that agree, one after the other. -/
theorem Agreement.persist_logs {logs : List (RpcLog × DecodedLog)} {db db' : Db}
    (h : Agreement parseAmount db) (hlogs : LogsAgree parseAmount source options db logs)
    (hpersist : logs.foldlM (EvmIndexer.persist_log parseAmount source options) db = .ok db') :
    Agreement parseAmount db' := by
  induction logs generalizing db with
  | nil =>
    rw [List.foldlM_nil, pure_eq_ok] at hpersist
    exact hpersist ▸ h
  | cons log rest ih =>
    rw [List.foldlM_cons, bind_eq_ok] at hpersist
    obtain ⟨mid, hlog, hrest⟩ := hpersist
    unfold LogsAgree at hlogs
    rw [hlog] at hlogs
    exact ih (h.persist_log hlogs.1 hlog) hlogs.2 hrest

end Persist

/-! ## The other transactions

Neither an orphaning nor a repair looks at single rows. They select by source and block or by
the key of a log, and an event and its rows have these in common. So both tables are mapped
by one function, and agreement survives every such map (`Agreement.of_mapped`).
-/

/-- Whatever changes events and rows alike keeps the tables in agreement. -/
theorem Agreement.of_mapped {db db' : Db} (h : Agreement parseAmount db) (hfresh : FreshRowIds db')
    {f : EventRow → EventRow} {g : LedgerEntryRow → LedgerEntryRow}
    (hevents : db'.events.rows = db.events.rows.map f)
    (hrows : db'.ledger_entries.rows = db.ledger_entries.rows.map g)
    (hf : ∀ e, (f e).id = e.id ∧ (f e).args = e.args)
    (hg : ∀ r, (g r).event_id = r.event_id ∧ (g r).batch_index = r.batch_index)
    (hagree : ∀ e r, BelongsTo e r → BelongsTo (f e) (g r) ∧
      (RowAgrees parseAmount e r → RowAgrees parseAmount (f e) (g r))) :
    Agreement parseAmount db' := by
  refine { rows := ?_, entries := ?_, owner := ?_, fresh := hfresh }
  · rw [hevents, hrows]
    intro e' he' r' hr' hid
    obtain ⟨e, he, rfl⟩ := List.mem_map.1 he'
    obtain ⟨r, hr, rfl⟩ := List.mem_map.1 hr'
    have hid : r.event_id = e.id := (hg r).1.symm.trans (hid.trans (hf e).1)
    obtain ⟨owner, howner, howner_id, hbelongs⟩ := h.owner r hr
    -- ids are keys, so the owner of the row is the event in hand
    have howner_eq : owner = e := db.events.eq_of_clash howner he (Or.inl (howner_id.symm.trans hid))
    exact (hagree e r (howner_eq ▸ hbelongs)).2 (h.rows e he r hr hid)
  · rw [hevents, hrows]
    intro e' he' entry hentry
    obtain ⟨e, he, rfl⟩ := List.mem_map.1 he'
    obtain ⟨r, hr, hid, hbatch⟩ := h.entries e he entry ((hf e).2 ▸ hentry)
    exact ⟨g r, List.mem_map_of_mem hr, (hg r).1.trans (hid.trans (hf e).1.symm),
      (hg r).2.trans hbatch⟩
  · rw [hevents, hrows]
    intro r' hr'
    obtain ⟨r, hr, rfl⟩ := List.mem_map.1 hr'
    obtain ⟨owner, howner, howner_id, hbelongs⟩ := h.owner r hr
    exact ⟨f owner, List.mem_map_of_mem howner, (hg r).1.trans (howner_id.trans (hf owner).1.symm),
      (hagree owner r hbelongs).1⟩

/-- Orphaning marks an event and its rows together: they have one source, one block and
one mark. -/
theorem Agreement.orphan_source_range {db db' : Db} (h : Agreement parseAmount db)
    (hfresh : FreshRowIds db') {source : SourceRow} {from_block to_block : Int}
    {summary : OrphanRangeSummary}
    (horphan : orphan_source_range db source from_block to_block = .ok (summary, db')) :
    Agreement parseAmount db' := by
  obtain ⟨-, -, -, hrows, hevents⟩ := orphan_source_range_spec horphan
  refine h.of_mapped hfresh hevents hrows (fun e => ?_) (fun r => ?_) fun e r hbelongs => ⟨?_, ?_⟩
  · exact ⟨Table.setRow_keeps EventRow.id _ e,
      Table.setRow_keeps EventRow.args _ e⟩
  · exact ⟨Table.setRow_keeps LedgerEntryRow.event_id _ r,
      Table.setRow_keeps LedgerEntryRow.batch_index _ r⟩
  · obtain ⟨h1, h2, h3, h4⟩ := hbelongs
    unfold Table.setRow
    split <;> split <;> exact ⟨h1, h2, h3, h4⟩
  · rintro ⟨hentry, hshows, hblock, hhash, horphaned⟩
    -- they are in the range together, as they share the block
    have hactive : r.active_in source.id from_block to_block
        = e.active_in source.id from_block to_block := by
      unfold LedgerEntryRow.active_in EventRow.active_in
      rw [hbelongs.source_id, hblock, horphaned]
    unfold Table.setRow
    rw [hactive]
    split
    · exact ⟨hentry, hshows, hblock, hhash, rfl⟩
    · exact ⟨hentry, hshows, hblock, hhash, horphaned⟩

/-- Repairing moves an event and its rows together: they are of one log. -/
theorem Agreement.update_log_metadata {db db' : Db} (h : Agreement parseAmount db)
    (hfresh : FreshRowIds db') {source : SourceRow} {log : RpcLog} {update : LogMetadataUpdate}
    (hupdate : update_log_metadata db source log = .ok (update, db')) :
    Agreement parseAmount db' := by
  unfold EvmIndexer.update_log_metadata at hupdate
  simp only [bind_eq_ok, db_result_eq_ok] at hupdate
  obtain ⟨log_index, -, _, -, _, -, events, hevents, ledger_entries, hentries, hdb⟩ := hupdate
  cases hdb
  -- the ids, the arguments and the batch index are not among what is written
  refine h.of_mapped hfresh (Table.update_eq_some.1 hevents).2 (Table.update_eq_some.1 hentries).2
    (fun e => ?_) (fun r => ?_) fun e r hbelongs => ⟨?_, ?_⟩
  · exact ⟨Table.setRow_keeps EventRow.id _ e,
      Table.setRow_keeps EventRow.args _ e⟩
  · exact ⟨Table.setRow_keeps LedgerEntryRow.event_id _ r,
      Table.setRow_keeps LedgerEntryRow.batch_index _ r⟩
  · obtain ⟨h1, h2, h3, h4⟩ := hbelongs
    unfold Table.setRow
    split <;> split <;> exact ⟨h1, h2, h3, h4⟩
  · rintro ⟨hentry, hshows, hblock, hhash, horphaned⟩
    unfold Table.setRow
    simp only [hbelongs.source_id, hbelongs.chain_id, hbelongs.transaction_hash,
      hbelongs.log_index]
    split
    · exact ⟨hentry, hshows, rfl, rfl, horphaned⟩
    · exact ⟨hentry, hshows, hblock, hhash, horphaned⟩

theorem Agreement.of_sameRows {db db' : Db} (h : Agreement parseAmount db)
    (hsame : db.SameRows db') : Agreement parseAmount db' := by
  have hevents : ∀ e, e ∈ db'.events.rows ↔ e ∈ db.events.rows := fun _ => hsame.events.mem_iff.symm
  have hrows : ∀ r, r ∈ db'.ledger_entries.rows ↔ r ∈ db.ledger_entries.rows :=
    fun _ => hsame.ledger_entries.mem_iff.symm
  have hfresh : FreshRowIds db' := by
    refine ⟨fun e he => ?_, fun r hr => ?_⟩
    · rw [hsame.next_uuid]
      exact h.fresh.events e ((hevents e).1 he)
    · rw [hsame.next_uuid]
      exact h.fresh.entries r ((hrows r).1 hr)
  refine { rows := ?_, entries := ?_, owner := ?_, fresh := hfresh }
  · exact fun e he r hr => h.rows e ((hevents e).1 he) r ((hrows r).1 hr)
  · intro e he entry hentry
    obtain ⟨r, hr, hrest⟩ := h.entries e ((hevents e).1 he) entry hentry
    exact ⟨r, (hrows r).2 hr, hrest⟩
  · intro r hr
    obtain ⟨owner, howner, hrest⟩ := h.owner r ((hrows r).1 hr)
    exact ⟨owner, (hevents owner).2 howner, hrest⟩

/-! ## Runs

Of the runs only the persists are conditioned. The step lemma takes the case of a call that
returned; a call that failed was rolled back, and a reordering of rows is seen by none of the
fields.
-/

variable (parseAmount)

/-- A call that persists finds its logs in agreement with what is stored. Of the other calls
nothing is asked: orphaning marks an event and its rows by the same block number, and a
repair writes both. -/
def StepAgrees (db : Db) : LedgerOp → Prop
  | .persist_decoded_logs_with_options source logs options =>
    LogsAgree parseAmount source options db logs
  | _ => True

variable {parseAmount}

/-- What one call leaves. -/
theorem Agreement.apply {db db' : Db} {op : LedgerOp} (h : Agreement parseAmount db)
    (hagrees : StepAgrees parseAmount db op) (hop : op.apply parseAmount db = .ok db') :
    Agreement parseAmount db' := by
  have hfresh := LedgerOp.apply_freshRowIds hop h.fresh
  cases op with
  | ensure_source chain_id name contract_address standard start_block =>
    obtain ⟨row, hrow⟩ := map_snd_eq_ok.1 hop
    have hframe := ensure_source_frame hrow
    exact h.of_mapped hfresh (f := id) (g := id) (by rw [hframe, List.map_id])
      (by rw [hframe, List.map_id]) (fun _ => ⟨rfl, rfl⟩) (fun _ => ⟨rfl, rfl⟩)
      (fun _ _ hbelongs => ⟨hbelongs, id⟩)
  | persist_decoded_logs_with_options source logs options =>
    obtain ⟨summary, hsummary⟩ := map_snd_eq_ok.1 hop
    exact h.persist_logs hagrees (persist_decoded_logs_iff.1 ⟨summary, hsummary⟩).2
  | orphan_source_range source from_block to_block =>
    obtain ⟨summary, hsummary⟩ := map_snd_eq_ok.1 hop
    exact h.orphan_source_range hfresh hsummary
  | update_log_metadata source log =>
    obtain ⟨summary, hsummary⟩ := map_snd_eq_ok.1 hop
    exact h.update_log_metadata hfresh hsummary

/-- In every run whose persisted logs say of a stored event what is stored of it, the
events and the ledger agree. -/
theorem events_agree {ops : List LedgerOp} {db : Db}
    (h : Run (Guarded (LedgerStep parseAmount) (StepAgrees parseAmount)) Db.empty ops db) :
    EventsAgree parseAmount db := by
  have hreachable : LedgerReachable parseAmount Db.empty := LedgerReachable.empty
  have hempty : Agreement parseAmount Db.empty :=
    { rows := fun _ he => absurd he List.not_mem_nil
      entries := fun _ he => absurd he List.not_mem_nil
      owner := fun _ hr => absurd hr List.not_mem_nil
      fresh := hreachable.freshRowIds }
  have hkept : Agreement parseAmount db := by
    refine guarded_ledger_invariant ?_ (fun _ _ hs hsame => hs.of_sameRows hsame) h hempty
    intro s op t hs hagrees hok
    exact hs.apply hagrees hok
  exact hkept.toEventsAgree

end Agreement

/-! ## A log with another recipient -/

/-- Whether the logs agree can be computed. -/
def LogsAgree.decidable (parseAmount : AmountParser) (source : SourceRef)
    (options : PersistDecodedLogsOptions) :
    (db : Db) → (logs : List (RpcLog × DecodedLog)) →
      Decidable (LogsAgree parseAmount source options db logs)
  | _, [] => isTrue trivial
  | db, log :: rest =>
    match hlog : persist_log parseAmount source options db log with
    | .ok db' =>
      have := LogsAgree.decidable parseAmount source options db' rest
      decidable_of_iff (LogAgrees parseAmount source options db log ∧
        LogsAgree parseAmount source options db' rest) (by rw [LogsAgree, hlog])
    | .error _ =>
      decidable_of_iff (LogAgrees parseAmount source options db log)
        (by rw [LogsAgree, hlog, and_true])

instance (parseAmount : AmountParser) (db : Db) (op : LedgerOp) :
    Decidable (StepAgrees parseAmount db op) :=
  match op with
  | .persist_decoded_logs_with_options source logs options =>
    LogsAgree.decidable parseAmount source options db logs
  | .ensure_source .. => isTrue trivial
  | .orphan_source_range .. => isTrue trivial
  | .update_log_metadata .. => isTrue trivial

/-- A mint, orphaned and persisted again from another block hash. -/
def replayed_mint («to» : String) : List LedgerOp :=
  small_ledger [erc20_transfer "0x1" "0xb1" "0xd1" zero_address alice] ++
    [.orphan_source_range small_source 1 1,
     .persist_decoded_logs_with_options small_source.from_source
       [erc20_transfer "0x1" "0xb2" "0xd1" zero_address «to»] { restore_orphaned_conflicts := true }]

theorem events_agree_replayed_mint :
    EventsAgree plain_digits ((replayed_mint alice).foldl (LedgerOp.commit plain_digits) Db.empty) :=
  events_agree (run_of_allowed (by decide +kernel))

/-- Replayed to another recipient, the event names the new one and its row the old. -/
theorem replayed_mint_disagrees :
    ¬ ∀ db, LedgerReachable plain_digits db → EventsAgree plain_digits db := by
  intro h
  have hempty : LedgerReachable plain_digits Db.empty := LedgerReachable.empty
  have hagree := h _ (hempty.commits (replayed_mint bob))
  have hrow : ∃ event ∈ ((replayed_mint bob).foldl (LedgerOp.commit plain_digits)
      Db.empty).events.rows, ∃ row ∈ ((replayed_mint bob).foldl (LedgerOp.commit plain_digits)
      Db.empty).ledger_entries.rows, row.event_id = event.id ∧
        ∃ entry ∈ event.args, entry.batch_index = row.batch_index ∧ entry.columns ≠ row.columns := by
    decide +kernel
  obtain ⟨event, hevent, row, hrow, hid, entry, hentry, hbatch, hne⟩ := hrow
  exact hne ((hagree.rows event hevent row hrow hid).shows entry hentry hbatch).1

end EvmIndexer
