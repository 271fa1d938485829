/-
Where a stored row says its log is: the block, its hash and its time.

Three statements write these columns. An insert and `update_log_metadata` write all three
from one log; the `ON CONFLICT` clauses of the two upserts write the hash and the time, and
keep the block number. So a row that is persisted again shows one log only if the log is in
the block the row was first stored in (`FoundInPlace`). In a run whose persists meet that
condition every row shows one of the logs the run was given.
-/
import EvmIndexer.Reingest

set_option autoImplicit false

namespace EvmIndexer

open Sql Transition

/-! ## Coordinates

The block, its hash and its time are three columns, written by different statements. They are
compared with a log as one triple, so that a row which has the block of one observation and
the hash of another shows no log at all.
-/

/-- The block of a log, the hash of the block and its time. -/
structure Coordinates where
  block_number : Int
  block_hash : String
  block_timestamp : Option Timestamp
  deriving DecidableEq, Repr

/-- The coordinates a log is stored with. -/
def RpcLog.coordinates (log : RpcLog) : Result Coordinates := do
  let block_number ← parse_hex_u64 log.block_number
  .ok
    { block_number := as_i64 block_number
      block_hash := to_ascii_lowercase log.block_hash
      block_timestamp := log.block_timestamp }

theorem RpcLog.coordinates_eq_ok {log : RpcLog} {coordinates : Coordinates} :
    log.coordinates = .ok coordinates ↔ ∃ n, parse_hex_u64 log.block_number = .ok n ∧
      coordinates.block_number = as_i64 n ∧
      coordinates.block_hash = to_ascii_lowercase log.block_hash ∧
      coordinates.block_timestamp = log.block_timestamp := by
  unfold RpcLog.coordinates
  rw [bind_eq_ok]
  refine exists_congr fun n => and_congr_right fun _ => ?_
  rw [Except.ok.injEq, eq_comm, Coordinates.mk.injEq]

theorem coordinates_of_block {log : RpcLog} {n : Nat} (h : parse_hex_u64 log.block_number = .ok n) :
    log.coordinates = .ok
      { block_number := as_i64 n
        block_hash := to_ascii_lowercase log.block_hash
        block_timestamp := log.block_timestamp } := by
  unfold RpcLog.coordinates
  rw [h]
  rfl

/-- The coordinates an event shows. -/
def EventRow.coordinates (row : EventRow) : Coordinates :=
  { block_number := row.block_number
    block_hash := row.block_hash
    block_timestamp := row.block_timestamp }

/-- The coordinates a ledger entry shows. -/
def LedgerEntryRow.coordinates (row : LedgerEntryRow) : Coordinates :=
  { block_number := row.block_number
    block_hash := row.block_hash
    block_timestamp := row.block_timestamp }

/-- Every row is stored under the key of one of the logs and shows the coordinates of that log:
not those of another log of the block, and no mixture of two observations of its own. -/
structure Observed (observed : List RpcLog) (db : Db) : Prop where
  events : ∀ e ∈ db.events.rows, ∃ log ∈ observed,
    (e.transaction_hash, some e.log_index) = stored_key log ∧ log.coordinates = .ok e.coordinates
  entries : ∀ r ∈ db.ledger_entries.rows, ∃ log ∈ observed,
    (r.transaction_hash, some r.log_index) = stored_key log ∧ log.coordinates = .ok r.coordinates

theorem Observed.mono {observed observed' : List RpcLog} {db : Db} (h : Observed observed db)
    (hsub : observed ⊆ observed') : Observed observed' db := by
  constructor
  · intro e he
    obtain ⟨log, hlog, hshows⟩ := h.events e he
    exact ⟨log, hsub hlog, hshows⟩
  · intro r hr
    obtain ⟨log, hlog, hshows⟩ := h.entries r hr
    exact ⟨log, hsub hlog, hshows⟩

/-! ## A log in the block it is stored in

The conflict clauses set hash and time and leave the block number out. For a log in the block
it was stored in that is no difference. For any other the row is a mixture, and no later
persist repairs it; `update_log_metadata` does.
-/

/-- The entry is stored under the key of the log. -/
def LedgerEntryRow.at_log (source : SourceRef) (log : RpcLog) (row : LedgerEntryRow) : Prop :=
  row.chain_id = source.chain_id ∧ (row.transaction_hash, some row.log_index) = stored_key log

instance (source : SourceRef) (log : RpcLog) (row : LedgerEntryRow) :
    Decidable (row.at_log source log) := inferInstanceAs (Decidable (_ ∧ _))

/-- The block number a log is stored with. -/
def RpcLog.stored_block (log : RpcLog) : Option Int :=
  (parse_hex_u64 log.block_number).toOption.map as_i64

theorem stored_block_of_coordinates {log : RpcLog} {coordinates : Coordinates}
    (h : log.coordinates = .ok coordinates) : log.stored_block = some coordinates.block_number := by
  obtain ⟨n, hn, hblock, -⟩ := RpcLog.coordinates_eq_ok.1 h
  unfold RpcLog.stored_block
  rw [hn, hblock]
  rfl

/-- What the logs find stored under their keys is stored in their blocks: the event of a log,
and the rows of those of its entries that it persists. And logs of one call with one key are
of one block, since the later of them finds what the earlier has stored. -/
structure FoundInPlace (source : SourceRef) (db : Db) (logs : List (RpcLog × DecodedLog)) : Prop where
  events : ∀ log ∈ logs, ∀ e ∈ db.events.rows, e.at_log source log.1 →
    log.1.stored_block = some e.block_number
  entries : ∀ log ∈ logs, ∀ r ∈ db.ledger_entries.rows, r.at_log source log.1 →
    (∃ entry ∈ log.2.entries, entry.batch_index = r.batch_index) →
      log.1.stored_block = some r.block_number
  logs : ∀ a ∈ logs, ∀ b ∈ logs, stored_key a.1 = stored_key b.1 →
    a.1.stored_block = b.1.stored_block

instance (source : SourceRef) (db : Db) (logs : List (RpcLog × DecodedLog)) :
    Decidable (FoundInPlace source db logs) :=
  decidable_of_iff (_ ∧ _ ∧ _) ⟨fun h => ⟨h.1, h.2.1, h.2.2⟩, fun h => ⟨h.events, h.entries, h.logs⟩⟩

section Stored

variable {ρ : Type} [DecidableEq ρ] {rule : Upsert.Rule ρ}

/-- A loop of upserts that keep the key and the block number leaves rows with observed
coordinates, where no proposed row is of another block than a stored or proposed row under its
key. -/
theorem storeAll_observed {κ : Type} (key : ρ → κ) (coordinates : ρ → Coordinates)
    {P : κ → Coordinates → Prop} {rows values : List ρ}
    (hkey : ∀ {a b}, rule.same a b = true → key b = key a)
    (hmerge : ∀ value old, coordinates (rule.merge value old)
      = { coordinates value with block_number := (coordinates old).block_number })
    (hrows : ∀ r ∈ rows, P (key r) (coordinates r))
    (hvalues : ∀ value ∈ values, P (key value) (coordinates value))
    (hblock : ∀ value ∈ values, ∀ r, r ∈ rows ∨ r ∈ values → rule.same value r = true →
      (coordinates r).block_number = (coordinates value).block_number) :
    ∀ r ∈ Upsert.storeAll rule rows values, P (key r) (coordinates r) := by
  -- what carries the loop: a row is in the block of every value under its key
  have hloop : ∀ r ∈ Upsert.storeAll rule rows values, P (key r) (coordinates r) ∧
      ∀ value ∈ values, rule.same value r = true →
        (coordinates r).block_number = (coordinates value).block_number := by
    refine Upsert.forall_mem_storeAll ?_ ?_ ?_
    · intro r hr
      exact ⟨hrows r hr, fun value hvalue => hblock value hvalue r (Or.inl hr)⟩
    · intro v hv
      exact ⟨hvalues v hv, fun value hvalue => hblock value hvalue v (Or.inr hv)⟩
    · rintro value hvalue old hsame ⟨-, hold⟩
      have hmerged : coordinates (rule.merge value old) = coordinates value := by
        rw [hmerge, hold value hvalue hsame]
      have hmerged_key : key (rule.merge value old) = key value := by
        refine hkey ?_
        rw [rule.same_merge_right]
        exact hsame
      rw [hmerged, hmerged_key]
      refine ⟨hvalues value hvalue, fun w hw hwmerged => ?_⟩
      rw [rule.same_merge_right] at hwmerged
      rw [← hold value hvalue hsame, hold w hw hwmerged]
  exact fun r hr => (hloop r hr).1

end Stored

theorem EventRow.stored_coordinates (options : PersistDecodedLogsOptions) (values old : EventRow) :
    (values.stored options old).coordinates
      = { values.coordinates with block_number := old.block_number } := by
  unfold EventRow.stored
  split <;> rfl

theorem LedgerEntryRow.stored_coordinates (options : PersistDecodedLogsOptions)
    (values old : LedgerEntryRow) : (values.stored options old).coordinates
      = { values.coordinates with block_number := old.block_number } := by
  unfold LedgerEntryRow.stored
  split <;> rfl

section Calls

variable {parseAmount : AmountParser} {source : SourceRef} {options : PersistDecodedLogsOptions}

/-- The event proposed for a log shows the log. -/
theorem new_event_row_coordinates {id : Uuid} {log : RpcLog} {decoded : DecodedLog}
    {values : EventRow} (h : new_event_row id source log decoded = .ok values) :
    log.coordinates = .ok values.coordinates ∧ values.at_log source log ∧
      log.stored_block = some values.block_number := by
  have hkey := stored_key_of_event h
  unfold new_event_row at h
  simp only [bind_eq_ok] at h
  obtain ⟨block_number, hblock, _, -, _, -, hv⟩ := h
  have hv := Except.ok.inj hv
  have hnumber : values.block_number = as_i64 block_number := by rw [← hv]
  have hchain : values.chain_id = source.chain_id := by rw [← hv]
  refine ⟨RpcLog.coordinates_eq_ok.2 ⟨block_number, hblock, hnumber, ?_, ?_⟩, ⟨hchain, hkey⟩, ?_⟩
  · rw [← hv]
    rfl
  · rw [← hv]
    rfl
  · unfold RpcLog.stored_block
    rw [hblock, hnumber, Except.toOption, Option.map_some]

/-- The row proposed for an entry of a log shows the log. -/
theorem new_ledger_entry_row_coordinates {id event_id : Uuid} {log : RpcLog}
    {entry : DecodedLedgerEntry} {values : LedgerEntryRow}
    (h : new_ledger_entry_row parseAmount id source log event_id entry = .ok values) :
    log.coordinates = .ok values.coordinates ∧ values.at_log source log ∧
      log.stored_block = some values.block_number ∧ values.batch_index = entry.batch_index := by
  have hkey := stored_key_of_entry h
  unfold new_ledger_entry_row at h
  simp only [bind_eq_ok] at h
  obtain ⟨_, -, block_number, hblock, _, -, _, -, hv⟩ := h
  have hv := Except.ok.inj hv
  have hnumber : values.block_number = as_i64 block_number := by rw [← hv]
  have hchain : values.chain_id = source.chain_id := by rw [← hv]
  obtain ⟨hlog, hbatch⟩ := Prod.ext_iff.1 hkey
  refine ⟨RpcLog.coordinates_eq_ok.2 ⟨block_number, hblock, hnumber, ?_, ?_⟩, ⟨hchain, hlog⟩, ?_,
    hbatch⟩
  · rw [← hv]
    rfl
  · rw [← hv]
    rfl
  · unfold RpcLog.stored_block
    rw [hblock, hnumber, Except.toOption, Option.map_some]

/-- Persisting logs that are found in place leaves rows that show an observed log. -/
theorem Observed.persist {observed : List RpcLog} {logs : List (RpcLog × DecodedLog)}
    {summary : ScanSummary} {db db' : Db} (h : Observed observed db)
    (hplace : FoundInPlace source db logs)
    (hpersist : persist_decoded_logs_with_options parseAmount db source logs options
      = .ok (summary, db')) : Observed (observed ++ logs.map (·.1)) db' := by
  obtain ⟨⟨es, -, hfresh_events, hevents⟩, ⟨vs, -, hfresh_rows, hrows⟩⟩ :=
    persist_decoded_logs_stores hpersist
  have hold := h.mono (List.subset_append_left observed (logs.map (·.1)))
  have hnew : ∀ log ∈ logs, log.1 ∈ observed ++ logs.map (·.1) :=
    fun log hlog => List.mem_append_right _ (List.mem_map_of_mem hlog)
  constructor
  · -- each proposed event is that of one of the logs
    have hvalues : ∀ value ∈ es, ∃ log ∈ logs, log.1.coordinates = .ok value.coordinates ∧
        value.at_log source log.1 ∧ log.1.stored_block = some value.block_number := by
      intro value hvalue
      obtain ⟨log, hlog, hproposed⟩ :=
        exists_of_mapM_eq_ok hfresh_events (List.mem_map_of_mem hvalue)
      have hshows := new_event_row_coordinates hproposed
      exact ⟨log, hlog, hshows⟩
    rw [hevents]
    refine storeAll_observed (fun e => (e.transaction_hash, some e.log_index)) EventRow.coordinates
      (P := fun key c => ∃ log ∈ observed ++ logs.map (·.1),
        key = stored_key log ∧ log.coordinates = .ok c)
      (fun hsame => ?_) (EventRow.stored_coordinates options) hold.events ?_ ?_
    · obtain ⟨-, hhash, hindex⟩ := same_log_iff.1 hsame
      rw [hhash, hindex]
    · intro value hvalue
      obtain ⟨log, hlog, hcoordinates, ⟨-, hkey⟩, -⟩ := hvalues value hvalue
      exact ⟨log.1, hnew log hlog, hkey, hcoordinates⟩
    · -- a conflicting row is at the key of the log, so it was found in its place
      intro value hvalue r hr hsame
      obtain ⟨log, hlog, -, ⟨hchain, hkey⟩, hblock⟩ := hvalues value hvalue
      obtain ⟨hchain', hhash, hindex⟩ := same_log_iff.1 hsame
      have hr_key : (r.transaction_hash, some r.log_index) = stored_key log.1 := by
        rw [← hkey, hhash, hindex]
      have hr_block : log.1.stored_block = some r.block_number := by
        rcases hr with hr | hr
        · exact hplace.events log hlog r hr ⟨hchain'.symm.trans hchain, hr_key⟩
        · obtain ⟨other, hother, -, ⟨-, hother_key⟩, hother_block⟩ := hvalues r hr
          rw [← hother_block]
          exact hplace.logs log hlog other hother (hr_key.symm.trans hother_key)
      exact Option.some.inj (hr_block.symm.trans hblock)
  · -- each proposed row is that of an entry of one of the logs
    have hvalues : ∀ value ∈ vs, ∃ log ∈ logs, ∃ entry ∈ log.2.entries,
        log.1.coordinates = .ok value.coordinates ∧ value.at_log source log.1 ∧
          log.1.stored_block = some value.block_number ∧ value.batch_index = entry.batch_index := by
      intro value hvalue
      obtain ⟨entry, hentry, hproposed⟩ :=
        exists_of_mapM_eq_ok hfresh_rows (List.mem_map_of_mem hvalue)
      obtain ⟨log, hlog, hof⟩ := List.mem_flatMap.1 hentry
      obtain ⟨decoded, hdecoded, rfl⟩ := List.mem_map.1 hof
      have hshows := new_ledger_entry_row_coordinates hproposed
      exact ⟨log, hlog, decoded, hdecoded, hshows⟩
    rw [hrows.storeAll]
    refine storeAll_observed (fun r => (r.transaction_hash, some r.log_index))
      LedgerEntryRow.coordinates
      (P := fun key c => ∃ log ∈ observed ++ logs.map (·.1),
        key = stored_key log ∧ log.coordinates = .ok c)
      (fun hsame => ?_) (LedgerEntryRow.stored_coordinates options) hold.entries ?_ ?_
    · obtain ⟨-, hhash, hindex, -⟩ := same_entry_iff.1 hsame
      rw [hhash, hindex]
    · intro value hvalue
      obtain ⟨log, hlog, -, -, hcoordinates, ⟨-, hkey⟩, -⟩ := hvalues value hvalue
      exact ⟨log.1, hnew log hlog, hkey, hcoordinates⟩
    · -- likewise, where the batch index is that of the entry too
      intro value hvalue r hr hsame
      obtain ⟨log, hlog, entry, hentry, -, ⟨hchain, hkey⟩, hblock, hbatch⟩ := hvalues value hvalue
      obtain ⟨hchain', hhash, hindex, hbatch'⟩ := same_entry_iff.1 hsame
      have hr_key : (r.transaction_hash, some r.log_index) = stored_key log.1 := by
        rw [← hkey, hhash, hindex]
      have hr_block : log.1.stored_block = some r.block_number := by
        rcases hr with hr | hr
        · exact hplace.entries log hlog r hr ⟨hchain'.trans hchain, hr_key⟩
            ⟨entry, hentry, hbatch.symm.trans hbatch'.symm⟩
        · obtain ⟨other, hother, -, -, -, ⟨-, hother_key⟩, hother_block, -⟩ := hvalues r hr
          rw [← hother_block]
          exact hplace.logs log hlog other hother (hr_key.symm.trans hother_key)
      exact Option.some.inj (hr_block.symm.trans hblock)

/-- Orphaning moves no row. -/
theorem Observed.orphan {observed : List RpcLog} {source : SourceRow} {from_block to_block : Int}
    {summary : OrphanRangeSummary} {db db' : Db} (h : Observed observed db)
    (horphan : orphan_source_range db source from_block to_block = .ok (summary, db')) :
    Observed observed db' := by
  obtain ⟨-, -, -, hrows, hevents⟩ := orphan_source_range_spec horphan
  constructor
  · rw [hevents]
    intro e' he'
    obtain ⟨e, he, rfl⟩ := List.mem_map.1 he'
    rw [Table.setRow_keeps EventRow.coordinates, Table.setRow_keeps EventRow.transaction_hash,
      Table.setRow_keeps EventRow.log_index]
    exact h.events e he
  · rw [hrows]
    intro r' hr'
    obtain ⟨r, hr, rfl⟩ := List.mem_map.1 hr'
    rw [Table.setRow_keeps LedgerEntryRow.coordinates,
      Table.setRow_keeps LedgerEntryRow.transaction_hash,
      Table.setRow_keeps LedgerEntryRow.log_index]
    exact h.entries r hr

theorem setRow_same_log {p : EventRow → Bool} {set : EventRow → EventRow}
    (hset : ∀ e : EventRow, e.same_log (set e) = true) (e : EventRow) :
    e.same_log (Table.setRow p set e) = true := by
  unfold Table.setRow
  split
  · exact hset e
  · exact same_log_iff.2 ⟨rfl, rfl, rfl⟩

theorem setRow_same_entry {p : LedgerEntryRow → Bool} {set : LedgerEntryRow → LedgerEntryRow}
    (hset : ∀ r : LedgerEntryRow, r.same_entry (set r) = true) (r : LedgerEntryRow) :
    r.same_entry (Table.setRow p set r) = true := by
  unfold Table.setRow
  split
  · exact hset r
  · exact same_entry_iff.2 ⟨rfl, rfl, rfl, rfl⟩

/-- What a repair leaves: rows at the key of its log show the log, and all others are as they
were. -/
theorem update_log_metadata_rows {source : SourceRow} {log : RpcLog} {update : LogMetadataUpdate}
    {db db' : Db} (h : update_log_metadata db source log = .ok (update, db')) :
    ∃ f g, db'.events.rows = db.events.rows.map f ∧
      db'.ledger_entries.rows = db.ledger_entries.rows.map g ∧
      (∀ e : EventRow, e.same_log (f e) = true ∧ (f e = e ∨
        ((e.transaction_hash, some e.log_index) = stored_key log ∧
          log.coordinates = .ok (f e).coordinates))) ∧
      (∀ r : LedgerEntryRow, r.same_entry (g r) = true ∧ (g r = r ∨
        ((r.transaction_hash, some r.log_index) = stored_key log ∧
          log.coordinates = .ok (g r).coordinates))) := by
  unfold update_log_metadata at h
  simp only [bind_eq_ok, db_result_eq_ok] at h
  obtain ⟨log_index, hindex, block_number, hblock, _, -, events, hevents, ledger_entries, hentries,
    hdb⟩ := h
  cases hdb
  have hkey : stored_key log = (to_ascii_lowercase log.transaction_hash, some (as_i32 log_index)) := by
    unfold stored_key
    rw [hindex]
    rfl
  have hcoordinates := coordinates_of_block hblock
  generalize as_i64 block_number = stored_block at hevents hentries hcoordinates
  generalize as_i32 log_index = stored_index at hevents hentries hkey
  -- the two updates set the rows at the key of the log, and only these
  refine ⟨_, _, (Table.update_eq_some.1 hevents).2, (Table.update_eq_some.1 hentries).2,
    fun e => ⟨?_, ?_⟩, fun r => ⟨?_, ?_⟩⟩
  · apply setRow_same_log
    intro e
    exact same_log_iff.2 ⟨rfl, rfl, rfl⟩
  · unfold Table.setRow
    split
    · rename_i hat
      simp only [Bool.and_eq_true, beq_iff_eq] at hat
      obtain ⟨⟨-, hhash⟩, hlog⟩ := hat
      exact Or.inr ⟨by rw [hkey, hhash, hlog], hcoordinates⟩
    · exact Or.inl rfl
  · apply setRow_same_entry
    intro r
    exact same_entry_iff.2 ⟨rfl, rfl, rfl, rfl⟩
  · unfold Table.setRow
    split
    · rename_i hat
      simp only [Bool.and_eq_true, beq_iff_eq] at hat
      obtain ⟨⟨-, hhash⟩, hlog⟩ := hat
      exact Or.inr ⟨by rw [hkey, hhash, hlog], hcoordinates⟩
    · exact Or.inl rfl

/-- A repair writes all three columns from its log, to rows stored under the key of that log.
The other rows are as they were, so it needs no condition. -/
theorem Observed.repair {observed : List RpcLog} {source : SourceRow} {log : RpcLog}
    {update : LogMetadataUpdate} {db db' : Db} (h : Observed observed db)
    (hupdate : update_log_metadata db source log = .ok (update, db')) :
    Observed (observed ++ [log]) db' := by
  obtain ⟨f, g, hevents, hentries, hf, hg⟩ := update_log_metadata_rows hupdate
  have hold := h.mono (List.subset_append_left observed [log])
  have hlog : log ∈ observed ++ [log] := List.mem_append_right _ (List.mem_singleton_self log)
  constructor
  · rw [hevents]
    intro e' he'
    obtain ⟨e, he, rfl⟩ := List.mem_map.1 he'
    obtain ⟨hsame, hunchanged | ⟨hkey, hshows⟩⟩ := hf e
    · rw [hunchanged]
      exact hold.events e he
    · -- the event is of the log, and takes its columns
      obtain ⟨-, hhash, hindex⟩ := same_log_iff.1 hsame
      rw [← hhash, ← hindex]
      exact ⟨log, hlog, hkey, hshows⟩
  · rw [hentries]
    intro r' hr'
    obtain ⟨r, hr, rfl⟩ := List.mem_map.1 hr'
    obtain ⟨hsame, hunchanged | ⟨hkey, hshows⟩⟩ := hg r
    · rw [hunchanged]
      exact hold.entries r hr
    · obtain ⟨-, hhash, hindex, -⟩ := same_entry_iff.1 hsame
      rw [hhash, hindex]
      exact ⟨log, hlog, hkey, hshows⟩

/-! ## Runs

The list of observed logs grows with each call, so the invariant is about the logs of the
whole run before it. A row that a call does not touch shows a log of an earlier call; a row
it writes shows one of its own.
-/

/-- The logs a call is given. -/
def LedgerOp.observed : LedgerOp → List RpcLog
  | .persist_decoded_logs_with_options _ logs _ => logs.map (·.1)
  | .update_log_metadata _ log => [log]
  | _ => []

/-- A call that persists finds its logs in place. Of the other calls nothing is asked:
orphaning leaves the three columns alone, and a repair writes all of them. -/
def StepInPlace (db : Db) : LedgerOp → Prop
  | .persist_decoded_logs_with_options source logs _ => FoundInPlace source db logs
  | _ => True

instance (db : Db) (op : LedgerOp) : Decidable (StepInPlace db op) :=
  match op with
  | .persist_decoded_logs_with_options source logs _ =>
    inferInstanceAs (Decidable (FoundInPlace source db logs))
  | .ensure_source .. => isTrue trivial
  | .orphan_source_range .. => isTrue trivial
  | .update_log_metadata .. => isTrue trivial

/-- What one call leaves. -/
theorem Observed.apply {observed : List RpcLog} {op : LedgerOp} {db db' : Db}
    (h : Observed observed db) (hplace : StepInPlace db op)
    (hop : op.apply parseAmount db = .ok db') : Observed (observed ++ op.observed) db' := by
  cases op with
  | ensure_source chain_id name contract_address standard start_block =>
    obtain ⟨row, hrow⟩ := map_snd_eq_ok.1 hop
    have hframe := ensure_source_frame hrow
    unfold LedgerOp.observed
    rw [hframe, List.append_nil]
    exact ⟨h.events, h.entries⟩
  | persist_decoded_logs_with_options source logs options =>
    obtain ⟨summary, hsummary⟩ := map_snd_eq_ok.1 hop
    exact h.persist hplace hsummary
  | orphan_source_range source from_block to_block =>
    obtain ⟨summary, hsummary⟩ := map_snd_eq_ok.1 hop
    unfold LedgerOp.observed
    rw [List.append_nil]
    exact h.orphan hsummary
  | update_log_metadata source log =>
    obtain ⟨update, hupdate⟩ := map_snd_eq_ok.1 hop
    exact h.repair hupdate

theorem Observed.of_sameRows {observed : List RpcLog} {db db' : Db} (h : Observed observed db)
    (hsame : db.SameRows db') : Observed observed db' :=
  ⟨fun e he => h.events e (hsame.events.mem_iff.2 he),
    fun r hr => h.entries r (hsame.ledger_entries.mem_iff.2 hr)⟩

/-- In every run whose persists find their logs in place, the block number, the hash and the
time of every row are those of one log the run was given, and the row is stored under the key
of that log. -/
theorem coordinates_stay_together {ops : List LedgerOp} {db : Db}
    (h : Run (Guarded (LedgerStep parseAmount) StepInPlace) Db.empty ops db) :
    Observed (ops.flatMap LedgerOp.observed) db := by
  induction h with
  | nil => exact ⟨fun e he => absurd he List.not_mem_nil, fun r hr => absurd hr List.not_mem_nil⟩
  | @snoc ops db db' op _ hstep ih =>
    obtain ⟨hstep, hplace⟩ := hstep
    rw [List.flatMap_append, List.flatMap_cons, List.flatMap_nil, List.append_nil]
    have hkept := ih.mono (List.subset_append_left (ops.flatMap LedgerOp.observed) op.observed)
    exact LedgerStep.preserves hstep hkept (fun _ hok => ih.apply hplace hok)
      fun _ _ hs hsame => hs.of_sameRows hsame

end Calls

/-! ## A log in another block -/

/-- A mint persisted again in the block it is stored in, with the hash the block has now. -/
def mint_seen_again (block_number : String) : List LedgerOp :=
  small_ledger [erc20_transfer "0x1" "0xb1" "0xd1" zero_address alice] ++
    [.persist_decoded_logs_with_options small_source.from_source
       [erc20_transfer block_number "0xb2" "0xd1" zero_address alice]
       { restore_orphaned_conflicts := false }]

theorem coordinates_stay_together_mint_seen_again :
    Observed ((mint_seen_again "0x1").flatMap LedgerOp.observed)
      ((mint_seen_again "0x1").foldl (LedgerOp.commit plain_digits) Db.empty) :=
  coordinates_stay_together (run_of_allowed (by decide +kernel))

/-- Seen again in block 2, it is stored in block 1 with the hash of block 2. -/
theorem moved_log_mixes_coordinates :
    ¬ ∀ (ops : List LedgerOp) (db : Db), Run (LedgerStep plain_digits) Db.empty ops db →
      Observed (ops.flatMap LedgerOp.observed) db := by
  intro h
  have hmixed : ∃ e ∈ ((mint_seen_again "0x2").foldl (LedgerOp.commit plain_digits)
      Db.empty).events.rows, ∀ log ∈ (mint_seen_again "0x2").flatMap LedgerOp.observed,
        log.coordinates ≠ .ok e.coordinates := by decide +kernel
  obtain ⟨e, he, hnone⟩ := hmixed
  obtain ⟨log, hlog, -, hcoordinates⟩ :=
    (h _ _ (run_of_commits Db.empty (mint_seen_again "0x2"))).events e he
  exact hnone log hlog hcoordinates

end EvmIndexer
