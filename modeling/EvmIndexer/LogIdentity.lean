/-
The identity of a stored log.

An event is stored under its transaction hash and its log index, and every statement that
looks one up computes the index as `parse_hex_u64(..)? as i32`. The cast keeps the low 32
bits, and the `CHECK (log_index >= 0)` of the tables refuses what turns negative. So an
index from `2^32` on either is refused or takes the row of a smaller index; the numbers of
the blocks are safe, because a `BIGINT` that does not fit turns negative and is refused.

A `LedgerHistory` is a database of the ledger with the calls that were committed on the way
to it, and the logs those calls were given. Whatever the history, every accepted log has its
rows and every row has the block of a log at its key. That no two logs share a row and that
the rows show the indexes of their logs holds just when every accepted index is below `2^32`
(`log_identity_iff`).
-/
import EvmIndexer.Coordinates

set_option autoImplicit false

namespace EvmIndexer

open Sql Transition

/-! ## Histories

The database does not say what was persisted, so the calls are noted beside it. A call that
failed is not noted, as its logs were not accepted. With the notes left out a history is a
run of the ledger, and every run has one.
-/

/-- A database, and the calls that were committed on the way to it, in order. -/
structure LedgerHistory where
  db : Db
  calls : List LedgerOp

/-- A transaction that commits is noted; one that fails or is aborted leaves the rows. -/
def HistoryStep (parseAmount : AmountParser) (s : LedgerHistory) (op : LedgerOp)
    (t : LedgerHistory) : Prop :=
  (∃ db, op.apply parseAmount s.db = .ok db ∧ db.SameRows t.db ∧ t.calls = s.calls ++ [op]) ∨
    (s.db.SameRows t.db ∧ t.calls = s.calls)

/-- The histories of the ledger: from the empty database on, any calls in any order, each
noted beside the database it left. A call that was refused leaves no note. -/
def HistoryReachable (parseAmount : AmountParser) : LedgerHistory → Prop :=
  Reachable (HistoryStep parseAmount) fun s => s.db = Db.empty ∧ s.calls = []

/-- A log that was given to `persist_decoded_logs_with_options`, and the source. -/
structure AcceptedLog where
  source : SourceRef
  log : RpcLog
  decoded : DecodedLog

/-- The logs a call persists. -/
def LedgerOp.accepts : LedgerOp → List AcceptedLog
  | .persist_decoded_logs_with_options source logs _ =>
    logs.map fun log => { source, log := log.1, decoded := log.2 }
  | _ => []

/-- The logs that were persisted. -/
def LedgerHistory.accepted (s : LedgerHistory) : List AcceptedLog := s.calls.flatMap LedgerOp.accepts

/-- The logs that were persisted or repaired from. -/
def LedgerHistory.observed (s : LedgerHistory) : List RpcLog := s.calls.flatMap LedgerOp.observed

section History

variable {parseAmount : AmountParser}

/-- The steps of a history are transactions of the ledger. -/
theorem HistoryStep.ledgerStep {s t : LedgerHistory} {op : LedgerOp}
    (h : HistoryStep parseAmount s op t) : LedgerStep parseAmount s.db op t.db := by
  rcases h with ⟨db, hop, hsame, -⟩ | ⟨hsame, -⟩
  · left
    unfold LedgerOp.commit
    rw [hop]
    exact hsame
  · exact Or.inr hsame

/-- Every run of the ledger has a history. -/
theorem exists_history {ops : List LedgerOp} {db : Db}
    (h : Run (LedgerStep parseAmount) Db.empty ops db) :
    ∃ s, HistoryReachable parseAmount s ∧ s.db = db := by
  induction h with
  | nil => exact ⟨{ db := Db.empty, calls := [] }, ⟨_, [], ⟨rfl, rfl⟩, Run.nil⟩, rfl⟩
  | @snoc ops mid db op _ hstep ih =>
    obtain ⟨s, hs, rfl⟩ := ih
    rcases hstep with hrun | habort
    · unfold LedgerOp.commit at hrun
      split at hrun
      · rename_i committed hop
        exact ⟨{ db, calls := s.calls ++ [op] },
          hs.snoc (a := op) (Or.inl ⟨committed, hop, hrun, rfl⟩), rfl⟩
      · exact ⟨{ db, calls := s.calls }, hs.snoc (a := op) (Or.inr ⟨hrun, rfl⟩), rfl⟩
    · exact ⟨{ db, calls := s.calls }, hs.snoc (a := op) (Or.inr ⟨habort, rfl⟩), rfl⟩

/-- What holds of nothing and every committed call preserves, every history has. -/
theorem history_invariant {I : List LedgerOp → Db → Prop} (hempty : I [] Db.empty)
    (hop : ∀ calls op db db', I calls db → op.apply parseAmount db = .ok db' → I (calls ++ [op]) db')
    (horder : ∀ calls db db', I calls db → db.SameRows db' → I calls db') {s : LedgerHistory}
    (h : HistoryReachable parseAmount s) : I s.calls s.db := by
  refine Reachable.invariant (I := fun s : LedgerHistory => I s.calls s.db) ?_ ?_ h
  · rintro s ⟨hdb, hcalls⟩
    rw [hdb, hcalls]
    exact hempty
  · intro s op t hs hstep
    rcases hstep with ⟨db, happly, hsame, hcalls⟩ | ⟨hsame, hcalls⟩
    · rw [hcalls]
      exact horder _ db t.db (hop s.calls op s.db db hs happly) hsame
    · rw [hcalls]
      exact horder _ s.db t.db hs hsame

end History

/-! ## The rows of an accepted log

Three things can be said without a condition on the indexes. An accepted log finds rows at
its key, which may be the key of another log as well. A row is in the block of some log at
its key. And rows are never deleted.
-/

/-- Every accepted log has its event, and every entry of it a ledger entry. Which row it is
the key says, so a log that was accepted twice may share one. -/
structure StoresAccepted (accepted : List AcceptedLog) (db : Db) : Prop where
  events : ∀ a ∈ accepted, ∃ e ∈ db.events.rows, e.at_log a.source a.log
  entries : ∀ a ∈ accepted, ∀ entry ∈ a.decoded.entries, ∃ r ∈ db.ledger_entries.rows,
    r.at_log a.source a.log ∧ r.batch_index = entry.batch_index

/-- Every row is at the key of one of the logs, in the block of that log. -/
structure ShowsBlocks (observed : List RpcLog) (db : Db) : Prop where
  events : ∀ e ∈ db.events.rows, ∃ log ∈ observed,
    (e.transaction_hash, some e.log_index) = stored_key log ∧ log.stored_block = some e.block_number
  entries : ∀ r ∈ db.ledger_entries.rows, ∃ log ∈ observed,
    (r.transaction_hash, some r.log_index) = stored_key log ∧ log.stored_block = some r.block_number

/-- Every row stays, for the log it is of. -/
structure RowsStay (db db' : Db) : Prop where
  events : ∀ e ∈ db.events.rows, ∃ e' ∈ db'.events.rows, ∀ source log,
    e.at_log source log → e'.at_log source log
  entries : ∀ r ∈ db.ledger_entries.rows, ∃ r' ∈ db'.ledger_entries.rows,
    r'.batch_index = r.batch_index ∧ ∀ source log, r.at_log source log → r'.at_log source log

theorem StoresAccepted.of_rowsStay {accepted : List AcceptedLog} {db db' : Db}
    (h : StoresAccepted accepted db) (hstay : RowsStay db db') : StoresAccepted accepted db' := by
  constructor
  · intro a ha
    obtain ⟨e, he, hat⟩ := h.events a ha
    obtain ⟨e', he', hkept⟩ := hstay.events e he
    exact ⟨e', he', hkept _ _ hat⟩
  · intro a ha entry hentry
    obtain ⟨r, hr, hat, hbatch⟩ := h.entries a ha entry hentry
    obtain ⟨r', hr', hsame, hkept⟩ := hstay.entries r hr
    exact ⟨r', hr', hkept _ _ hat, hsame.trans hbatch⟩

theorem StoresAccepted.append {accepted accepted' : List AcceptedLog} {db : Db}
    (h : StoresAccepted accepted db) (k : StoresAccepted accepted' db) :
    StoresAccepted (accepted ++ accepted') db := by
  constructor
  · intro a ha
    rcases List.mem_append.1 ha with ha | ha
    · exact h.events a ha
    · exact k.events a ha
  · intro a ha
    rcases List.mem_append.1 ha with ha | ha
    · exact h.entries a ha
    · exact k.entries a ha

theorem ShowsBlocks.mono {observed observed' : List RpcLog} {db : Db} (h : ShowsBlocks observed db)
    (hsub : observed ⊆ observed') : ShowsBlocks observed' db := by
  constructor
  · intro e he
    obtain ⟨log, hlog, hshows⟩ := h.events e he
    exact ⟨log, hsub hlog, hshows⟩
  · intro r hr
    obtain ⟨log, hlog, hshows⟩ := h.entries r hr
    exact ⟨log, hsub hlog, hshows⟩

/-- Rows in conflict are of the same logs. -/
theorem EventRow.at_log_of_same {a b : EventRow} (h : a.same_log b = true) {source : SourceRef}
    {log : RpcLog} (hat : a.at_log source log) : b.at_log source log := by
  obtain ⟨hchain, hhash, hindex⟩ := same_log_iff.1 h
  obtain ⟨hsource, hkey⟩ := hat
  refine ⟨hchain.symm.trans hsource, ?_⟩
  rw [← hkey, hhash, hindex]

theorem LedgerEntryRow.at_log_of_same {a b : LedgerEntryRow} (h : a.same_entry b = true)
    {source : SourceRef} {log : RpcLog} (hat : a.at_log source log) : b.at_log source log := by
  obtain ⟨hchain, hhash, hindex, -⟩ := same_entry_iff.1 h
  obtain ⟨hsource, hkey⟩ := hat
  refine ⟨hchain.trans hsource, ?_⟩
  rw [← hkey, hhash, hindex]

/-! ## What the calls do to the rows

Statements insert rows, or map them without touching the key. So what was there stays at its
key, and for the block it is enough to look at an insert and at the one statement that writes
block numbers.
-/

section Calls

variable {parseAmount : AmountParser} {source : SourceRef} {options : PersistDecodedLogsOptions}
  {logs : List (RpcLog × DecodedLog)} {summary : ScanSummary} {db db' : Db}

/-- Persisting updates rows and adds some. -/
theorem RowsStay.persist (h : persist_decoded_logs_with_options parseAmount db source logs options
    = .ok (summary, db')) : RowsStay db db' := by
  obtain ⟨⟨es, -, -, hevents⟩, ⟨vs, -, -, hrows⟩⟩ := persist_decoded_logs_stores h
  constructor
  · intro e he
    obtain ⟨e', he', hsame⟩ := Upsert.exists_same_storeAll (event_rule options)
      db.events.rows es (Or.inl he)
    rw [hevents]
    exact ⟨e', he', fun _ _ => EventRow.at_log_of_same hsame⟩
  · intro r hr
    obtain ⟨r', hr', hsame⟩ := Upsert.exists_same_storeAll (entry_rule options)
      db.ledger_entries.rows vs (Or.inl hr)
    rw [hrows.storeAll]
    exact ⟨r', hr', (same_entry_iff.1 hsame).2.2.2, fun _ _ => LedgerEntryRow.at_log_of_same hsame⟩

/-- A call stores what it accepts, each log when the loop comes to it, and no later turn
takes a row away. -/
theorem StoresAccepted.persist (h : persist_decoded_logs_with_options parseAmount db source logs
    options = .ok (summary, db')) :
    StoresAccepted (LedgerOp.persist_decoded_logs_with_options source logs options).accepts db' := by
  obtain ⟨⟨es, -, hfresh_events, hevents⟩, ⟨vs, -, hfresh_rows, hrows⟩⟩ := persist_decoded_logs_stores h
  unfold LedgerOp.accepts
  constructor
  · -- the event of a log is stored at its key
    intro a ha
    obtain ⟨log, hlog, rfl⟩ := List.mem_map.1 ha
    obtain ⟨forgotten, hforgotten, hproposed⟩ := exists_result_of_mapM hfresh_events hlog
    obtain ⟨value, hvalue, rfl⟩ := List.mem_map.1 hforgotten
    obtain ⟨e, he, hsame⟩ := Upsert.exists_same_storeAll (event_rule options)
      db.events.rows _ (Or.inr hvalue)
    have hat : value.at_log source log.1 := (new_event_row_coordinates hproposed).2.1
    rw [hevents]
    exact ⟨e, he, EventRow.at_log_of_same hsame hat⟩
  · -- so is each entry, at its index in the batch
    intro a ha entry hentry
    obtain ⟨log, hlog, rfl⟩ := List.mem_map.1 ha
    have hmem : (log.1, entry) ∈ log_entries logs :=
      List.mem_flatMap.2 ⟨log, hlog, List.mem_map_of_mem hentry⟩
    obtain ⟨forgotten, hforgotten, hproposed⟩ := exists_result_of_mapM hfresh_rows hmem
    obtain ⟨value, hvalue, rfl⟩ := List.mem_map.1 hforgotten
    obtain ⟨r, hr, hsame⟩ := Upsert.exists_same_storeAll (entry_rule options)
      db.ledger_entries.rows _ (Or.inr hvalue)
    obtain ⟨-, hat, -, hbatch⟩ := new_ledger_entry_row_coordinates hproposed
    rw [hrows.storeAll]
    exact ⟨r, hr, LedgerEntryRow.at_log_of_same hsame hat,
      (same_entry_iff.1 hsame).2.2.2.trans hbatch⟩

/-- A new row is in the block of its log, and an updated one keeps its block. -/
theorem ShowsBlocks.persist {observed : List RpcLog} (hdb : ShowsBlocks observed db)
    (h : persist_decoded_logs_with_options parseAmount db source logs options = .ok (summary, db')) :
    ShowsBlocks (observed ++ logs.map (·.1)) db' := by
  obtain ⟨⟨es, -, hfresh_events, hevents⟩, ⟨vs, -, hfresh_rows, hrows⟩⟩ := persist_decoded_logs_stores h
  have hold := hdb.mono (List.subset_append_left observed (logs.map (·.1)))
  have hnew : ∀ log ∈ logs, log.1 ∈ observed ++ logs.map (·.1) :=
    fun log hlog => List.mem_append_right _ (List.mem_map_of_mem hlog)
  constructor
  · -- a stored event keeps its key and its block when a log conflicts with it
    rw [hevents]
    refine Upsert.forall_mem_storeAll hold.events ?_ ?_
    · intro value hvalue
      obtain ⟨log, hlog, hproposed⟩ :=
        exists_of_mapM_eq_ok hfresh_events (List.mem_map_of_mem hvalue)
      obtain ⟨-, hat, hblock⟩ := new_event_row_coordinates hproposed
      exact ⟨log.1, hnew log hlog, hat.2, hblock⟩
    · rintro value - old - ⟨log, hlog, hkey, hblock⟩
      obtain ⟨-, -, -, hhash, hindex, hnumber⟩ := EventRow.stored_keeps options value old
      refine ⟨log, hlog, ?_, ?_⟩
      · rw [← hkey]
        exact Prod.ext hhash (congrArg some hindex)
      · rw [hblock]
        exact congrArg some hnumber.symm
  · -- and so does a stored entry
    rw [hrows.storeAll]
    refine Upsert.forall_mem_storeAll hold.entries ?_ ?_
    · intro value hvalue
      obtain ⟨entry, hentry, hproposed⟩ :=
        exists_of_mapM_eq_ok hfresh_rows (List.mem_map_of_mem hvalue)
      obtain ⟨log, hlog, hof⟩ := List.mem_flatMap.1 hentry
      obtain ⟨decoded, -, rfl⟩ := List.mem_map.1 hof
      obtain ⟨-, hat, hblock, -⟩ := new_ledger_entry_row_coordinates hproposed
      exact ⟨log.1, hnew log hlog, hat.2, hblock⟩
    · rintro value - old - ⟨log, hlog, hkey, hblock⟩
      have hsame := same_entry_iff.1 ((entry_rule options).same_merge value old)
      have hnumber : ((entry_rule options).merge value old).block_number = old.block_number :=
        LedgerEntryRow.stored_block_number options value old
      refine ⟨log, hlog, ?_, ?_⟩
      · rw [← hkey]
        exact Prod.ext hsame.2.1 (congrArg some hsame.2.2.1)
      · rw [hblock]
        exact congrArg some hnumber.symm

/-- Rows that a statement maps to rows of the same logs stay. -/
theorem RowsStay.of_map {f : EventRow → EventRow} {g : LedgerEntryRow → LedgerEntryRow}
    (hevents : db'.events.rows = db.events.rows.map f)
    (hentries : db'.ledger_entries.rows = db.ledger_entries.rows.map g)
    (hf : ∀ e : EventRow, e.same_log (f e) = true)
    (hg : ∀ r : LedgerEntryRow, r.same_entry (g r) = true) : RowsStay db db' := by
  constructor
  · intro e he
    rw [hevents]
    exact ⟨f e, List.mem_map_of_mem he, fun _ _ => EventRow.at_log_of_same (hf e)⟩
  · intro r hr
    rw [hentries]
    exact ⟨g r, List.mem_map_of_mem hr, (same_entry_iff.1 (hg r)).2.2.2,
      fun _ _ => LedgerEntryRow.at_log_of_same (hg r)⟩

/-- Orphaning sets marks. -/
theorem RowsStay.orphan {source : SourceRow} {from_block to_block : Int}
    {summary : OrphanRangeSummary}
    (h : orphan_source_range db source from_block to_block = .ok (summary, db')) :
    RowsStay db db' := by
  obtain ⟨-, -, -, hrows, hevents⟩ := orphan_source_range_spec h
  refine RowsStay.of_map hevents hrows (setRow_same_log fun e => ?_) (setRow_same_entry fun r => ?_)
  · exact same_log_iff.2 ⟨rfl, rfl, rfl⟩
  · exact same_entry_iff.2 ⟨rfl, rfl, rfl, rfl⟩

theorem ShowsBlocks.orphan {observed : List RpcLog} {source : SourceRow} {from_block to_block : Int}
    {summary : OrphanRangeSummary} (hdb : ShowsBlocks observed db)
    (h : orphan_source_range db source from_block to_block = .ok (summary, db')) :
    ShowsBlocks observed db' := by
  obtain ⟨-, -, -, hrows, hevents⟩ := orphan_source_range_spec h
  constructor
  · rw [hevents]
    intro e' he'
    obtain ⟨e, he, rfl⟩ := List.mem_map.1 he'
    unfold Table.setRow
    split
    · exact hdb.events e he
    · exact hdb.events e he
  · rw [hrows]
    intro r' hr'
    obtain ⟨r, hr, rfl⟩ := List.mem_map.1 hr'
    unfold Table.setRow
    split
    · exact hdb.entries r hr
    · exact hdb.entries r hr

theorem RowsStay.repair {source : SourceRow} {log : RpcLog} {update : LogMetadataUpdate}
    (h : update_log_metadata db source log = .ok (update, db')) : RowsStay db db' := by
  obtain ⟨f, g, hevents, hentries, hf, hg⟩ := update_log_metadata_rows h
  exact RowsStay.of_map hevents hentries (fun e => (hf e).1) fun r => (hg r).1

theorem ShowsBlocks.repair {observed : List RpcLog} {source : SourceRow} {log : RpcLog}
    {update : LogMetadataUpdate} (hdb : ShowsBlocks observed db)
    (h : update_log_metadata db source log = .ok (update, db')) :
    ShowsBlocks (observed ++ [log]) db' := by
  obtain ⟨f, g, hevents, hentries, hf, hg⟩ := update_log_metadata_rows h
  have hold := hdb.mono (List.subset_append_left observed [log])
  have hlog : log ∈ observed ++ [log] := List.mem_append_right _ (List.mem_singleton_self log)
  constructor
  · rw [hevents]
    intro e' he'
    obtain ⟨e, he, rfl⟩ := List.mem_map.1 he'
    obtain ⟨hsame, hcases⟩ := hf e
    rcases hcases with hunchanged | ⟨hkey, hblock⟩
    · rw [hunchanged]
      exact hold.events e he
    · -- the event is of the log, so it now shows the block of the log
      obtain ⟨-, hhash, hindex⟩ := same_log_iff.1 hsame
      rw [← hhash, ← hindex]
      exact ⟨log, hlog, hkey, stored_block_of_coordinates hblock⟩
  · rw [hentries]
    intro r' hr'
    obtain ⟨r, hr, rfl⟩ := List.mem_map.1 hr'
    obtain ⟨hsame, hcases⟩ := hg r
    rcases hcases with hunchanged | ⟨hkey, hblock⟩
    · rw [hunchanged]
      exact hold.entries r hr
    · obtain ⟨-, hhash, hindex, -⟩ := same_entry_iff.1 hsame
      rw [hhash, hindex]
      exact ⟨log, hlog, hkey, stored_block_of_coordinates hblock⟩

/-- What one call leaves of the accepted logs. -/
theorem StoresAccepted.apply {accepted : List AcceptedLog} {op : LedgerOp}
    (hdb : StoresAccepted accepted db) (hop : op.apply parseAmount db = .ok db') :
    StoresAccepted (accepted ++ op.accepts) db' := by
  have hnone : StoresAccepted [] db' :=
    ⟨fun _ ha => absurd ha List.not_mem_nil, fun _ ha => absurd ha List.not_mem_nil⟩
  cases op with
  | ensure_source chain_id name contract_address standard start_block =>
    obtain ⟨row, hrow⟩ := map_snd_eq_ok.1 hop
    have hframe := ensure_source_frame hrow
    rw [hframe] at hnone ⊢
    exact StoresAccepted.append ⟨hdb.events, hdb.entries⟩ hnone
  | persist_decoded_logs_with_options source logs options =>
    obtain ⟨summary, hsummary⟩ := map_snd_eq_ok.1 hop
    exact (hdb.of_rowsStay (.persist hsummary)).append (.persist hsummary)
  | orphan_source_range source from_block to_block =>
    obtain ⟨summary, hsummary⟩ := map_snd_eq_ok.1 hop
    exact (hdb.of_rowsStay (.orphan hsummary)).append hnone
  | update_log_metadata source log =>
    obtain ⟨update, hupdate⟩ := map_snd_eq_ok.1 hop
    exact (hdb.of_rowsStay (.repair hupdate)).append hnone

/-- What one call leaves of the blocks. -/
theorem ShowsBlocks.apply {observed : List RpcLog} {op : LedgerOp} (hdb : ShowsBlocks observed db)
    (hop : op.apply parseAmount db = .ok db') : ShowsBlocks (observed ++ op.observed) db' := by
  cases op with
  | ensure_source chain_id name contract_address standard start_block =>
    obtain ⟨row, hrow⟩ := map_snd_eq_ok.1 hop
    have hframe := ensure_source_frame hrow
    unfold LedgerOp.observed
    rw [hframe, List.append_nil]
    exact ⟨hdb.events, hdb.entries⟩
  | persist_decoded_logs_with_options source logs options =>
    obtain ⟨summary, hsummary⟩ := map_snd_eq_ok.1 hop
    exact hdb.persist hsummary
  | orphan_source_range source from_block to_block =>
    obtain ⟨summary, hsummary⟩ := map_snd_eq_ok.1 hop
    unfold LedgerOp.observed
    rw [List.append_nil]
    exact hdb.orphan hsummary
  | update_log_metadata source log =>
    obtain ⟨update, hupdate⟩ := map_snd_eq_ok.1 hop
    exact hdb.repair hupdate

end Calls

section History

variable {parseAmount : AmountParser} {s : LedgerHistory}

theorem HistoryReachable.storesAccepted (h : HistoryReachable parseAmount s) :
    StoresAccepted s.accepted s.db := by
  refine history_invariant (I := fun calls db => StoresAccepted (calls.flatMap LedgerOp.accepts) db)
    ?_ ?_ ?_ h
  · exact ⟨fun _ ha => absurd ha List.not_mem_nil, fun _ ha => absurd ha List.not_mem_nil⟩
  · intro calls op db db' hdb hop
    rw [List.flatMap_append, List.flatMap_singleton]
    exact hdb.apply hop
  · intro calls db db' hdb hsame
    constructor
    · intro a ha
      obtain ⟨e, he, hat⟩ := hdb.events a ha
      exact ⟨e, hsame.events.mem_iff.1 he, hat⟩
    · intro a ha entry hentry
      obtain ⟨r, hr, hat⟩ := hdb.entries a ha entry hentry
      exact ⟨r, hsame.ledger_entries.mem_iff.1 hr, hat⟩

theorem HistoryReachable.showsBlocks (h : HistoryReachable parseAmount s) :
    ShowsBlocks s.observed s.db := by
  refine history_invariant (I := fun calls db => ShowsBlocks (calls.flatMap LedgerOp.observed) db)
    ?_ ?_ ?_ h
  · exact ⟨fun _ he => absurd he List.not_mem_nil, fun _ hr => absurd hr List.not_mem_nil⟩
  · intro calls op db db' hdb hop
    rw [List.flatMap_append, List.flatMap_singleton]
    exact hdb.apply hop
  · intro calls db db' hdb hsame
    exact ⟨fun e he => hdb.events e (hsame.events.mem_iff.2 he),
      fun r hr => hdb.entries r (hsame.ledger_entries.mem_iff.2 hr)⟩

end History

/-! ## Numbers of logs

A log spells its index in hex, and a row has 32 bits of it. The check of the table leaves 31.
Below `2^32` the row's index is the log's, since one that was accepted is not negative; from
there on the row has another, if the log is accepted at all.
-/

/-- The log index of a log, as the number it spells. -/
def RpcLog.index (log : RpcLog) : Option Nat := (parse_hex_u64 log.log_index).toOption

/-- What tells the logs of a chain apart: the transaction, and the index in the block. -/
def RpcLog.identity (log : RpcLog) : String × Option Nat :=
  (to_ascii_lowercase log.transaction_hash, log.index)

/-- Every row is in the block a log at its key spells. The cast of a block number is from 64
bits to 64, and a negative one is refused by the column's check, so unlike an index it is
stored as the log spells it. -/
structure BlocksAreNumbers (observed : List RpcLog) (db : Db) : Prop where
  events : ∀ e ∈ db.events.rows, ∃ log ∈ observed,
    (e.transaction_hash, some e.log_index) = stored_key log ∧
      ∃ n : Nat, parse_hex_u64 log.block_number = .ok n ∧ e.block_number = n
  entries : ∀ r ∈ db.ledger_entries.rows, ∃ log ∈ observed,
    (r.transaction_hash, some r.log_index) = stored_key log ∧
      ∃ n : Nat, parse_hex_u64 log.block_number = .ok n ∧ r.block_number = n

/-- Logs of different identities have no row in common, and each row a log is stored in has
the index the log spells. -/
structure IdentitiesKept (accepted : List AcceptedLog) (db : Db) : Prop where
  events_apart : ∀ a ∈ accepted, ∀ b ∈ accepted, a.log.identity ≠ b.log.identity →
    ∀ e ∈ db.events.rows, e.at_log a.source a.log → ¬ e.at_log b.source b.log
  entries_apart : ∀ a ∈ accepted, ∀ b ∈ accepted, a.log.identity ≠ b.log.identity →
    ∀ r ∈ db.ledger_entries.rows, r.at_log a.source a.log → ¬ r.at_log b.source b.log
  events_index : ∀ a ∈ accepted, ∀ e ∈ db.events.rows, e.at_log a.source a.log →
    ∃ n : Nat, parse_hex_u64 a.log.log_index = .ok n ∧ e.log_index = n
  entries_index : ∀ a ∈ accepted, ∀ r ∈ db.ledger_entries.rows, r.at_log a.source a.log →
    ∃ n : Nat, parse_hex_u64 a.log.log_index = .ok n ∧ r.log_index = n

/-- The index of the log fits 32 bits. `parse_hex_u64` reads up to 64, and `as i32` keeps the
low 32 of them, so two indexes are stored alike just when they differ by a multiple of `2 ^
32`. -/
def RpcLog.IndexFits (log : RpcLog) : Prop :=
  ∀ n, parse_hex_u64 log.log_index = .ok n → n < 2 ^ 32

theorem stored_block_number {log : RpcLog} {block_number : Int}
    (h : log.stored_block = some block_number) (hnonneg : 0 ≤ block_number) :
    ∃ n : Nat, parse_hex_u64 log.block_number = .ok n ∧ block_number = n := by
  unfold RpcLog.stored_block at h
  obtain ⟨n, hn, rfl⟩ := Option.map_eq_some_iff.1 h
  have hparsed := toOption_eq_some.1 hn
  exact ⟨n, hparsed, (as_i64_nonneg (parse_hex_u64_lt hparsed) hnonneg).1⟩

/-- A row that passed its check has the low 32 bits of the index, which fit 31. -/
theorem stored_key_index {log : RpcLog} {transaction_hash : String} {log_index : Int}
    (h : (transaction_hash, some log_index) = stored_key log) (hnonneg : 0 ≤ log_index) :
    transaction_hash = to_ascii_lowercase log.transaction_hash ∧
      ∃ n, parse_hex_u64 log.log_index = .ok n ∧ log_index = (n % 2 ^ 32 : Nat) ∧
        n % 2 ^ 32 < 2 ^ 31 := by
  obtain ⟨hhash, hindex⟩ := Prod.ext_iff.1 h
  obtain ⟨n, hn, hcast⟩ := Option.map_eq_some_iff.1 hindex.symm
  have hn' : 0 ≤ as_i32 n := hcast.symm ▸ hnonneg
  obtain ⟨hlow, hfits⟩ := as_i32_nonneg hn'
  exact ⟨hhash, n, toOption_eq_some.1 hn, hcast.symm.trans hlow, hfits⟩

/-- Where the index fits, the row has it. -/
theorem index_of_fits {log : RpcLog} {transaction_hash : String} {log_index : Int}
    (h : (transaction_hash, some log_index) = stored_key log) (hnonneg : 0 ≤ log_index)
    (hfits : log.IndexFits) : ∃ n : Nat, parse_hex_u64 log.log_index = .ok n ∧ log_index = n := by
  obtain ⟨-, n, hn, hlow, -⟩ := stored_key_index h hnonneg
  rw [Nat.mod_eq_of_lt (hfits n hn)] at hlow
  exact ⟨n, hn, hlow⟩

/-- Where the indexes fit, logs at one key have one identity. -/
theorem identity_of_fits {a b : RpcLog} {transaction_hash : String} {log_index : Int}
    (ha : (transaction_hash, some log_index) = stored_key a)
    (hb : (transaction_hash, some log_index) = stored_key b) (hnonneg : 0 ≤ log_index)
    (hafits : a.IndexFits) (hbfits : b.IndexFits) : a.identity = b.identity := by
  obtain ⟨n, hn, hindex⟩ := index_of_fits ha hnonneg hafits
  obtain ⟨m, hm, hindex'⟩ := index_of_fits hb hnonneg hbfits
  have hhash : to_ascii_lowercase a.transaction_hash = to_ascii_lowercase b.transaction_hash :=
    (stored_key_index ha hnonneg).1.symm.trans (stored_key_index hb hnonneg).1
  have hsame : n = m := Int.ofNat_inj.1 (hindex.symm.trans hindex')
  unfold RpcLog.identity RpcLog.index
  rw [hhash, hn, hm, hsame]

/-- In every history, each accepted log has its event and each entry of it a ledger entry,
and every row is in the block a log at its key spells. Logs of different identities are in
different rows, with the indexes they spell, just when no accepted index is from `2^32` on. -/
theorem log_identity_iff {parseAmount : AmountParser} {s : LedgerHistory}
    (h : HistoryReachable parseAmount s) :
    StoresAccepted s.accepted s.db ∧ BlocksAreNumbers s.observed s.db ∧
      (IdentitiesKept s.accepted s.db ↔ ∀ a ∈ s.accepted, a.log.IndexFits) := by
  have hstored := h.storesAccepted
  have hblocks := h.showsBlocks
  have hevent : ∀ e ∈ s.db.events.rows, 0 ≤ e.block_number ∧ 0 ≤ e.log_index :=
    fun e he => ⟨(s.db.events.checked e he).1, (s.db.events.checked e he).2.1⟩
  have hentry : ∀ r ∈ s.db.ledger_entries.rows, 0 ≤ r.block_number ∧ 0 ≤ r.log_index := by
    intro r hr
    obtain ⟨-, -, -, -, hblock, hindex, -⟩ := s.db.ledger_entries.checked r hr
    exact ⟨hblock, hindex⟩
  refine ⟨hstored, ⟨?_, ?_⟩, ?_, ?_⟩
  · intro e he
    obtain ⟨log, hlog, hkey, hblock⟩ := hblocks.events e he
    exact ⟨log, hlog, hkey, stored_block_number hblock (hevent e he).1⟩
  · intro r hr
    obtain ⟨log, hlog, hkey, hblock⟩ := hblocks.entries r hr
    exact ⟨log, hlog, hkey, stored_block_number hblock (hentry r hr).1⟩
  · -- the event of a log has the low 32 bits of its index
    intro hkept a ha n hn
    obtain ⟨e, he, hat⟩ := hstored.events a ha
    obtain ⟨m, hm, hindex⟩ := hkept.events_index a ha e he hat
    obtain ⟨-, k, hk, hlow, hfits⟩ := stored_key_index hat.2 (hevent e he).2
    obtain rfl : n = m := Except.ok.inj (hn.symm.trans hm)
    obtain rfl : n = k := Except.ok.inj (hn.symm.trans hk)
    have hsame : n = n % 2 ^ 32 := Int.ofNat_inj.1 (hindex.symm.trans hlow)
    omega
  · -- indexes that fit are stored as they are, so a shared row means one identity
    intro hfits
    constructor
    · intro a ha b hb hne e he hata hatb
      exact hne (identity_of_fits hata.2 hatb.2 (hevent e he).2 (hfits a ha) (hfits b hb))
    · intro a ha b hb hne r hr hata hatb
      exact hne (identity_of_fits hata.2 hatb.2 (hentry r hr).2 (hfits a ha) (hfits b hb))
    · intro a ha e he hat
      exact index_of_fits hat.2 (hevent e he).2 (hfits a ha)
    · intro a ha r hr hat
      exact index_of_fits hat.2 (hentry r hr).2 (hfits a ha)

/-! ## Two mints of one transaction -/

/-- A mint at a log index. -/
def mint_at (log_index «to» : String) : RpcLog × DecodedLog :=
  let mint := erc20_transfer "0x1" "0xb1" "0xd1" zero_address «to»
  ({ mint.1 with log_index }, mint.2)

def accepted_mint (log_index «to» : String) : AcceptedLog :=
  { source := small_source.from_source
    log := (mint_at log_index «to»).1
    decoded := (mint_at log_index «to»).2 }

/-- One call that persists the first log of a transaction, and another log of it. -/
def two_mints (log_index : String) : List LedgerOp :=
  small_ledger [mint_at "0x0" alice, mint_at log_index bob]

/-- The history of calls that all return. That they do is checked by computing, so a history
that is shown is one the relation has. -/
theorem history_of_calls {parseAmount : AmountParser} {s : LedgerHistory}
    (hs : HistoryReachable parseAmount s) (calls : List LedgerOp)
    (h : Allowed (LedgerOp.commit parseAmount)
      (fun db op => (op.apply parseAmount db).toOption.isSome) s.db calls = true) :
    HistoryReachable parseAmount
      { db := calls.foldl (LedgerOp.commit parseAmount) s.db, calls := s.calls ++ calls } := by
  induction calls generalizing s with
  | nil =>
    rw [List.append_nil]
    exact hs
  | cons op rest ih =>
    rw [Allowed, Bool.and_eq_true, Option.isSome_iff_exists] at h
    obtain ⟨⟨db, hsome⟩, hrest⟩ := h
    have hop := toOption_eq_some.1 hsome
    have hcommit : op.commit parseAmount s.db = db := by
      unfold LedgerOp.commit
      rw [hop]
    have hstep : HistoryReachable parseAmount { db, calls := s.calls ++ [op] } :=
      hs.snoc (a := op) (Or.inl ⟨db, hop, Db.SameRows.refl db, rfl⟩)
    rw [hcommit] at hrest
    have hnext := ih hstep hrest
    rw [List.foldl_cons, hcommit, List.append_cons]
    exact hnext

/-- The calls of the two mints, as a history. -/
def two_mints_history (log_index : String) : LedgerHistory :=
  { db := (two_mints log_index).foldl (LedgerOp.commit plain_digits) Db.empty
    calls := [] ++ two_mints log_index }

theorem history_empty {parseAmount : AmountParser} :
    HistoryReachable parseAmount { db := Db.empty, calls := [] } := ⟨_, [], ⟨rfl, rfl⟩, Run.nil⟩

/-- Logs 0 and 1 are kept apart. -/
theorem log_identity_iff_zero_and_one :
    IdentitiesKept (two_mints_history "0x1").accepted (two_mints_history "0x1").db ∧
      (two_mints_history "0x1").db.events.rows.length = 2 := by
  have hreach : HistoryReachable plain_digits (two_mints_history "0x1") :=
    history_of_calls history_empty (two_mints "0x1") (by decide +kernel)
  refine ⟨(log_identity_iff hreach).2.2.2 fun a ha n hn => ?_, by decide +kernel⟩
  have hsmall : ∀ a ∈ (two_mints_history "0x1").accepted,
      parse_hex_u64 a.log.log_index = .ok 0 ∨ parse_hex_u64 a.log.log_index = .ok 1 := by
    intro a ha
    rcases List.mem_cons.1 ha with rfl | ha
    · left
      decide +kernel
    · obtain rfl := List.mem_singleton.1 ha
      right
      decide +kernel
  rcases hsmall a ha with hzero | hone
  · obtain rfl := Except.ok.inj (hzero.symm.trans hn)
    decide
  · obtain rfl := Except.ok.inj (hone.symm.trans hn)
    decide

/-- Logs 0 and 2^32 are not: there is one event, and it is of both. -/
theorem wrapped_index_shares_a_row :
    HistoryReachable plain_digits (two_mints_history "0x100000000") ∧
      (two_mints_history "0x100000000").db.events.rows.length = 1 ∧
      ∃ a ∈ (two_mints_history "0x100000000").accepted,
        ∃ b ∈ (two_mints_history "0x100000000").accepted, a.log.identity ≠ b.log.identity ∧
          ∃ e ∈ (two_mints_history "0x100000000").db.events.rows,
            e.at_log a.source a.log ∧ e.at_log b.source b.log := by
  refine ⟨history_of_calls history_empty (two_mints "0x100000000") (by decide +kernel),
    by decide +kernel, ?_⟩
  exact ⟨accepted_mint "0x0" alice, List.mem_cons_self .., accepted_mint "0x100000000" bob,
    List.mem_cons_of_mem _ (List.mem_cons_self ..), by decide +kernel, by decide +kernel⟩

end EvmIndexer
