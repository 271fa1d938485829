/-
What a replay attempt leaves behind where it stops.

A replay orphans its range in one transaction and persists the canonical logs in
another, with the whole conversation with the chain between the two. An attempt that
stops in between has committed the first and not the second: the range is empty, the
balances are those of the blocks outside it, and so it stays until the job is tried
again. That is a design of several transactions, each with its own lock on the source;
what holds of every attempt is that it leaves the ledger in one of three states, one for
each transaction it may have got past (`stopped_replay_leaves`).
-/
import EvmIndexer.Finality
import EvmIndexer.Interleaving
import EvmIndexer.Orphan

set_option autoImplicit false

namespace EvmIndexer

open Sql Program

/-! ## The ledger as its readers see it

The API reads the non-orphaned rows and the balances. `SameForReaders` and `RangeOrphaned`
compare two databases by these and by nothing else: an attempt may leave orphaned rows, jobs
and attempts behind that no reader of the ledger sees.
-/

/-- The non-orphaned events of a source. -/
def Db.active_events (db : Db) (source_id : Uuid) : List EventRow :=
  db.events.rows.filter fun e => e.source_id == source_id && !e.orphaned

/-- A source has the same non-orphaned events and entries, and the same balances. What the
API lists and counts is made of these, since it leaves orphaned rows out. -/
structure SameForReaders (source_id : Uuid) (db db' : Db) : Prop where
  events : ∀ e, e ∈ db'.active_events source_id ↔ e ∈ db.active_events source_id
  entries : ∀ r, r ∈ db'.active_entries source_id ↔ r ∈ db.active_entries source_id
  balances : ∀ a, db'.balance source_id a = db.balance source_id a

/-- A range of a source has no non-orphaned events and entries, the rest of the source
has what it had, and the balances have lost what the range moved. -/
structure RangeOrphaned (source_id : Uuid) (from_block to_block : Int) (db db' : Db) : Prop where
  events : ∀ e, e ∈ db'.active_events source_id ↔
    e ∈ db.active_events source_id ∧ ¬ (from_block ≤ e.block_number ∧ e.block_number ≤ to_block)
  entries : ∀ r, r ∈ db'.active_entries source_id ↔
    r ∈ db.active_entries source_id ∧ ¬ (from_block ≤ r.block_number ∧ r.block_number ≤ to_block)
  balances : ∀ a, db'.balance source_id a = db.balance source_id a
    - Bookkeeping.net ((active_rows_in db source_id from_block to_block).map (·.movement)) a

/-- The three tables readers see are the same. -/
structure SameLedger (db db' : Db) : Prop where
  events : db'.events = db.events
  ledger_entries : db'.ledger_entries = db.ledger_entries
  token_balances : db'.token_balances = db.token_balances

theorem SameLedger.refl (db : Db) : SameLedger db db := ⟨rfl, rfl, rfl⟩

theorem SameLedger.sameForReaders {db db' : Db} (h : SameLedger db db') (source_id : Uuid) :
    SameForReaders source_id db db' := by
  refine ⟨fun e => ?_, fun r => ?_, balance_congr h.token_balances source_id⟩
  · unfold Db.active_events
    rw [h.events]
  · unfold Db.active_entries
    rw [h.ledger_entries]

/-- What orphaning a range does to what readers see: events and entries of the range are
gone, the others are there, and each balance has lost what the entries moved. -/
theorem range_orphaned {db db' : Db} {source : SourceRow} {from_block to_block : Int}
    {summary : OrphanRangeSummary}
    (h : orphan_source_range db source from_block to_block = .ok (summary, db')) :
    RangeOrphaned source.id from_block to_block db db' := by
  obtain ⟨mid, hmid, hdb, hentries, hevents⟩ := orphan_source_range_spec h
  obtain ⟨-, hbalances⟩ := reverse_entries_spec hmid
  refine ⟨fun e => ?_, fun r => ?_, fun a => ?_⟩
  · unfold Db.active_events
    rw [hevents, Table.mem_filter_map_setRow fun old => by simp [EventRow.set_orphaned]]
    refine and_congr_right fun hmem => ?_
    -- a non-orphaned event of the source is marked where its block is in the range
    have hmine := (List.mem_filter.1 hmem).2
    rw [Bool.and_eq_true] at hmine
    simp [EventRow.active_in, hmine.1, hmine.2]
  · unfold Db.active_entries
    rw [hentries, Table.mem_filter_map_setRow fun old => by simp [LedgerEntryRow.set_orphaned]]
    refine and_congr_right fun hmem => ?_
    have hmine := (List.mem_filter.1 hmem).2
    rw [Bool.and_eq_true] at hmine
    simp [LedgerEntryRow.active_in, hmine.1, hmine.2]
  · have hbalance : db'.balance source.id a = mid.balance source.id a :=
      balance_congr (by rw [hdb]) source.id a
    rw [hbalance, hbalances source.id a, if_pos (show source.id = source.from_source.id from rfl),
      sum_contribution_eq_net]
    intro r hr
    have hactive := (active_rows_in_perm db source.id from_block to_block).mem_iff.1 hr
    have hmine := (List.mem_filter.1 (List.mem_filter.1 hactive).1).2
    rw [Bool.and_eq_true, Bool.not_eq_true'] at hmine
    exact hmine.2

/-! ## Where an attempt stops

The attempt is the program of the code, run on a chain that may fail at every request.
Ingesting persists all logs of the range in one transaction at its end, so it cannot stop
with a part of them; and before it there is nothing but the orphaning.
-/

section Attempt

variable {keccak256 : String → String} {parse_bytes : List Char → Option Nat}
  {parseAmount : AmountParser} {rpc : ChainRpc} {s t : Service} {message : String}

/-- Ingesting that stops has persisted nothing, or all its logs. -/
theorem ingest_source_range_stops {source : SourceRef} {«from» «to» chunk_size : Nat}
    {options : IngestOptions}
    (h : ingest_source_range keccak256 parse_bytes parseAmount rpc source «from» «to» chunk_size
      options s = .error message t) :
    t.db = s.db ∨ ∃ decoded summary,
      range_logs keccak256 parse_bytes rpc source «from» «to» chunk_size options.prefetched_logs
        = .ok decoded ∧
      persist_decoded_logs_with_options parseAmount s.db source decoded
        { restore_orphaned_conflicts := options.restore_orphaned_conflicts } = .ok (summary, t.db) := by
  unfold ingest_source_range at h
  rw [Program.bind_eq_error] at h
  rcases h with h | ⟨_, noted, hnoted, h⟩
  · exact Or.inl (congrArg Service.db (transaction_eq_error.1 h).2).symm
  rw [transaction_eq_ok] at hnoted
  cases hnoted
  rw [Program.bind_eq_error] at h
  rcases h with h | ⟨decoded, asked, hasked, h⟩
  · exact Or.inl (congrArg Service.db (ask_eq_error.1 h).2).symm
  obtain ⟨hdecoded, rfl⟩ := ask_eq_ok.1 hasked
  rw [Program.bind_eq_error] at h
  rcases h with h | ⟨summary, persisted, hpersisted, h⟩
  · exact Or.inl (congrArg Service.db (ledger_eq_error h)).symm
  obtain ⟨hpersist, -⟩ := ledger_eq_ok.1 hpersisted
  rw [context_eq_ok] at hpersist
  -- from here on the ledger is written no more: the receipts have a transaction of their own
  have hreceipts : t.db = persisted.db := by
    split at h
    · rw [Program.bind_eq_error] at h
      rcases h with h | ⟨receipts, asked, hasked, h⟩
      · exact congrArg Service.db (ask_eq_error.1 h).2.symm
      obtain ⟨-, rfl⟩ := ask_eq_ok.1 hasked
      rw [Program.bind_eq_error] at h
      rcases h with h | ⟨_, stored, hstored, h⟩
      · exact congrArg Service.db (transaction_eq_error.1 h).2.symm
      · cases h
    · cases h
  exact Or.inr ⟨decoded, summary, hdecoded, hreceipts ▸ hpersist⟩

/-- What the transactions of a replay have left where it stops: nothing, the first, or
both. -/
inductive ReplayStops (keccak256 : String → String) (parse_bytes : List Char → Option Nat)
    (parseAmount : AmountParser) (rpc : ChainRpc) (worker : IngestWorker) (source : SourceRow)
    (from_block to_block : Int) (db : Db) : Db → Prop
  | before : ReplayStops keccak256 parse_bytes parseAmount rpc worker source from_block to_block db db
  | orphaned {summary : OrphanRangeSummary} {mid : Db}
      (horphan : orphan_source_range db source from_block to_block = .ok (summary, mid)) :
      ReplayStops keccak256 parse_bytes parseAmount rpc worker source from_block to_block db mid
  | persisted {orphaned : OrphanRangeSummary} {mid final : Db} {summary : ScanSummary}
      {decoded : List (RpcLog × DecodedLog)}
      (horphan : orphan_source_range db source from_block to_block = .ok (orphaned, mid))
      (hdecoded : range_logs keccak256 parse_bytes rpc source.from_source from_block.toNat
        to_block.toNat worker.chunk_size none = .ok decoded)
      (hpersist : persist_decoded_logs_with_options parseAmount mid source.from_source decoded
        { restore_orphaned_conflicts := true } = .ok (summary, final)) :
      ReplayStops keccak256 parse_bytes parseAmount rpc worker source from_block to_block db final

/-- A replay that stops, stops before, between or after its two transactions. -/
theorem execute_job_stops {worker : IngestWorker} {job : JobRow}
    (hreplay : job.job_type = .ReplayRange)
    (h : execute_job keccak256 parse_bytes parseAmount rpc worker job s = .error message t) :
    t.db = s.db ∨ ∃ source from_block to_block,
      job_source s.db job = .ok (source, from_block, to_block) ∧
      ReplayStops keccak256 parse_bytes parseAmount rpc worker source from_block to_block s.db t.db := by
  unfold execute_job at h
  rw [Program.bind_eq_error] at h
  rcases h with h | ⟨service, _, hget, h⟩
  · cases h
  obtain ⟨rfl, rfl⟩ := get_eq_ok.1 hget
  rw [Program.bind_eq_error] at h
  rcases h with h | ⟨⟨source, from_block, to_block⟩, asked, hasked, h⟩
  · exact Or.inl (congrArg Service.db (ask_eq_error.1 h).2).symm
  obtain ⟨hsource, rfl⟩ := ask_eq_ok.1 hasked
  refine Or.inr ⟨source, from_block, to_block, hsource, ?_⟩
  -- a question that fails leaves what was there
  have hsame : ∀ {u : Service}, u = t → ReplayStops keccak256 parse_bytes parseAmount rpc worker
      source from_block to_block u.db t.db := by
    rintro u rfl
    exact ReplayStops.before
  dsimp only at h
  rw [Program.bind_eq_error] at h
  rcases h with h | ⟨observed, asked, hasked, h⟩
  · exact hsame (ask_eq_error.1 h).2
  obtain ⟨-, rfl⟩ := ask_eq_ok.1 hasked
  unfold execute_checked_job at h
  rw [Program.bind_eq_error] at h
  rcases h with h | ⟨_, asked, hasked, h⟩
  · exact hsame (ask_eq_error.1 h).2
  obtain ⟨-, rfl⟩ := ask_eq_ok.1 hasked
  rw [Program.bind_eq_error] at h
  rcases h with h | ⟨_, asked, hasked, h⟩
  · exact hsame (ask_eq_error.1 h).2
  obtain ⟨-, rfl⟩ := ask_eq_ok.1 hasked
  rw [if_pos hreplay, Program.bind_eq_error] at h
  rcases h with h | ⟨summary, mid, hmid, h⟩
  · exact hsame (ledger_eq_error h)
  obtain ⟨horphan, -⟩ := ledger_eq_ok.1 hmid
  rw [context_eq_ok] at horphan
  rcases ingest_source_range_stops h with hsame | ⟨decoded, summary, hdecoded, hpersist⟩
  · exact hsame ▸ ReplayStops.orphaned horphan
  · exact ReplayStops.persisted horphan hdecoded hpersist

/-! ## The job row

An attempt that stops writes the job and its attempt and leaves the rest of the database
alone. So the three outcomes of the ledger are those of `execute_job`, whatever becomes of
the job.
-/

/-- A `mark_*` call writes the queue only. -/
theorem mark_job_frame {db db' : Db} {job_id : Uuid} {set : JobRow → JobRow} {hset : KeepsKeys set}
    {attempt_status : JobStatus} {error_class error_message : Option String} {now : Timestamp}
    {row : JobRow}
    (h : mark_job db job_id set hset attempt_status error_class error_message now = .ok (row, db')) :
    db' = { db with jobs := db'.jobs, job_attempts := db'.job_attempts } := by
  unfold mark_job at h
  split at h
  · cases h
  simp only [EvmIndexer.bind_eq_ok, db_result_eq_ok] at h
  obtain ⟨jobs, -, mid, hmid, h⟩ := h
  cases h
  obtain ⟨hframe, -⟩ := update_attempt_status_spec hmid
  rw [hframe]

theorem mark_job_sameLedger {db db' : Db} {job_id : Uuid} {set : JobRow → JobRow}
    {hset : KeepsKeys set} {attempt_status : JobStatus} {error_class error_message : Option String}
    {now : Timestamp} {row : JobRow}
    (h : mark_job db job_id set hset attempt_status error_class error_message now = .ok (row, db')) :
    SameLedger db db' := by
  have hframe := mark_job_frame h
  exact ⟨by rw [hframe], by rw [hframe], by rw [hframe]⟩

theorem mark_failed_sameLedger {db db' : Db} {job_id : Uuid} {error_class error_message : String}
    {now : Timestamp} {row : JobRow}
    (h : mark_failed db job_id error_class error_message now = .ok (row, db')) :
    SameLedger db db' := by
  unfold mark_failed at h
  split at h
  · cases h
  · exact mark_job_sameLedger h

theorem mark_interrupted_for_retry_sameLedger {db db' : Db} {job_id : Uuid} {error_message : String}
    {now : Timestamp} {row : JobRow}
    (h : mark_interrupted_for_retry db job_id error_message now = .ok (row, db')) :
    SameLedger db db' := by
  unfold mark_interrupted_for_retry at h
  split at h
  · cases h
  split at h
  · exact mark_job_sameLedger h
  · cases h
    exact SameLedger.refl db

/-- The attempt has not processed its job: it failed, dead-lettered the job, or was
interrupted. -/
def WorkerOutcome.Stopped : WorkerOutcome → Prop
  | .Processed _ _ => False
  | .Failed _ _ _ => True
  | .Interrupted _ _ => True

/-- An attempt that stops has stopped in `execute_job`, and writes the queue only after. -/
theorem run_job_stops {worker : IngestWorker} {running : JobRow} {shutdown : Bool} {now : Timestamp}
    {outcome : WorkerOutcome}
    (h : run_job keccak256 parse_bytes parseAmount rpc worker running shutdown now s = .ok outcome t)
    (hstopped : outcome.Stopped) :
    ∃ message stopped, execute_job keccak256 parse_bytes parseAmount rpc worker running s
      = .error message stopped ∧ SameLedger stopped.db t.db := by
  unfold run_job at h
  split at h
  · rw [Program.bind_eq_ok] at h
    obtain ⟨_, _, -, h⟩ := h
    cases h
    exact absurd hstopped id
  · -- what comes after writes the queue only: a retry, or a failure
    rename_i message stopped hexecute
    refine ⟨message, stopped, hexecute, ?_⟩
    split at h
    · rw [Program.bind_eq_ok] at h
      obtain ⟨_, _, hmark, h⟩ := h
      cases h
      obtain ⟨hmark, -⟩ := ledger_eq_ok.1 hmark
      exact mark_interrupted_for_retry_sameLedger (context_eq_ok.1 hmark)
    · rw [Program.bind_eq_ok] at h
      obtain ⟨_, _, hmark, h⟩ := h
      cases h
      obtain ⟨hmark, -⟩ := ledger_eq_ok.1 hmark
      exact mark_failed_sameLedger (context_eq_ok.1 hmark)

/-! ## Three ways to stop

An attempt can fail, exhaust its attempts or be interrupted. The three have in common that
the error has left `execute_job` before anything is written to the queue, and what the ledger
is at that point is one of three states.
-/

theorem RangeOrphaned.of_sameLedger {source_id : Uuid} {from_block to_block : Int} {db mid db' : Db}
    (h : RangeOrphaned source_id from_block to_block db mid) (hsame : SameLedger mid db') :
    RangeOrphaned source_id from_block to_block db db' := by
  have hreaders := hsame.sameForReaders source_id
  exact ⟨fun e => (hreaders.events e).trans (h.events e),
    fun r => (hreaders.entries r).trans (h.entries r),
    fun a => (hreaders.balances a).trans (h.balances a)⟩

variable (keccak256 parse_bytes parseAmount rpc)

/-- The range holds what the attempt has newly persisted: the logs the chain returned,
decoded, in the place of the orphaned rows. -/
def HoldsReplayed (worker : IngestWorker) (source : SourceRow) (from_block to_block : Int)
    (db db' : Db) : Prop :=
  ∃ orphaned mid decoded summary final,
    orphan_source_range db source from_block to_block = .ok (orphaned, mid) ∧
    range_logs keccak256 parse_bytes rpc source.from_source from_block.toNat to_block.toNat
      worker.chunk_size none = .ok decoded ∧
    persist_decoded_logs_with_options parseAmount mid source.from_source decoded
      { restore_orphaned_conflicts := true } = .ok (summary, final) ∧ SameLedger final db'

variable {keccak256 parse_bytes parseAmount rpc}

/-- A replay attempt that fails, dead-letters its job or is interrupted leaves readers
with what they had, with the range orphaned, or with the range newly persisted. -/
theorem stopped_replay_leaves {worker : IngestWorker} {running : JobRow} {shutdown : Bool}
    {now : Timestamp} {outcome : WorkerOutcome} (hreplay : running.job_type = .ReplayRange)
    (h : run_job keccak256 parse_bytes parseAmount rpc worker running shutdown now s = .ok outcome t)
    (hstopped : outcome.Stopped) :
    (∀ source_id, SameForReaders source_id s.db t.db) ∨
      ∃ source from_block to_block, job_source s.db running = .ok (source, from_block, to_block) ∧
        (RangeOrphaned source.id from_block to_block s.db t.db ∨
          HoldsReplayed keccak256 parse_bytes parseAmount rpc worker source from_block to_block
            s.db t.db) := by
  obtain ⟨message, stopped, hexecute, hsame⟩ := run_job_stops h hstopped
  rcases execute_job_stops hreplay hexecute with
    hdb | ⟨source, from_block, to_block, hsource, hstops⟩
  · exact Or.inl (hdb ▸ hsame).sameForReaders
  generalize hleft : stopped.db = left at hstops hsame
  cases hstops with
  | before => exact Or.inl hsame.sameForReaders
  | orphaned horphan =>
    exact Or.inr ⟨source, from_block, to_block, hsource,
      Or.inl ((range_orphaned horphan).of_sameLedger hsame)⟩
  | persisted horphan hdecoded hpersist =>
    exact Or.inr ⟨source, from_block, to_block, hsource,
      Or.inr ⟨_, _, _, _, _, horphan, hdecoded, hpersist, hsame⟩⟩

variable (keccak256 parse_bytes parseAmount rpc)

/-- A stopped replay is all or nothing: in every state of the system, the range holds
what was newly persisted, or readers have what they had. -/
def ReplayIsAllOrNothing : Prop :=
  ∀ (i : Indexer), IndexerReachable parseAmount i → ∀ (slot : Nat) (e : Execution),
    i.executions slot = some e → e.phase = .Running → e.job.job_type = .ReplayRange →
    ∀ (worker : IngestWorker) (shutdown : Bool) (now : Timestamp) (s t : Service)
      (outcome : WorkerOutcome), s.db = i.db →
      run_job keccak256 parse_bytes parseAmount rpc worker e.job shutdown now s = .ok outcome t →
      outcome.Stopped → ∀ source from_block to_block,
        job_source s.db e.job = .ok (source, from_block, to_block) →
        HoldsReplayed keccak256 parse_bytes parseAmount rpc worker source from_block to_block
            s.db t.db ∨
          SameForReaders source.id s.db t.db

end Attempt

/-! ## A replay whose logs cannot be fetched -/

/-- A mint of block 1 is ingested, and a worker has taken a job that replays blocks 0
and 1, its only attempt. -/
def replaying : List IndexerOp :=
  [ensure_token 0, .enqueue .Ingest 0 0 1 5 0,
   .lease 0 "a" 60 false none (fun _ => false) 0 0, .mark_running 0 0, .load_source 0 200,
   .persist_decoded_logs 0 [erc20_transfer "0x1" "0xb1" "0xd1" zero_address alice],
   .ingest_source_range 0] ++ finish_in 0 "0xb1" ++
  [.enqueue .Replay 0 0 1 1 0, .lease 0 "a" 60 true none (fun _ => false) 0 0, .mark_running 0 0]

/-- A service over the database of an indexer. -/
def Indexer.service (i : Indexer) : Service :=
  { db := i.db
    chains := [{ name := "small", chain_id := 1, finality_confirmations := 10 }]
    transaction_receipts := []
    reorg_events := []
    ingested := [] }

/-- A chain that answers every question but the one for logs. -/
def logless_rpc : ChainRpc :=
  { small_rpc 200 toString [] with logs := fun _ _ _ _ => .error "timeout" }

/-- The attempt at the replay while the logs cannot be fetched. -/
def replay_attempt (running : JobRow) (s : Service) : EStateM.Result String Service WorkerOutcome :=
  run_job event_digest parse_hex_digits plain_digits logless_rpc
    { chunk_size := 10, include_transaction_receipts := false } running false 0 s

/-- The attempt dead-letters the job, and alice's balance is gone. -/
theorem replay_attempt_dead_letters :
    ∃ e, (Indexer.after plain_digits replaying).executions 0 = some e ∧ e.phase = .Running ∧
      e.job.job_type = .ReplayRange ∧
      ∃ job_id message t, replay_attempt e.job (Indexer.after plain_digits replaying).service
          = .ok (.Failed job_id .DeadLettered message) t ∧
        (Indexer.after plain_digits replaying).db.balance 0 (alice, "") = 5 ∧
        t.db.balance 0 (alice, "") = 0 := by
  obtain ⟨e, he⟩ := Option.isSome_iff_exists.1
    (show ((Indexer.after plain_digits replaying).executions 0).isSome = true by decide +kernel)
  -- one evaluation of the attempt shows all of it
  have hattempt : ((Indexer.after plain_digits replaying).executions 0).any (fun e =>
      e.phase == .Running && e.job.job_type == .ReplayRange &&
      match replay_attempt e.job (Indexer.after plain_digits replaying).service with
      | .ok (.Failed _ .DeadLettered _) t =>
        (Indexer.after plain_digits replaying).db.balance 0 (alice, "") == 5 &&
          t.db.balance 0 (alice, "") == 0
      | _ => false) = true := by decide +kernel
  rw [he, Option.any_some, Bool.and_eq_true, Bool.and_eq_true] at hattempt
  obtain ⟨⟨hphase, htype⟩, hattempt⟩ := hattempt
  refine ⟨e, he, beq_iff_eq.1 hphase, beq_iff_eq.1 htype, ?_⟩
  split at hattempt
  · rename_i job_id message t hrun
    rw [Bool.and_eq_true, beq_iff_eq, beq_iff_eq] at hattempt
    exact ⟨job_id, message, t, hrun, hattempt⟩
  · cases hattempt

theorem stopped_replay_leaves_logless :
    ∃ running outcome t,
      replay_attempt running (Indexer.after plain_digits replaying).service = .ok outcome t ∧
      ((∀ source_id, SameForReaders source_id (Indexer.after plain_digits replaying).db t.db) ∨
        ∃ source from_block to_block,
          job_source (Indexer.after plain_digits replaying).db running
            = .ok (source, from_block, to_block) ∧
          (RangeOrphaned source.id from_block to_block (Indexer.after plain_digits replaying).db t.db ∨
            HoldsReplayed event_digest parse_hex_digits plain_digits logless_rpc
              { chunk_size := 10, include_transaction_receipts := false } source from_block to_block
              (Indexer.after plain_digits replaying).db t.db)) := by
  obtain ⟨e, -, -, htype, job_id, message, t, hrun, -⟩ := replay_attempt_dead_letters
  exact ⟨e.job, _, t, hrun, stopped_replay_leaves htype hrun trivial⟩

/-- The range is neither as it was nor newly persisted. -/
theorem replay_is_not_all_or_nothing :
    ¬ ReplayIsAllOrNothing event_digest parse_hex_digits plain_digits logless_rpc := by
  intro h
  obtain ⟨e, he, hphase, htype, job_id, message, t, hrun, hbefore, hafter⟩ :=
    replay_attempt_dead_letters
  have hreachable : IndexerReachable plain_digits (Indexer.after plain_digits replaying) :=
    reachable_of_possible (by decide +kernel)
  have hsource : ((Indexer.after plain_digits replaying).executions 0).any (fun e =>
      match job_source (Indexer.after plain_digits replaying).db e.job with
      | .ok (source, from_block, to_block) => source.id == 0 &&
        !(range_logs event_digest parse_hex_digits logless_rpc source.from_source from_block.toNat
          to_block.toNat 10 none).isOk
      | .error _ => false) = true := by decide +kernel
  rw [he, Option.any_some] at hsource
  split at hsource
  · rename_i source from_block to_block hjob
    rw [Bool.and_eq_true, beq_iff_eq, Bool.not_eq_true'] at hsource
    obtain ⟨hid, hlogs⟩ := hsource
    rcases h _ hreachable 0 e he hphase htype _ false 0 _ t _ rfl hrun trivial source from_block
      to_block hjob with ⟨_, _, decoded, _, _, -, hdecoded, -⟩ | hsame
    · rw [hdecoded] at hlogs
      cases hlogs
    · have hbalance := hsame.balances (alice, "")
      rw [hid, hafter] at hbalance
      have hbefore : (Indexer.after plain_digits replaying).service.db.balance 0 (alice, "") = 5 :=
        hbefore
      rw [hbefore] at hbalance
      exact absurd hbalance (by decide)
  · cases hsource

end EvmIndexer
