/-
What one step of the indexer can do, and what holds in every state whatever the
interleaving.

`Effect` lists what a step can do to the tables the planner and the checkpoint
are computed from, and to the executions; `IndexerStep.effect` says that every
step is one of these. The rest of the development looks at steps only through
it. The first invariants are proved here, once, because everything about
checkpoints and plans rests on them: a job never changes what it is for
(`JobRow.SameJob`), an execution holds a stored job and that job's source, and a
succeeded job was ingested (`Indexer.WellFormed`).
-/
import EvmIndexer.Balances
import EvmIndexer.Checkpoints
import EvmIndexer.JobQueue
import EvmIndexer.Worker

set_option autoImplicit false

namespace EvmIndexer

open Sql Transition

/-! ## What the transactions leave alone

A transaction of the ledger writes no job, no checkpoint and no source, and one of the queue
writes nothing else. This is known of each statement, and of a loop of statements because
both relations are transitive.
-/

/-- No table has moved that the queue, the planner or the checkpoint reads. -/
structure OnlyLedger (db db' : Db) : Prop where
  sources : db'.sources = db.sources
  checkpoints : db'.checkpoints = db.checkpoints
  jobs : db'.jobs = db.jobs

theorem OnlyLedger.refl (db : Db) : OnlyLedger db db := ⟨rfl, rfl, rfl⟩

theorem OnlyLedger.trans {a b c : Db} (h : OnlyLedger a b) (k : OnlyLedger b c) : OnlyLedger a c :=
  ⟨k.sources.trans h.sources, k.checkpoints.trans h.checkpoints, k.jobs.trans h.jobs⟩

theorem OnlyBalances.onlyLedger {db db' : Db} (h : OnlyBalances db db') : OnlyLedger db db' :=
  ⟨h.sources, h.checkpoints, h.jobs⟩

theorem persist_entry_onlyLedger {parseAmount : AmountParser} {db db' : Db} {source : SourceRef}
    {log : RpcLog} {event_id : Uuid} {options : PersistDecodedLogsOptions}
    {entry : DecodedLedgerEntry}
    (h : persist_entry parseAmount source log event_id options db entry = .ok db') :
    OnlyLedger db db' := by
  obtain ⟨previous, current, mid, hprev, -, hupsert, happly⟩ := persist_entry_spec h
  obtain ⟨hframe, -⟩ := apply_balance_delta_spec happly
  obtain ⟨values, ledger_entries, -, -, hmid, -⟩ := upsert_ledger_entry_spec hprev hupsert
  have hfirst : OnlyLedger db mid := ⟨by rw [hmid], by rw [hmid], by rw [hmid]⟩
  exact hfirst.trans hframe.onlyLedger

theorem persist_decoded_logs_onlyLedger {parseAmount : AmountParser} {db db' : Db}
    {source : SourceRef} {logs : List (RpcLog × DecodedLog)} {options : PersistDecodedLogsOptions}
    {summary : ScanSummary}
    (h : persist_decoded_logs_with_options parseAmount db source logs options
      = .ok (summary, db')) : OnlyLedger db db' :=
  persist_decoded_logs_relates OnlyLedger.refl OnlyLedger.trans (fun _ _ => ⟨rfl, rfl, rfl⟩)
    persist_entry_onlyLedger h

theorem orphan_source_range_onlyLedger {db db' : Db} {source : SourceRow}
    {from_block to_block : Int} {summary : OrphanRangeSummary}
    (h : orphan_source_range db source from_block to_block = .ok (summary, db')) :
    OnlyLedger db db' := by
  obtain ⟨mid, hmid, hdb, -⟩ := orphan_source_range_spec h
  obtain ⟨hframe, -⟩ := reverse_entries_spec hmid
  have hlast : OnlyLedger mid db' := ⟨by rw [hdb], by rw [hdb], by rw [hdb]⟩
  exact hframe.onlyLedger.trans hlast

/-- No table has moved but those of the queue. -/
structure OnlyQueue (db db' : Db) : Prop where
  sources : db'.sources = db.sources
  checkpoints : db'.checkpoints = db.checkpoints

/-- A `mark_*` call returns the row it stores, and writes no other table. -/
theorem mark_job_returns {db db' : Db} {job_id : Uuid} {set : JobRow → JobRow}
    {hset : KeepsKeys set} {attempt_status : JobStatus} {error_class error_message : Option String}
    {now : Timestamp} {row' : JobRow}
    (h : mark_job db job_id set hset attempt_status error_class error_message now = .ok (row', db')) :
    OnlyQueue db db' ∧ ∃ row ∈ db.jobs.rows, row.id = job_id ∧ row' = set row ∧
      db'.jobs.rows = replaceRow row (set row) db.jobs.rows := by
  unfold mark_job at h
  split at h
  · cases h
  · rename_i row hfind
    obtain ⟨hrow, rfl⟩ := find_job db hfind
    simp only [bind_eq_ok, db_result_eq_ok] at h
    obtain ⟨jobs, hupdate, mid, hmid, h⟩ := h
    cases h
    obtain ⟨hframe, -⟩ := update_attempt_status_spec hmid
    refine ⟨⟨by rw [hframe], by rw [hframe]⟩, row, hrow, rfl, rfl, ?_⟩
    rw [hframe]
    exact update_job_rows hrow hupdate

theorem lease_next_candidate_onlyQueue {db db' : Db} {worker_id : String} {lease_for : Int}
    {job_type : Option JobType} {chain_id : Option Int} {locked : Uuid → Bool}
    {selected_at now : Timestamp} {leased : Option JobRow}
    (h : lease_next_candidate db worker_id lease_for job_type chain_id locked selected_at now
      = .ok (leased, db')) : OnlyQueue db db' := by
  unfold lease_next_candidate at h
  split at h
  · cases h
    exact ⟨rfl, rfl⟩
  · simp only [bind_eq_ok, db_result_eq_ok] at h
    obtain ⟨mid, hmid, jobs, -, job_attempts, -, h⟩ := h
    cases h
    obtain ⟨hframe, -⟩ := cancel_expired_attempt_spec hmid
    exact ⟨by rw [hframe], by rw [hframe]⟩

theorem enqueue_onlyQueue {db db' : Db} {now : Timestamp} {job : NewJob} {result : EnqueueResult}
    (h : enqueue db now job = .ok (result, db')) : OnlyQueue db db' := by
  unfold enqueue at h
  split at h
  · split at h
    · cases h
      exact ⟨rfl, rfl⟩
    · obtain ⟨row, -, hrow⟩ := map_eq_ok.1 h
      cases hrow
      exact ⟨rfl, rfl⟩
  · cases h

/-! ## What a step can do

An effect names the rows that were written and the phase an execution is in after it, and
says that everything else is the same, as sets of rows: after a step the rows may be in any
physical order. The guards of the code are in it, because the step lemmas of the invariants
have nothing else to go by.
-/

/-- The same rows in `sources`. -/
def SameSources (s t : Indexer) : Prop := ∀ r, r ∈ t.db.sources.rows ↔ r ∈ s.db.sources.rows

/-- The same rows in `checkpoints`. -/
def SameCheckpoints (s t : Indexer) : Prop :=
  ∀ r, r ∈ t.db.checkpoints.rows ↔ r ∈ s.db.checkpoints.rows

/-- The same rows in `jobs`. -/
def SameJobs (s t : Indexer) : Prop := ∀ r, r ∈ t.db.jobs.rows ↔ r ∈ s.db.jobs.rows

/-- One row of `jobs` was written. -/
def Replaced (s t : Indexer) (old new : JobRow) : Prop :=
  old ∈ s.db.jobs.rows ∧
    ∀ r, r ∈ t.db.jobs.rows ↔ r = new ∨ (r ∈ s.db.jobs.rows ∧ r ≠ old)

/-- The steps of an execution that write no row the planner or the checkpoint
reads, with the phase they lead to. -/
inductive PhaseStep (s : Indexer) (e : Execution) : IndexerOp → Phase → Prop
  | loaded {slot : Nat} {source : SourceRow} {observed_finalized_block : Int}
      (hphase : e.phase = .Running)
      (hsource : execute_job_source s.db e.job observed_finalized_block = .ok source) :
      PhaseStep s e (.load_source slot observed_finalized_block)
        (.Loaded source observed_finalized_block)
  | orphaned {slot : Nat} {source : SourceRow} {observed_finalized_block : Int}
      (hphase : e.phase = .Loaded source observed_finalized_block) :
      PhaseStep s e (.orphan_source_range slot) (.Orphaned source observed_finalized_block)
  | targeted {slot : Nat} {source : SourceRow} {observed_finalized_block target : Int}
      (hphase : e.phase = .Ingested source observed_finalized_block)
      (htarget : next_contiguous_checkpoint_target s.db source e.job.range = .ok (some target))
      (hfinalized : target ≤ observed_finalized_block) :
      PhaseStep s e (.next_contiguous_checkpoint_target slot)
        (.Targeted source observed_finalized_block target)
  | untargeted {slot : Nat} {source : SourceRow} {observed_finalized_block : Int}
      {target : Option Int} (hphase : e.phase = .Ingested source observed_finalized_block)
      (htarget : next_contiguous_checkpoint_target s.db source e.job.range = .ok target)
      (hpast : ∀ t, target = some t → observed_finalized_block < t) :
      PhaseStep s e (.next_contiguous_checkpoint_target slot) .Executed

/-- The step of an execution whose `ingest_source_range` returns `Ok`, with the
phase it leads to. -/
inductive IngestStep (e : Execution) : Phase → Prop
  | ingested {source : SourceRow} {observed_finalized_block : Int}
      (hphase : e.phase = .Loaded source observed_finalized_block)
      (htype : e.job.job_type = .IngestRange) :
      IngestStep e (.Ingested source observed_finalized_block)
  | replayed {source : SourceRow} {observed_finalized_block : Int}
      (hphase : e.phase = .Orphaned source observed_finalized_block)
      (htype : e.job.job_type = .ReplayRange) : IngestStep e .Executed

/-- The steps that may find nothing to do there: a job that exists already, an
empty queue, the logs of a chunk. -/
def IndexerOp.may_idle : IndexerOp → Bool
  | .enqueue .. => true
  | .lease .. => true
  | .persist_decoded_logs .. => true
  | _ => false

/-- The effect of a step on the tables the planner and the checkpoint read, on
the executions and on the ingested jobs. -/
inductive Effect (s t : Indexer) : IndexerOp → Prop
  | idle {op : IndexerOp} (hop : op.may_idle = true) (hsources : SameSources s t)
      (hcheckpoints : SameCheckpoints s t) (hjobs : SameJobs s t)
      (hexecutions : t.executions = s.executions) (hingested : t.ingested = s.ingested) :
      Effect s t op
  | ensured {chain_id : Int} {name contract_address : String} {standard : TokenStandard}
      {start_block : Int} {row : SourceRow}
      (hensured : Ensured s.db t.db chain_id contract_address start_block row)
      (hcheckpoints : SameCheckpoints s t) (hjobs : SameJobs s t)
      (hexecutions : t.executions = s.executions) (hingested : t.ingested = s.ingested) :
      Effect s t (.ensure_source chain_id name contract_address standard start_block)
  | enqueued {command : RangeCommand} {from_block to_block : Nat} {max_attempts : Int}
      {now : Timestamp} (id : Uuid) {source : SourceRow} (hsource : source ∈ s.db.sources.rows)
      (hjobs : ∀ r, r ∈ t.db.jobs.rows ↔ r = (command.job id source.from_source from_block to_block
        max_attempts).to_row now ∨ r ∈ s.db.jobs.rows)
      (hsources : SameSources s t) (hcheckpoints : SameCheckpoints s t)
      (hexecutions : t.executions = s.executions) (hingested : t.ingested = s.ingested) :
      Effect s t (.enqueue command source.id from_block to_block max_attempts now)
  | leased {slot : Nat} {worker_id : String} {lease_for : Int} {replay : Bool}
      {chain_id : Option Int} {locked : Uuid → Bool} {selected_at now : Timestamp} {old : JobRow}
      (hslot : s.executions slot = none)
      (hcandidate : lock_next_candidate s.db selected_at
        (some (if replay then .ReplayRange else .IngestRange)) chain_id locked = some old)
      (hfree : locked old.id = false)
      (hjobs : Replaced s t old (old.lease worker_id (now + lease_for)))
      (hsources : SameSources s t) (hcheckpoints : SameCheckpoints s t)
      (hexecutions : t.executions = Function.update s.executions slot
        (some { worker_id, job := old.lease worker_id (now + lease_for), phase := .Leased }))
      (hingested : t.ingested = s.ingested) :
      Effect s t (.lease slot worker_id lease_for replay chain_id locked selected_at now)
  | running {slot : Nat} {now : Timestamp} {e : Execution} {old : JobRow}
      (hslot : s.executions slot = some e) (hphase : e.phase = .Leased) (hid : old.id = e.job.id)
      (hjobs : Replaced s t old old.run)
      (hsources : SameSources s t) (hcheckpoints : SameCheckpoints s t)
      (hexecutions : t.executions = Function.update s.executions slot
        (some { e with job := old.run, phase := .Running }))
      (hingested : t.ingested = s.ingested) : Effect s t (.mark_running slot now)
  | succeeded {slot : Nat} {now : Timestamp} {e : Execution} {old : JobRow}
      (hslot : s.executions slot = some e) (hphase : e.phase = .Executed) (hid : old.id = e.job.id)
      (hjobs : Replaced s t old old.succeed)
      (hsources : SameSources s t) (hcheckpoints : SameCheckpoints s t)
      (hexecutions : t.executions = Function.update s.executions slot none)
      (hingested : t.ingested = s.ingested) : Effect s t (.mark_succeeded slot now)
  | gave_up {op : IndexerOp} {slot : Nat} {e : Execution} {old : JobRow} {status : JobStatus}
      {error_class error_message : String}
      (hop : (∃ message now, op = .mark_failed slot message now) ∨
        ∃ now, op = .mark_interrupted_for_retry slot now)
      (hslot : s.executions slot = some e) (hid : old.id = e.job.id)
      (hstatus : status = .Queued ∨ status = .DeadLettered)
      (hjobs : Replaced s t old (old.give_up status error_class error_message))
      (hsources : SameSources s t) (hcheckpoints : SameCheckpoints s t)
      (hexecutions : t.executions = Function.update s.executions slot none)
      (hingested : t.ingested = s.ingested) : Effect s t op
  | dropped {op : IndexerOp} {slot : Nat} {e : Execution} (hslot : s.executions slot = some e)
      (hop : op = .crash slot ∨ ∃ now, op = .mark_interrupted_for_retry slot now)
      (hjobs : SameJobs s t) (hsources : SameSources s t) (hcheckpoints : SameCheckpoints s t)
      (hexecutions : t.executions = Function.update s.executions slot none)
      (hingested : t.ingested = s.ingested) : Effect s t op
  | moved {op : IndexerOp} {slot : Nat} {e : Execution} {phase : Phase} (hop : op.slot = some slot)
      (hslot : s.executions slot = some e) (hphase : PhaseStep s e op phase)
      (hjobs : SameJobs s t) (hsources : SameSources s t) (hcheckpoints : SameCheckpoints s t)
      (hexecutions : t.executions = Function.update s.executions slot (some { e with phase }))
      (hingested : t.ingested = s.ingested) : Effect s t op
  | ingested {slot : Nat} {e : Execution} {phase : Phase} (hslot : s.executions slot = some e)
      (hphase : IngestStep e phase)
      (hjobs : SameJobs s t) (hsources : SameSources s t) (hcheckpoints : SameCheckpoints s t)
      (hexecutions : t.executions = Function.update s.executions slot (some { e with phase }))
      (hingested : t.ingested = e.job.id :: s.ingested) : Effect s t (.ingest_source_range slot)
  | advanced {slot : Nat} {processed_block_hash : String} {e : Execution} {source : SourceRow}
      {observed_finalized_block target : Int} {row : CheckpointRow}
      (hslot : s.executions slot = some e)
      (hphase : e.phase = .Targeted source observed_finalized_block target)
      (hadvanced : Advanced s.db t.db source.id target row)
      (hjobs : SameJobs s t) (hsources : SameSources s t)
      (hexecutions : t.executions = Function.update s.executions slot
        (some { e with phase := .Executed }))
      (hingested : t.ingested = s.ingested) :
      Effect s t (.advance_checkpoint slot processed_block_hash)

section Effects

variable {parseAmount : AmountParser} {s t : Indexer} {op : IndexerOp}

theorem SameJobs.of_perm {db : Db} (hsame : db.SameRows t.db) (h : db.jobs = s.db.jobs) :
    SameJobs s t := fun r => by rw [← hsame.jobs.mem_iff, h]

theorem SameSources.of_perm {db : Db} (hsame : db.SameRows t.db) (h : db.sources = s.db.sources) :
    SameSources s t := fun r => by rw [← hsame.sources.mem_iff, h]

theorem SameCheckpoints.of_perm {db : Db} (hsame : db.SameRows t.db)
    (h : db.checkpoints = s.db.checkpoints) : SameCheckpoints s t := fun r => by
  rw [← hsame.checkpoints.mem_iff, h]

theorem Replaced.of_perm {db : Db} {old new : JobRow} (hsame : db.SameRows t.db)
    (hold : old ∈ s.db.jobs.rows) (h : db.jobs.rows = replaceRow old new s.db.jobs.rows) :
    Replaced s t old new := by
  refine ⟨hold, fun r => ?_⟩
  rw [← hsame.jobs.mem_iff, h, mem_replaceRow hold]

section Turns

variable {u : Indexer} {slot : Nat} {e : Execution} (hslot : s.executions slot = some e)
  (hsame : u.db.SameRows t.db) (hexecutions : t.executions = u.executions)
  (hingested : t.ingested = u.ingested)

include hslot hsame hexecutions hingested

-- one equation for each operation, made here once for all lemmas of the section
attribute [local simp] Indexer.advance_execution

/-- `mark_running` takes the row of the job to running, and the execution holds the new row. -/
theorem mark_running_effect {now : Timestamp}
    (h : s.advance_execution parseAmount slot e (.mark_running slot now) = some u) :
    Effect s t (.mark_running slot now) := by
  simp only [Indexer.advance_execution] at h
  split at h
  · rename_i hphase
    simp only [Option.map_eq_some_iff, toOption_eq_some] at h
    obtain ⟨⟨running, db⟩, hmark, rfl⟩ := h
    unfold mark_running at hmark
    obtain ⟨hframe, old, hold, hid, rfl, hrows⟩ := mark_job_returns hmark
    exact .running hslot hphase hid (.of_perm hsame hold hrows) (.of_perm hsame hframe.sources)
      (.of_perm hsame hframe.checkpoints) hexecutions hingested
  · cases h

/-- Loading reads the source of the job and writes no row. -/
theorem load_source_effect {observed_finalized_block : Int}
    (h : s.advance_execution parseAmount slot e (.load_source slot observed_finalized_block)
      = some u) :
    Effect s t (.load_source slot observed_finalized_block) := by
  simp only [Indexer.advance_execution] at h
  split at h
  · rename_i hphase
    simp only [Option.map_eq_some_iff, toOption_eq_some] at h
    obtain ⟨source, hsource, rfl⟩ := h
    exact .moved rfl hslot (.loaded hphase hsource) (.of_perm hsame rfl) (.of_perm hsame rfl)
      (.of_perm hsame rfl) hexecutions hingested
  · cases h

/-- Orphaning writes the ledger, which no effect looks at. -/
theorem orphan_source_range_effect
    (h : s.advance_execution parseAmount slot e (.orphan_source_range slot) = some u) :
    Effect s t (.orphan_source_range slot) := by
  simp only [Indexer.advance_execution] at h
  split at h
  · rename_i hphase htype hrange
    simp only [Option.map_eq_some_iff, toOption_eq_some] at h
    obtain ⟨⟨summary, db⟩, horphan, rfl⟩ := h
    have hframe := orphan_source_range_onlyLedger horphan
    exact .moved rfl hslot (.orphaned hphase) (.of_perm hsame hframe.jobs)
      (.of_perm hsame hframe.sources) (.of_perm hsame hframe.checkpoints) hexecutions hingested
  · cases h

omit hslot in
/-- So does persisting, and the execution stays where it is. -/
theorem persist_decoded_logs_effect {logs : List (RpcLog × DecodedLog)}
    (h : s.advance_execution parseAmount slot e (.persist_decoded_logs slot logs) = some u) :
    Effect s t (.persist_decoded_logs slot logs) := by
  simp only [Indexer.advance_execution] at h
  split at h
  · simp only [Option.map_eq_some_iff, toOption_eq_some] at h
    obtain ⟨⟨summary, db⟩, hpersist, rfl⟩ := h
    have hframe := persist_decoded_logs_onlyLedger hpersist
    exact .idle rfl (.of_perm hsame hframe.sources) (.of_perm hsame hframe.checkpoints)
      (.of_perm hsame hframe.jobs) hexecutions hingested
  · simp only [Option.map_eq_some_iff, toOption_eq_some] at h
    obtain ⟨⟨summary, db⟩, hpersist, rfl⟩ := h
    have hframe := persist_decoded_logs_onlyLedger hpersist
    exact .idle rfl (.of_perm hsame hframe.sources) (.of_perm hsame hframe.checkpoints)
      (.of_perm hsame hframe.jobs) hexecutions hingested
  · cases h

/-- A first ingestion goes on to the checkpoint, and a replay is done. -/
theorem ingest_source_range_effect
    (h : s.advance_execution parseAmount slot e (.ingest_source_range slot) = some u) :
    Effect s t (.ingest_source_range slot) := by
  simp only [Indexer.advance_execution] at h
  split at h
  · rename_i hphase htype
    cases h
    exact .ingested hslot (.ingested hphase htype) (.of_perm hsame rfl) (.of_perm hsame rfl)
      (.of_perm hsame rfl) hexecutions hingested
  · rename_i hphase htype
    cases h
    exact .ingested hslot (.replayed hphase htype) (.of_perm hsame rfl) (.of_perm hsame rfl)
      (.of_perm hsame rfl) hexecutions hingested
  · cases h

/-- Computing a target reads the succeeded ranges; a target past the observed block is dropped. -/
theorem next_contiguous_checkpoint_target_effect
    (h : s.advance_execution parseAmount slot e (.next_contiguous_checkpoint_target slot)
      = some u) :
    Effect s t (.next_contiguous_checkpoint_target slot) := by
  simp only [Indexer.advance_execution] at h
  split at h
  · rename_i source observed_finalized_block hphase
    simp only [Option.map_eq_some_iff, toOption_eq_some] at h
    obtain ⟨target, htarget, rfl⟩ := h
    refine .moved rfl hslot ?_ (.of_perm hsame rfl) (.of_perm hsame rfl) (.of_perm hsame rfl)
      hexecutions hingested
    -- a target past the observed block is dropped
    cases target with
    | none => exact .untargeted hphase htarget fun t ht => by cases ht
    | some target =>
      by_cases hpast : observed_finalized_block < target
      · simp only [if_pos hpast]
        refine .untargeted hphase htarget fun t ht => ?_
        rwa [← Option.some_inj.1 ht]
      · simp only [if_neg hpast]
        exact .targeted hphase htarget (not_lt.1 hpast)
  · cases h

/-- The one effect on the checkpoints. -/
theorem advance_checkpoint_effect {processed_block_hash : String}
    (h : s.advance_execution parseAmount slot e (.advance_checkpoint slot processed_block_hash)
      = some u) :
    Effect s t (.advance_checkpoint slot processed_block_hash) := by
  simp only [Indexer.advance_execution] at h
  split at h
  · rename_i source observed_finalized_block target hphase
    simp only [Option.map_eq_some_iff, toOption_eq_some] at h
    obtain ⟨⟨row, db⟩, hadvance, rfl⟩ := h
    obtain ⟨hframe, hadvanced⟩ := advance_checkpoint_spec hadvance
    have hjobs : db.jobs = s.db.jobs := by rw [hframe]
    have hsources : db.sources = s.db.sources := by rw [hframe]
    -- the step leaves the checkpoints the call left, up to their order
    have hleft : Advanced s.db t.db source.id target row := by
      refine ⟨fun c => ?_, hadvanced.of_source, hadvanced.le_processed,
        hadvanced.processed_from, hadvanced.keeps⟩
      rw [← hsame.checkpoints.mem_iff]
      exact hadvanced.mem_iff c
    exact .advanced hslot hphase hleft (.of_perm hsame hjobs) (.of_perm hsame hsources)
      hexecutions hingested
  · cases h

/-- `mark_succeeded` ends the execution with its row succeeded. -/
theorem mark_succeeded_effect {now : Timestamp}
    (h : s.advance_execution parseAmount slot e (.mark_succeeded slot now) = some u) :
    Effect s t (.mark_succeeded slot now) := by
  simp only [Indexer.advance_execution] at h
  split at h
  · rename_i hphase
    simp only [Option.map_eq_some_iff, toOption_eq_some] at h
    obtain ⟨⟨row, db⟩, hmark, rfl⟩ := h
    unfold mark_succeeded at hmark
    obtain ⟨hframe, old, hold, hid, rfl, hrows⟩ := mark_job_returns hmark
    exact .succeeded hslot hphase hid (.of_perm hsame hold hrows) (.of_perm hsame hframe.sources)
      (.of_perm hsame hframe.checkpoints) hexecutions hingested
  · cases h

/-- `mark_failed` ends it with the row queued again or dead-lettered. -/
theorem mark_failed_effect {message : String} {now : Timestamp}
    (h : s.advance_execution parseAmount slot e (.mark_failed slot message now) = some u) :
    Effect s t (.mark_failed slot message now) := by
  simp only [Indexer.advance_execution] at h
  split at h
  · simp only [Option.map_eq_some_iff, toOption_eq_some] at h
    obtain ⟨⟨row, db⟩, hmark, rfl⟩ := h
    unfold mark_failed at hmark
    split at hmark
    · cases hmark
    · rename_i found hfind
      obtain ⟨hframe, old, hold, hid, rfl, hrows⟩ := mark_job_returns hmark
      have hfound := (find_job s.db hfind).2
      refine .gave_up (Or.inl ⟨message, now, rfl⟩) hslot (hid.trans hfound) ?_
        (.of_perm hsame hold hrows) (.of_perm hsame hframe.sources)
        (.of_perm hsame hframe.checkpoints) hexecutions hingested
      -- the row waits for another attempt or is dead
      unfold JobRow.failed_status
      split
      · exact Or.inr rfl
      · exact Or.inl rfl
  · cases h

/-- An interrupted execution queues its row again, unless somebody else has finished the job. -/
theorem mark_interrupted_for_retry_effect {now : Timestamp}
    (h : s.advance_execution parseAmount slot e (.mark_interrupted_for_retry slot now) = some u) :
    Effect s t (.mark_interrupted_for_retry slot now) := by
  simp only [Indexer.advance_execution] at h
  split at h
  · simp only [Option.map_eq_some_iff, toOption_eq_some] at h
    obtain ⟨⟨row, db⟩, hmark, rfl⟩ := h
    unfold mark_interrupted_for_retry at hmark
    split at hmark
    · cases hmark
    · rename_i found hfind
      have hfound := (find_job s.db hfind).2
      split at hmark
      · obtain ⟨hframe, old, hold, hid, rfl, hrows⟩ := mark_job_returns hmark
        exact .gave_up (Or.inr ⟨now, rfl⟩) hslot (hid.trans hfound) (Or.inl rfl)
          (.of_perm hsame hold hrows) (.of_perm hsame hframe.sources)
          (.of_perm hsame hframe.checkpoints) hexecutions hingested
      · -- a job that is not leased or running is left as it is
        cases hmark
        exact .dropped hslot (Or.inr ⟨now, rfl⟩) (.of_perm hsame rfl) (.of_perm hsame rfl)
          (.of_perm hsame rfl) hexecutions hingested
  · cases h

/-- A step of the execution in a slot has one of the effects. The phase decides which call the
execution can make, and any other returns nothing. -/
theorem advance_execution_effect (hop : op.slot = some slot)
    (h : s.advance_execution parseAmount slot e op = some u) : Effect s t op := by
  cases op with
  | ensure_source | enqueue | lease => cases hop
  | mark_running =>
    cases hop
    exact mark_running_effect hslot hsame hexecutions hingested h
  | load_source =>
    cases hop
    exact load_source_effect hslot hsame hexecutions hingested h
  | orphan_source_range =>
    cases hop
    exact orphan_source_range_effect hslot hsame hexecutions hingested h
  | persist_decoded_logs =>
    cases hop
    exact persist_decoded_logs_effect hsame hexecutions hingested h
  | ingest_source_range =>
    cases hop
    exact ingest_source_range_effect hslot hsame hexecutions hingested h
  | next_contiguous_checkpoint_target =>
    cases hop
    exact next_contiguous_checkpoint_target_effect hslot hsame hexecutions hingested h
  | advance_checkpoint =>
    cases hop
    exact advance_checkpoint_effect hslot hsame hexecutions hingested h
  | mark_succeeded =>
    cases hop
    exact mark_succeeded_effect hslot hsame hexecutions hingested h
  | mark_failed =>
    cases hop
    exact mark_failed_effect hslot hsame hexecutions hingested h
  | mark_interrupted_for_retry =>
    cases hop
    exact mark_interrupted_for_retry_effect hslot hsame hexecutions hingested h
  | crash _ =>
    cases hop
    cases h
    exact .dropped hslot (Or.inl rfl) (.of_perm hsame rfl) (.of_perm hsame rfl)
      (.of_perm hsame rfl) hexecutions hingested

end Turns

/-- Every step has one of the effects. Invariants of the system are proved from this by cases
on the effect, and the programs are not unfolded again. -/
theorem IndexerStep.effect (h : IndexerStep parseAmount s op t) : Effect s t op := by
  obtain ⟨u, hexec, hsame, hexecutions, hingested⟩ := h
  unfold Indexer.exec at hexec
  -- the calls outside an execution, then those of one
  split at hexec
  · rename_i chain_id name contract_address standard start_block
    simp only [Option.map_eq_some_iff, toOption_eq_some] at hexec
    obtain ⟨⟨row, db⟩, hensure, rfl⟩ := hexec
    have hframe := ensure_source_frame hensure
    have hcheckpoints : db.checkpoints = s.db.checkpoints := by rw [hframe]
    have hjobs : db.jobs = s.db.jobs := by rw [hframe]
    obtain ⟨hstart, hchange⟩ := ensure_source_spec hensure
    have hensured : Ensured s.db t.db chain_id contract_address start_block row := by
      refine ⟨hstart, ?_⟩
      simp only [← hsame.sources.mem_iff]
      exact hchange
    exact .ensured hensured (.of_perm hsame hcheckpoints) (.of_perm hsame hjobs) hexecutions
      hingested
  · simp only [Option.bind_eq_some_iff, Option.map_eq_some_iff, toOption_eq_some] at hexec
    obtain ⟨source, hsource, ⟨result, db⟩, henqueue, rfl⟩ := hexec
    obtain ⟨hmem, rfl⟩ := source_by_id_eq_some.1 hsource
    have hframe := enqueue_onlyQueue henqueue
    rcases enqueue_spec henqueue with ⟨hrows, -⟩ | rfl
    · refine .enqueued s.db.next_uuid hmem (fun r => ?_) (.of_perm hsame hframe.sources)
        (.of_perm hsame hframe.checkpoints) hexecutions hingested
      have hdb : (s.with_db db).db = db := rfl
      rw [← hsame.jobs.mem_iff, hdb, hrows, List.mem_append, List.mem_singleton, or_comm]
    · exact .idle rfl (.of_perm hsame rfl) (.of_perm hsame rfl) (.of_perm hsame rfl) hexecutions
        hingested
  · split at hexec
    · cases hexec
    · rename_i hslot
      simp only [Option.map_eq_some_iff, toOption_eq_some] at hexec
      obtain ⟨⟨leased, db⟩, hlease, hu⟩ := hexec
      have hframe := lease_next_candidate_onlyQueue hlease
      rcases lease_next_candidate_spec hlease with ⟨rfl, rfl⟩ | ⟨candidate, hlock, rfl, hrows, -⟩
      · subst hu
        exact .idle rfl (.of_perm hsame rfl) (.of_perm hsame rfl) (.of_perm hsame rfl) hexecutions
          hingested
      · subst hu
        have hnext := lock_next_candidate_spec hlock
        exact .leased hslot hlock hnext.free (.of_perm hsame hnext.mem hrows)
          (.of_perm hsame hframe.sources) (.of_perm hsame hframe.checkpoints) hexecutions hingested
  · simp only [Option.bind_eq_some_iff] at hexec
    obtain ⟨slot, hop, e, hslot, hadvance⟩ := hexec
    exact advance_execution_effect hslot hsame hexecutions hingested hop hadvance

end Effects

/-! ## The call of a turn

Of a turn most properties need less than its effect: which call it makes on the database, and
not what that does to each table. A property of the database that every call has is a property
of the steps by these five cases.
-/

section Calls

variable {parseAmount : AmountParser} {s u : Indexer} {slot : Nat} {e : Execution} {op : IndexerOp}

/-- The operations that are calls of the ledger. The others are calls of the queue or move the
checkpoint, or make no call. -/
def IndexerOp.calls_ledger : IndexerOp → Bool
  | .ensure_source .. => true
  | .orphan_source_range _ => true
  | .persist_decoded_logs _ _ => true
  | _ => false

/-- The call a turn makes, by the database it returns. Four of the turns make none. -/
inductive TurnCall (parseAmount : AmountParser) (s : Indexer) (e : Execution) :
    IndexerOp → Db → Prop
  | none {op : IndexerOp} (hop : op.calls_ledger = false) : TurnCall parseAmount s e op s.db
  | mark_job {op : IndexerOp} {job_id : Uuid} {set : JobRow → JobRow} {hset : KeepsKeys set}
      {attempt_status : JobStatus} {error_class error_message : Option String} {now : Timestamp}
      {row : JobRow} {db : Db} (hop : op.calls_ledger = false)
      (h : mark_job s.db job_id set hset attempt_status error_class error_message now
        = .ok (row, db)) : TurnCall parseAmount s e op db
  | advance_checkpoint {slot : Nat} {source_id : Uuid} {target observed_finalized_block : Int}
      {processed_block_hash : String} {row : CheckpointRow} {db : Db}
      (h : advance_checkpoint s.db source_id target processed_block_hash observed_finalized_block
        = .ok (row, db)) : TurnCall parseAmount s e (.advance_checkpoint slot processed_block_hash) db
  | orphan_source_range {slot : Nat} {source : SourceRow} {observed_finalized_block : Int}
      {range : Int × Int} {summary : OrphanRangeSummary} {db : Db}
      (hphase : e.phase = .Loaded source observed_finalized_block) (hrange : e.job.range = some range)
      (h : orphan_source_range s.db source range.1 range.2 = .ok (summary, db)) :
      TurnCall parseAmount s e (.orphan_source_range slot) db
  | persist_decoded_logs {slot : Nat} {logs : List (RpcLog × DecodedLog)} {source : SourceRow}
      {observed_finalized_block : Int} {restore : Bool} {summary : ScanSummary} {db : Db}
      (hphase : e.phase = .Loaded source observed_finalized_block ∧ restore = false ∨
        e.phase = .Orphaned source observed_finalized_block ∧ restore = true)
      (h : persist_decoded_logs_with_options parseAmount s.db source.from_source logs
        { restore_orphaned_conflicts := restore } = .ok (summary, db)) :
      TurnCall parseAmount s e (.persist_decoded_logs slot logs) db

theorem advance_execution_call (hop : op.slot = some slot)
    (h : s.advance_execution parseAmount slot e op = some u) : TurnCall parseAmount s e op u.db := by
  cases op with
  | ensure_source | enqueue | lease => cases hop
  | mark_running _ now =>
    simp only [Indexer.advance_execution] at h
    split at h
    · simp only [Option.map_eq_some_iff, toOption_eq_some] at h
      obtain ⟨⟨row, db⟩, hmark, rfl⟩ := h
      exact .mark_job rfl hmark
    · cases h
  | load_source _ _ =>
    simp only [Indexer.advance_execution] at h
    split at h
    · simp only [Option.map_eq_some_iff] at h
      obtain ⟨_, -, rfl⟩ := h
      exact .none rfl
    · cases h
  | orphan_source_range _ =>
    simp only [Indexer.advance_execution] at h
    split at h
    · rename_i hphase _ hrange
      simp only [Option.map_eq_some_iff, toOption_eq_some] at h
      obtain ⟨⟨summary, db⟩, horphan, rfl⟩ := h
      exact .orphan_source_range hphase hrange horphan
    · cases h
  | persist_decoded_logs _ logs =>
    simp only [Indexer.advance_execution] at h
    split at h
    · rename_i hphase _
      simp only [Option.map_eq_some_iff, toOption_eq_some] at h
      obtain ⟨⟨summary, db⟩, hpersist, rfl⟩ := h
      exact .persist_decoded_logs (Or.inl ⟨hphase, rfl⟩) hpersist
    · rename_i hphase _
      simp only [Option.map_eq_some_iff, toOption_eq_some] at h
      obtain ⟨⟨summary, db⟩, hpersist, rfl⟩ := h
      exact .persist_decoded_logs (Or.inr ⟨hphase, rfl⟩) hpersist
    · cases h
  | ingest_source_range _ =>
    simp only [Indexer.advance_execution] at h
    split at h
    · cases h
      exact .none rfl
    · cases h
      exact .none rfl
    · cases h
  | next_contiguous_checkpoint_target _ =>
    simp only [Indexer.advance_execution] at h
    split at h
    · simp only [Option.map_eq_some_iff] at h
      obtain ⟨_, -, rfl⟩ := h
      exact .none rfl
    · cases h
  | advance_checkpoint _ processed_block_hash =>
    simp only [Indexer.advance_execution] at h
    split at h
    · simp only [Option.map_eq_some_iff, toOption_eq_some] at h
      obtain ⟨⟨row, db⟩, hadvance, rfl⟩ := h
      exact .advance_checkpoint hadvance
    · cases h
  | mark_succeeded _ now =>
    simp only [Indexer.advance_execution] at h
    split at h
    · simp only [Option.map_eq_some_iff, toOption_eq_some] at h
      obtain ⟨⟨row, db⟩, hmark, rfl⟩ := h
      exact .mark_job rfl hmark
    · cases h
  | mark_failed _ message now =>
    simp only [Indexer.advance_execution] at h
    split at h
    · simp only [Option.map_eq_some_iff, toOption_eq_some] at h
      obtain ⟨⟨row, db⟩, hmark, rfl⟩ := h
      unfold mark_failed at hmark
      split at hmark
      · cases hmark
      · exact .mark_job rfl hmark
    · cases h
  | mark_interrupted_for_retry _ now =>
    simp only [Indexer.advance_execution] at h
    split at h
    · simp only [Option.map_eq_some_iff, toOption_eq_some] at h
      obtain ⟨⟨row, db⟩, hmark, rfl⟩ := h
      unfold mark_interrupted_for_retry at hmark
      split at hmark
      · cases hmark
      · split at hmark
        · exact .mark_job rfl hmark
        · cases hmark
          exact .none rfl
    · cases h
  | crash _ =>
    cases h
    exact .none rfl

end Calls

/-! ## Jobs and executions across a step

Going backwards from the state after a step, a job was there before or was enqueued, and an
execution was there, has just leased its job, has marked it running or has gone on to another
phase. Going forwards, no job and no source is lost. These are the two directions an
invariant asks for.
-/

/-- Two states of one job: everything but its progress is the same. -/
structure JobRow.SameJob (a b : JobRow) : Prop where
  id : a.id = b.id
  job_type : a.job_type = b.job_type
  source_id : a.source_id = b.source_id
  chain_id : a.chain_id = b.chain_id
  from_block : a.from_block = b.from_block
  to_block : a.to_block = b.to_block
  idempotency_key : a.idempotency_key = b.idempotency_key

theorem JobRow.SameJob.refl (a : JobRow) : a.SameJob a := ⟨rfl, rfl, rfl, rfl, rfl, rfl, rfl⟩

theorem JobRow.SameJob.symm {a b : JobRow} (h : a.SameJob b) : b.SameJob a :=
  ⟨h.id.symm, h.job_type.symm, h.source_id.symm, h.chain_id.symm, h.from_block.symm,
    h.to_block.symm, h.idempotency_key.symm⟩

theorem JobRow.SameJob.trans {a b c : JobRow} (h : a.SameJob b) (k : b.SameJob c) : a.SameJob c :=
  ⟨h.id.trans k.id, h.job_type.trans k.job_type, h.source_id.trans k.source_id,
    h.chain_id.trans k.chain_id, h.from_block.trans k.from_block, h.to_block.trans k.to_block,
    h.idempotency_key.trans k.idempotency_key⟩

theorem JobRow.SameJob.range {a b : JobRow} (h : a.SameJob b) : a.range = b.range := by
  unfold JobRow.range
  rw [h.from_block, h.to_block]

theorem JobRow.SameJob.ingests_iff {a b : JobRow} (h : a.SameJob b) {source_id : Uuid} :
    a.ingests source_id ↔ b.ingests source_id := by
  unfold JobRow.ingests
  rw [h.job_type, h.source_id]

theorem JobRow.SameJob.contains_iff {a b : JobRow} (h : a.SameJob b) {x : Int} :
    a.contains x ↔ b.contains x := by
  unfold JobRow.contains
  rw [h.range]

/-- The source an execution has loaded. -/
def Phase.source : Phase → Option SourceRow
  | .Loaded source _ => some source
  | .Orphaned source _ => some source
  | .Ingested source _ => some source
  | .Targeted source _ _ => some source
  | _ => none

/-- `ingest_source_range` has returned `Ok` in the execution. -/
def Phase.ingested : Phase → Bool
  | .Ingested .. => true
  | .Targeted .. => true
  | .Executed => true
  | _ => false

/-- The execution goes on to the checkpoint of its source. -/
def Phase.to_checkpoint : Phase → Bool
  | .Ingested .. => true
  | .Targeted .. => true
  | _ => false

/-- A step that takes an execution to a phase and keeps its job. -/
inductive PhaseChange (s t : Indexer) (e : Execution) (op : IndexerOp) : Phase → Prop
  | moved {phase : Phase} (hphase : PhaseStep s e op phase) (hingested : t.ingested = s.ingested) :
      PhaseChange s t e op phase
  | ingested {phase : Phase} (hphase : IngestStep e phase)
      (hingested : t.ingested = e.job.id :: s.ingested) : PhaseChange s t e op phase
  | advanced {source : SourceRow} {observed_finalized_block target : Int} {row : CheckpointRow}
      (hphase : e.phase = .Targeted source observed_finalized_block target)
      (hadvanced : Advanced s.db t.db source.id target row)
      (hingested : t.ingested = s.ingested) : PhaseChange s t e op .Executed

section Steps

variable {s t : Indexer} {op : IndexerOp}

/-- A job after a step was there before, or was enqueued by it, or is a job from
before it. Only the execution that has executed a job makes it succeed. -/
theorem Effect.job_mem (h : Effect s t op) {row : JobRow} (hrow : row ∈ t.db.jobs.rows) :
    row ∈ s.db.jobs.rows ∨
      (∃ (command : RangeCommand) (id : Uuid) (source : SourceRow) (from_block to_block : Nat)
          (max_attempts now : Int), source ∈ s.db.sources.rows ∧
        row = (command.job id source.from_source from_block to_block max_attempts).to_row now) ∨
      ∃ old ∈ s.db.jobs.rows, row.SameJob old ∧
        (row.status = .Succeeded → ∃ slot e, s.executions slot = some e ∧ e.phase = .Executed ∧
          old.id = e.job.id) := by
  -- a job leaves the table in no effect: at most its row is replaced
  cases h with
  | idle _ _ _ hjobs | ensured _ _ hjobs | dropped _ _ hjobs | moved _ _ _ hjobs
  | ingested _ _ hjobs | advanced _ _ _ hjobs => exact Or.inl ((hjobs row).1 hrow)
  | enqueued id hsource hjobs =>
    rcases (hjobs row).1 hrow with rfl | hrow
    · exact Or.inr (Or.inl ⟨_, id, _, _, _, _, _, hsource, rfl⟩)
    · exact Or.inl hrow
  | leased _ _ _ hjobs =>
    rcases (hjobs.2 row).1 hrow with rfl | ⟨hrow, -⟩
    · exact Or.inr (Or.inr ⟨_, hjobs.1, ⟨rfl, rfl, rfl, rfl, rfl, rfl, rfl⟩, fun hs => nomatch hs⟩)
    · exact Or.inl hrow
  | running _ _ _ hjobs =>
    rcases (hjobs.2 row).1 hrow with rfl | ⟨hrow, -⟩
    · exact Or.inr (Or.inr ⟨_, hjobs.1, ⟨rfl, rfl, rfl, rfl, rfl, rfl, rfl⟩, fun hs => nomatch hs⟩)
    · exact Or.inl hrow
  | succeeded hslot hphase hid hjobs =>
    rcases (hjobs.2 row).1 hrow with rfl | ⟨hrow, -⟩
    · exact Or.inr (Or.inr ⟨_, hjobs.1, ⟨rfl, rfl, rfl, rfl, rfl, rfl, rfl⟩,
        fun _ => ⟨_, _, hslot, hphase, hid⟩⟩)
    · exact Or.inl hrow
  | gave_up _ _ _ hstatus hjobs =>
    rcases (hjobs.2 row).1 hrow with rfl | ⟨hrow, -⟩
    · refine Or.inr (Or.inr ⟨_, hjobs.1, ⟨rfl, rfl, rfl, rfl, rfl, rfl, rfl⟩, fun hs => ?_⟩)
      have hgiven : _ = JobStatus.Succeeded := hs
      rcases hstatus with hqueued | hdead
      · exact nomatch hqueued.symm.trans hgiven
      · exact nomatch hdead.symm.trans hgiven
    · exact Or.inl hrow

/-- No step removes a job, or changes what it is for. -/
theorem Effect.job_stays (h : Effect s t op) {row : JobRow} (hrow : row ∈ s.db.jobs.rows) :
    ∃ new ∈ t.db.jobs.rows, new.SameJob row := by
  have hreplaced : ∀ {old new : JobRow}, Replaced s t old new → new.SameJob old →
      ∃ new ∈ t.db.jobs.rows, new.SameJob row := by
    intro old new hjobs hsame
    by_cases hold : row = old
    · exact ⟨new, (hjobs.2 new).2 (Or.inl rfl), hold ▸ hsame⟩
    · exact ⟨row, (hjobs.2 row).2 (Or.inr ⟨hrow, hold⟩), .refl row⟩
  cases h with
  | idle _ _ _ hjobs | ensured _ _ hjobs | dropped _ _ hjobs | moved _ _ _ hjobs
  | ingested _ _ hjobs | advanced _ _ _ hjobs => exact ⟨row, (hjobs row).2 hrow, .refl row⟩
  | enqueued _ _ hjobs => exact ⟨row, (hjobs row).2 (Or.inr hrow), .refl row⟩
  | leased _ _ _ hjobs | running _ _ _ hjobs | succeeded _ _ _ hjobs | gave_up _ _ _ _ hjobs =>
    exact hreplaced hjobs ⟨rfl, rfl, rfl, rfl, rfl, rfl, rfl⟩

/-- No step forgets a source. -/
theorem Effect.source_stays (h : Effect s t op) {source : SourceRow}
    (hsource : source ∈ s.db.sources.rows) : ∃ new ∈ t.db.sources.rows, new.id = source.id := by
  cases h with
  | idle _ hsources | enqueued _ _ _ hsources | leased _ _ _ _ hsources | running _ _ _ _ hsources
  | succeeded _ _ _ _ hsources | gave_up _ _ _ _ _ hsources | dropped _ _ _ hsources
  | moved _ _ _ _ hsources | ingested _ _ _ hsources | advanced _ _ _ _ hsources =>
    exact ⟨source, (hsources source).2 hsource, rfl⟩
  | @ensured _ _ _ _ _ row hensured =>
    rcases hensured.change with ⟨old, hold, -, -, hid, hrows⟩ | ⟨-, hrows⟩
    · by_cases hsame : source.id = row.id
      · exact ⟨row, (hrows row).2 (Or.inl rfl), hsame.symm⟩
      · exact ⟨source, (hrows source).2 (Or.inr ⟨hsource, hsame⟩), rfl⟩
    · exact ⟨source, (hrows source).2 (Or.inr hsource), rfl⟩

/-- An ingested job stays ingested. -/
theorem Effect.ingested_stays (h : Effect s t op) {id : Uuid} (hid : id ∈ s.ingested) :
    id ∈ t.ingested := by
  cases h with
  | idle _ _ _ _ _ hingested | ensured _ _ _ _ hingested | enqueued _ _ _ _ _ _ hingested
  | leased _ _ _ _ _ _ _ hingested | running _ _ _ _ _ _ _ hingested
  | succeeded _ _ _ _ _ _ _ hingested | gave_up _ _ _ _ _ _ _ _ hingested
  | dropped _ _ _ _ _ _ hingested | moved _ _ _ _ _ _ _ hingested
  | advanced _ _ _ _ _ _ hingested => rwa [hingested]
  | ingested _ _ _ _ _ _ hingested =>
    rw [hingested]
    exact List.mem_cons_of_mem _ hid

/-- The execution in a slot has just leased its job, the next candidate of the queue, which was
queued or under an expired lease. -/
structure JustLeased (s t : Indexer) (op : IndexerOp) (slot : Nat) (e : Execution) : Prop where
  phase : e.phase = .Leased
  job : e.job ∈ t.db.jobs.rows
  status : e.job.status = .Leased
  free : s.executions slot = none
  others : ∀ i, i ≠ slot → t.executions i = s.executions i
  candidate : ∃ old ∈ s.db.jobs.rows, e.job.SameJob old ∧
    ∃ worker_id lease_for replay chain_id locked selected_at now,
      op = .lease slot worker_id lease_for replay chain_id locked selected_at now ∧
        (old.status = .Queued ∨ old.lease_expired selected_at = true) ∧
        lock_next_candidate s.db selected_at (some (if replay then .ReplayRange else .IngestRange))
          chain_id locked = some old

/-- An execution after a step was there before it, or has just leased its job, or
has just marked it running, or went on to another phase. -/
theorem Effect.execution_mem (h : Effect s t op) {slot : Nat} {e : Execution}
    (he : t.executions slot = some e) :
    s.executions slot = some e ∨
      JustLeased s t op slot e ∨
      ∃ old, s.executions slot = some old ∧
        ((e.phase = .Running ∧ e.job ∈ t.db.jobs.rows ∧ e.job.id = old.job.id) ∨
          (e.job = old.job ∧ op.slot = some slot ∧ PhaseChange s t old op e.phase)) := by
  -- a call writes the slot it is made in and no other
  cases h with
  | idle _ _ _ _ hexecutions | ensured _ _ _ hexecutions | enqueued _ _ _ _ _ hexecutions =>
    rw [hexecutions] at he
    exact Or.inl he
  | leased hslot hcandidate _ hjobs _ _ hexecutions =>
    rw [hexecutions] at he
    rcases update_eq_some he with ⟨rfl, hnew⟩ | ⟨-, hold⟩
    · cases hnew
      refine Or.inr (Or.inl ⟨rfl, (hjobs.2 _).2 (Or.inl rfl), rfl, hslot, fun i hi => ?_, _,
        hjobs.1, ⟨rfl, rfl, rfl, rfl, rfl, rfl, rfl⟩, _, _, _, _, _, _, _, rfl, ?_, hcandidate⟩)
      · rw [hexecutions, Function.update_of_ne hi]
      · have hmatches := (lock_next_candidate_spec hcandidate).candidate
        simp only [JobRow.is_candidate, Bool.and_eq_true, Bool.or_eq_true, beq_iff_eq] at hmatches
        exact hmatches.2
    · exact Or.inl hold
  | running hslot _ hid hjobs _ _ hexecutions =>
    rw [hexecutions] at he
    rcases update_eq_some he with ⟨rfl, hnew⟩ | ⟨-, hold⟩
    · cases hnew
      exact Or.inr (Or.inr ⟨_, hslot, Or.inl ⟨rfl, (hjobs.2 _).2 (Or.inl rfl), hid⟩⟩)
    · exact Or.inl hold
  | succeeded _ _ _ _ _ _ hexecutions | gave_up _ _ _ _ _ _ _ hexecutions
  | dropped _ _ _ _ _ hexecutions =>
    rw [hexecutions] at he
    rcases update_eq_some he with ⟨-, hnew⟩ | ⟨-, hold⟩
    · cases hnew
    · exact Or.inl hold
  | moved hop hslot hphase _ _ _ hexecutions hingested =>
    rw [hexecutions] at he
    rcases update_eq_some he with ⟨rfl, hnew⟩ | ⟨-, hold⟩
    · cases hnew
      exact Or.inr (Or.inr ⟨_, hslot, Or.inr ⟨rfl, hop, .moved hphase hingested⟩⟩)
    · exact Or.inl hold
  | ingested hslot hphase _ _ _ hexecutions hingested =>
    rw [hexecutions] at he
    rcases update_eq_some he with ⟨rfl, hnew⟩ | ⟨-, hold⟩
    · cases hnew
      exact Or.inr (Or.inr ⟨_, hslot, Or.inr ⟨rfl, rfl, .ingested hphase hingested⟩⟩)
    · exact Or.inl hold
  | advanced hslot hphase hadvanced _ _ hexecutions hingested =>
    rw [hexecutions] at he
    rcases update_eq_some he with ⟨rfl, hnew⟩ | ⟨-, hold⟩
    · cases hnew
      exact Or.inr (Or.inr ⟨_, hslot, Or.inr ⟨rfl, rfl, .advanced hphase hadvanced hingested⟩⟩)
    · exact Or.inl hold

end Steps

/-! ## What always holds

Each field of `Indexer.WellFormed` is kept by every step, with no condition on it. An
execution holds a copy of its job row that may be out of date, so the fields speak of what
the copy and the row have in common: the identity of the job, its source and its range.
-/

/-- The job was enqueued by a command. -/
def JobRow.Enqueued (row : JobRow) : Prop :=
  ∃ (command : RangeCommand) (id : Uuid) (source : SourceRef) (from_block to_block : Nat)
    (max_attempts now : Int),
    row.SameJob ((command.job id source from_block to_block max_attempts).to_row now)

/-- What holds in every state of the indexer. -/
structure Indexer.WellFormed (s : Indexer) : Prop where
  /-- An execution holds a job of the queue. -/
  stored : ∀ slot e, s.executions slot = some e → ∃ row ∈ s.db.jobs.rows, row.SameJob e.job
  /-- The source it has loaded is the job's. -/
  loaded : ∀ slot e source, s.executions slot = some e → e.phase.source = some source →
    e.job.source_id = some source.id
  /-- What it believes to be ingested was ingested. -/
  noted : ∀ slot e, s.executions slot = some e → e.phase.ingested = true → e.job.id ∈ s.ingested
  /-- Only a range that is ingested for the first time goes to the checkpoint. -/
  ingesting : ∀ slot e, s.executions slot = some e → e.phase.to_checkpoint = true →
    e.job.job_type = .IngestRange
  /-- A succeeded job was ingested. -/
  succeeded : ∀ row ∈ s.db.jobs.rows, row.status = .Succeeded → row.id ∈ s.ingested
  /-- Every job was enqueued by a command. -/
  enqueued : ∀ row ∈ s.db.jobs.rows, row.Enqueued
  /-- The source of a job is stored. -/
  sourced : ∀ row ∈ s.db.jobs.rows, ∀ source_id, row.source_id = some source_id →
    ∃ source ∈ s.db.sources.rows, source.id = source_id
  /-- The source of a checkpoint is stored. -/
  checkpointed : ∀ c ∈ s.db.checkpoints.rows, ∃ source ∈ s.db.sources.rows, source.id = c.source_id

theorem Indexer.Initial.wellFormed {s : Indexer} (h : s.Initial) : s.WellFormed := by
  obtain ⟨hdb, hexecutions, -⟩ := h
  constructor
  all_goals simp [hdb, hexecutions, Db.empty]

/-- `execute_job` loads the source of its job. -/
theorem execute_job_source_spec {db : Db} {job : JobRow} {observed_finalized_block : Int}
    {source : SourceRow} (h : execute_job_source db job observed_finalized_block = .ok source) :
    source ∈ db.sources.rows ∧ job.source_id = some source.id := by
  unfold execute_job_source at h
  rw [bail_eq_ok] at h
  obtain ⟨-, h⟩ := h
  split at h
  · cases h
  · cases h
  · cases h
  · rename_i source_id _ _ hid _ _
    rw [bail_eq_ok] at h
    obtain ⟨-, h⟩ := h
    split at h
    · cases h
    · rename_i found hfind
      rw [bail_eq_ok, bail_eq_ok] at h
      obtain ⟨-, -, h⟩ := h
      cases h
      obtain ⟨hmem, rfl⟩ := source_by_id_eq_some.1 hfind
      exact ⟨hmem, hid⟩

/-- The source of a later phase is the one just loaded, or that of the phase before. -/
theorem PhaseChange.source {s t : Indexer} {e : Execution} {op : IndexerOp} {phase : Phase}
    (h : PhaseChange s t e op phase) {source : SourceRow} (hsource : phase.source = some source) :
    (source ∈ s.db.sources.rows ∧ e.job.source_id = some source.id) ∨
      e.phase.source = some source := by
  cases h with
  | moved hphase =>
    cases hphase with
    | loaded _ hloaded =>
      cases hsource
      exact Or.inl (execute_job_source_spec hloaded)
    | orphaned hphase | targeted hphase =>
      cases hsource
      exact Or.inr (by rw [hphase]; rfl)
    | untargeted => cases hsource
  | ingested hphase =>
    cases hphase with
    | ingested hphase =>
      cases hsource
      exact Or.inr (by rw [hphase]; rfl)
    | replayed => cases hsource
  | advanced => cases hsource

/-- A phase that counts its job as ingested comes after one, or notes it. -/
theorem PhaseChange.noted {s t : Indexer} {e : Execution} {op : IndexerOp} {phase : Phase}
    (h : PhaseChange s t e op phase) (hphase : phase.ingested = true) :
    e.phase.ingested = true ∨ e.job.id ∈ t.ingested := by
  cases h with
  | moved hstep =>
    cases hstep with
    | loaded => cases hphase
    | orphaned => cases hphase
    | targeted hbefore | untargeted hbefore => exact Or.inl (by rw [hbefore]; rfl)
  | ingested _ hingested =>
    rw [hingested]
    exact Or.inr (List.mem_cons_self ..)
  | advanced hbefore => exact Or.inl (by rw [hbefore]; rfl)

section Invariant

variable {s t : Indexer} {op : IndexerOp}

theorem Effect.stored (h : Effect s t op) (hs : s.WellFormed) (slot : Nat) (e : Execution)
    (he : t.executions slot = some e) : ∃ row ∈ t.db.jobs.rows, row.SameJob e.job := by
  have hstays : ∀ old, s.executions slot = some old → old.job = e.job →
      ∃ row ∈ t.db.jobs.rows, row.SameJob e.job := by
    intro old hold hjob
    obtain ⟨row, hrow, hsame⟩ := hs.stored slot old hold
    obtain ⟨new, hnew, hnewSame⟩ := h.job_stays hrow
    exact ⟨new, hnew, hjob ▸ hnewSame.trans hsame⟩
  rcases h.execution_mem he with hold | ⟨-, hjob, -⟩ | ⟨old, hold, ⟨-, hjob, -⟩ | ⟨hjob, -⟩⟩
  · exact hstays e hold rfl
  · exact ⟨e.job, hjob, .refl _⟩
  · exact ⟨e.job, hjob, .refl _⟩
  · exact hstays old hold hjob.symm

theorem Effect.loaded (h : Effect s t op) (hs : s.WellFormed) (slot : Nat) (e : Execution)
    (source : SourceRow) (he : t.executions slot = some e) (hsource : e.phase.source = some source) :
    e.job.source_id = some source.id := by
  rcases h.execution_mem he with hold | ⟨hphase, -⟩ | ⟨old, hold, ⟨hphase, -⟩ | ⟨hjob, -, hchange⟩⟩
  · exact hs.loaded slot e source hold hsource
  · rw [hphase] at hsource
    cases hsource
  · rw [hphase] at hsource
    cases hsource
  · rw [hjob]
    rcases hchange.source hsource with ⟨-, hid⟩ | hbefore
    · exact hid
    · exact hs.loaded slot old source hold hbefore

theorem Effect.noted (h : Effect s t op) (hs : s.WellFormed) (slot : Nat) (e : Execution)
    (he : t.executions slot = some e) (hphase : e.phase.ingested = true) :
    e.job.id ∈ t.ingested := by
  rcases h.execution_mem he with hold | ⟨hleased, -⟩ | ⟨old, hold, ⟨hrunning, -⟩ | ⟨hjob, -, hchange⟩⟩
  · exact h.ingested_stays (hs.noted slot e hold hphase)
  · rw [hleased] at hphase
    cases hphase
  · rw [hrunning] at hphase
    cases hphase
  · rw [hjob]
    rcases hchange.noted hphase with hbefore | hnoted
    · exact h.ingested_stays (hs.noted slot old hold hbefore)
    · exact hnoted

theorem Effect.ingesting (h : Effect s t op) (hs : s.WellFormed) (slot : Nat) (e : Execution)
    (he : t.executions slot = some e) (hphase : e.phase.to_checkpoint = true) :
    e.job.job_type = .IngestRange := by
  rcases h.execution_mem he with hold | ⟨hleased, -⟩ | ⟨old, hold, ⟨hrunning, -⟩ | ⟨hjob, -, hchange⟩⟩
  · exact hs.ingesting slot e hold hphase
  · rw [hleased] at hphase
    cases hphase
  · rw [hrunning] at hphase
    cases hphase
  · rw [hjob]
    generalize e.phase = phase at hphase hchange
    cases hchange with
    | moved hstep =>
      cases hstep with
      | targeted hbefore => exact hs.ingesting slot old hold (by rw [hbefore]; rfl)
      | loaded | orphaned | untargeted => cases hphase
    | ingested hstep =>
      cases hstep with
      | ingested _ htype => exact htype
      | replayed => cases hphase
    | advanced => cases hphase

theorem Effect.succeeded_ingested (h : Effect s t op) (hs : s.WellFormed) (row : JobRow)
    (hrow : row ∈ t.db.jobs.rows) (hstatus : row.status = .Succeeded) : row.id ∈ t.ingested := by
  rcases h.job_mem hrow with hold | ⟨command, id, source, fb, tb, ma, now, -, rfl⟩ |
    ⟨old, hold, hsame, hexecuted⟩
  · exact h.ingested_stays (hs.succeeded row hold hstatus)
  · cases hstatus
  · obtain ⟨slot, e, he, hphase, hid⟩ := hexecuted hstatus
    rw [hsame.id, hid]
    exact h.ingested_stays (hs.noted slot e he (by rw [hphase]; rfl))

theorem Effect.row_enqueued (h : Effect s t op) (hs : s.WellFormed) (row : JobRow)
    (hrow : row ∈ t.db.jobs.rows) : row.Enqueued := by
  rcases h.job_mem hrow with hold | ⟨command, id, source, fb, tb, ma, now, -, rfl⟩ |
    ⟨old, hold, hsame, -⟩
  · exact hs.enqueued row hold
  · exact ⟨command, id, source.from_source, fb, tb, ma, now, .refl _⟩
  · obtain ⟨command, id, source, fb, tb, ma, now, hjob⟩ := hs.enqueued old hold
    exact ⟨command, id, source, fb, tb, ma, now, hsame.trans hjob⟩

theorem Effect.row_sourced (h : Effect s t op) (hs : s.WellFormed) (row : JobRow)
    (hrow : row ∈ t.db.jobs.rows) (source_id : Uuid) (hid : row.source_id = some source_id) :
    ∃ source ∈ t.db.sources.rows, source.id = source_id := by
  have hstays : ∀ source ∈ s.db.sources.rows, source.id = source_id →
      ∃ source ∈ t.db.sources.rows, source.id = source_id := by
    rintro source hsource rfl
    exact h.source_stays hsource
  rcases h.job_mem hrow with hold | ⟨command, id, source, fb, tb, ma, now, hsource, rfl⟩ |
    ⟨old, hold, hsame, -⟩
  · obtain ⟨source, hsource, hsid⟩ := hs.sourced row hold source_id hid
    exact hstays source hsource hsid
  · exact hstays source hsource (Option.some_inj.1 hid)
  · obtain ⟨source, hsource, hsid⟩ := hs.sourced old hold source_id (hsame.source_id ▸ hid)
    exact hstays source hsource hsid

/-- A checkpoint after a step was there before it, or was written by the
execution that had its target. -/
theorem Effect.checkpoint_mem (h : Effect s t op) {c : CheckpointRow}
    (hc : c ∈ t.db.checkpoints.rows) :
    c ∈ s.db.checkpoints.rows ∨ ∃ slot e source observed_finalized_block target,
      s.executions slot = some e ∧ op.slot = some slot ∧
        e.phase = .Targeted source observed_finalized_block target ∧
        Advanced s.db t.db source.id target c := by
  cases h with
  | idle _ _ hcheckpoints | ensured _ hcheckpoints | enqueued _ _ _ _ hcheckpoints
  | leased _ _ _ _ _ hcheckpoints | running _ _ _ _ _ hcheckpoints
  | succeeded _ _ _ _ _ hcheckpoints | gave_up _ _ _ _ _ _ hcheckpoints
  | dropped _ _ _ _ hcheckpoints | moved _ _ _ _ _ hcheckpoints
  | ingested _ _ _ _ hcheckpoints => exact Or.inl ((hcheckpoints c).1 hc)
  | advanced hslot hphase hadvanced =>
    rcases (hadvanced.mem_iff c).1 hc with rfl | ⟨hc, -⟩
    · exact Or.inr ⟨_, _, _, _, _, hslot, rfl, hphase, hadvanced⟩
    · exact Or.inl hc

/-- The checkpoint of a source stays, and does not go back. -/
theorem Effect.checkpoint_stays (h : Effect s t op) {c : CheckpointRow}
    (hc : c ∈ s.db.checkpoints.rows) : ∃ new ∈ t.db.checkpoints.rows,
      new.source_id = c.source_id ∧ c.processed_block ≤ new.processed_block := by
  cases h with
  | idle _ _ hcheckpoints | ensured _ hcheckpoints | enqueued _ _ _ _ hcheckpoints
  | leased _ _ _ _ _ hcheckpoints | running _ _ _ _ _ hcheckpoints
  | succeeded _ _ _ _ _ hcheckpoints | gave_up _ _ _ _ _ _ hcheckpoints
  | dropped _ _ _ _ hcheckpoints | moved _ _ _ _ _ hcheckpoints
  | ingested _ _ _ _ hcheckpoints => exact ⟨c, (hcheckpoints c).2 hc, rfl, le_refl _⟩
  | @advanced _ _ _ source _ _ row _ _ hadvanced =>
    by_cases hid : c.source_id = source.id
    · exact ⟨row, (hadvanced.mem_iff row).2 (Or.inl rfl), hadvanced.of_source.trans hid.symm,
        hadvanced.keeps c hc hid⟩
    · exact ⟨c, (hadvanced.mem_iff c).2 (Or.inr ⟨hc, hid⟩), rfl, le_refl _⟩

theorem Effect.row_checkpointed (h : Effect s t op) (hs : s.WellFormed) (c : CheckpointRow)
    (hc : c ∈ t.db.checkpoints.rows) : ∃ source ∈ t.db.sources.rows, source.id = c.source_id := by
  rcases h.checkpoint_mem hc with hold | ⟨slot, e, source, observed, target, he, -, hphase, hadvanced⟩
  · obtain ⟨source, hsource, hid⟩ := hs.checkpointed c hold
    rw [← hid]
    exact h.source_stays hsource
  · obtain ⟨row, hrow, hsame⟩ := hs.stored slot e he
    have hloaded := hs.loaded slot e source he (by rw [hphase]; rfl)
    obtain ⟨stored, hstored, hid⟩ := hs.sourced row hrow source.id (hsame.source_id.trans hloaded)
    rw [hadvanced.of_source, ← hid]
    exact h.source_stays hstored

theorem Effect.wellFormed (h : Effect s t op) (hs : s.WellFormed) : t.WellFormed where
  stored := h.stored hs
  loaded := h.loaded hs
  noted := h.noted hs
  ingesting := h.ingesting hs
  succeeded := h.succeeded_ingested hs
  enqueued := h.row_enqueued hs
  sourced := h.row_sourced hs
  checkpointed := h.row_checkpointed hs

end Invariant

/-- The enqueue of a command, as a step of the indexer. -/
theorem exec_enqueue {parseAmount : AmountParser} {s : Indexer} {command : RangeCommand}
    {source : SourceRow} {from_block to_block : Nat} {max_attempts : Int} {now : Timestamp}
    {result : EnqueueResult} {db : Db} (hsource : source ∈ s.db.sources.rows)
    (h : enqueue { s.db with next_uuid := s.db.next_uuid + 1 } now (command.job s.db.next_uuid
      source.from_source from_block to_block max_attempts) = .ok (result, db)) :
    s.exec parseAmount (.enqueue command source.id from_block to_block max_attempts now)
      = some (s.with_db db) := by
  unfold Indexer.exec
  dsimp only
  rw [source_by_id_eq_some.2 ⟨hsource, rfl⟩, Option.bind_some, h]
  rfl

/-- The states the indexer can reach, from the empty database on, by the steps of any number
of workers and of the commands that write sources and jobs. -/
def IndexerReachable (parseAmount : AmountParser) : Indexer → Prop :=
  Reachable (IndexerStep parseAmount) Indexer.Initial

theorem IndexerReachable.wellFormed {parseAmount : AmountParser} {s : Indexer}
    (h : IndexerReachable parseAmount s) : s.WellFormed :=
  Reachable.invariant (fun _ hs => hs.wellFormed) (fun _ _ _ hs hstep => hstep.effect.wellFormed hs) h

/-! ## A small indexer

Runs on fixed inputs are lists of steps, executed one after the other. A step that is not
possible where it is made would leave the state as it is, which is checked for, so a run that
is shown is one the relation has.
-/

/-- An indexer that has done nothing. -/
def Indexer.empty : Indexer := { db := Db.empty, executions := fun _ => none, ingested := [] }

theorem Indexer.empty_initial : Indexer.empty.Initial := ⟨rfl, rfl, rfl⟩

/-- The state after a step, or the same state where the step is not possible. -/
def Indexer.next (parseAmount : AmountParser) (s : Indexer) (op : IndexerOp) : Indexer :=
  (s.exec parseAmount op).getD s

/-- Steps that are all possible, and pass a check, are a run. -/
theorem run_of_possible {parseAmount : AmountParser} {ok : Indexer → IndexerOp → Bool}
    {guard : Indexer → IndexerOp → Prop} (hok : ∀ s op, ok s op = true → guard s op)
    {ops : List IndexerOp} (h : Allowed (Indexer.next parseAmount)
      (fun s op => (s.exec parseAmount op).isSome && ok s op) Indexer.empty ops = true) :
    Reachable (Guarded (IndexerStep parseAmount) guard) Indexer.Initial
      (ops.foldl (Indexer.next parseAmount) Indexer.empty) := by
  refine ⟨Indexer.empty, ops, Indexer.empty_initial, Run.of_allowed (fun s op hop => ?_) h⟩
  rw [Bool.and_eq_true, Option.isSome_iff_exists] at hop
  obtain ⟨⟨u, hu⟩, hop⟩ := hop
  have hnext : s.next parseAmount op = u := by
    unfold Indexer.next
    rw [hu, Option.getD_some]
  exact ⟨⟨u, hu, hnext ▸ Db.SameRows.refl u.db, by rw [hnext], by rw [hnext]⟩, hok s op hop⟩

/-- Where steps lead from an indexer that has done nothing. -/
def Indexer.after (parseAmount : AmountParser) (ops : List IndexerOp) : Indexer :=
  ops.foldl (Indexer.next parseAmount) Indexer.empty

/-- Steps that are all possible lead to a reachable state. -/
theorem reachable_of_possible {parseAmount : AmountParser} {ops : List IndexerOp}
    (h : Allowed (Indexer.next parseAmount)
      (fun s op => (s.exec parseAmount op).isSome && true) Indexer.empty ops = true) :
    IndexerReachable parseAmount (Indexer.after parseAmount ops) := by
  obtain ⟨s, l, hs, hl⟩ : Reachable (Guarded (IndexerStep parseAmount) fun _ _ => True)
      Indexer.Initial (Indexer.after parseAmount ops) :=
    run_of_possible (fun _ _ _ => trivial) h
  exact ⟨s, l, hs, hl.of_guarded⟩

/-- A source that starts at a block. -/
def ensure_token (start_block : Int) : IndexerOp :=
  .ensure_source 1 "token" "0xc0c0c0c0c0c0c0c0c0c0c0c0c0c0c0c0c0c0c0c0" .Erc20 start_block

/-- A worker takes an ingest job up to where `ingest_source_range` returns. -/
def ingest_in (slot : Nat) (worker_id : String) : List IndexerOp :=
  [.lease slot worker_id 60 false none (fun _ => false) 0 0, .mark_running slot 0,
   .load_source slot 200, .ingest_source_range slot]

/-- The rest of an execution that advances the checkpoint. -/
def finish_in (slot : Nat) (processed_block_hash : String) : List IndexerOp :=
  [.next_contiguous_checkpoint_target slot, .advance_checkpoint slot processed_block_hash,
   .mark_succeeded slot 0]

/-- A source from block 100 on, and blocks 100 to 110 ingested. -/
def ingested_to_110 : List IndexerOp :=
  [ensure_token 100, .enqueue .Ingest 0 100 110 5 0] ++ ingest_in 0 "a" ++ finish_in 0 "0xaa"

end EvmIndexer
