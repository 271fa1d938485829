/-
`worker/mod.rs` and the commands of `main.rs`, as one system.

An `Indexer` is the database and whatever workers are executing. A worker runs
`run_once`: it leases a job, marks it running, executes it in several
transactions and finishes it. An `Execution` is such a run between two of its
transactions, with the rows it has read so far, so that a step of one worker
never sees what another has read. The steps of any number of workers and of the
commands interleave freely, and a run of the system is any such interleaving.

What the chain answers is an argument of the step that asks: the observed
finalized block, the logs of a chunk and a block hash. So is the time, which the
queue compares with leases; nothing here depends on its order.
-/
import EvmIndexer.JobRepository
import EvmIndexer.LedgerRepository
import EvmIndexer.Lib.Runs
import Mathlib.Logic.Function.Basic

set_option autoImplicit false

namespace EvmIndexer

open Sql Transition

/-! ## Commands

Three commands plan a range of blocks and enqueue one job for each chunk of it. They differ
in the type of the job and in the first part of its idempotency key, which also names the
source and the two blocks: the same chunk enqueued twice by one command is one job.
-/

/-- The commands that enqueue jobs over a range of blocks: `enqueue-contract`,
`backfill-contract` and `enqueue-replay`. -/
inductive RangeCommand
  | Ingest
  | Backfill
  | Replay
  deriving DecidableEq, Repr

/-- The type of the jobs a command enqueues. -/
def RangeCommand.job_type : RangeCommand → JobType
  | .Ingest => .IngestRange
  | .Backfill => .IngestRange
  | .Replay => .ReplayRange

/-- The first part of the idempotency key of a command. -/
def RangeCommand.key : RangeCommand → String
  | .Ingest => "ingest"
  | .Backfill => "backfill"
  | .Replay => "replay"

/-- `format!("{command}:{source_id}:{from}:{to}")`. -/
def RangeCommand.idempotency_key (command : RangeCommand) (source_id : Uuid)
    (from_block to_block : Nat) : String :=
  command.key ++ ":" ++ toString source_id ++ ":" ++ toString from_block ++ ":" ++ toString to_block

/-- The job a command enqueues for a range of a source. -/
def RangeCommand.job (command : RangeCommand) (id : Uuid) (source : SourceRef)
    (from_block to_block : Nat) (max_attempts : Int) : NewJob :=
  (((NewJob.new id command.job_type source.chain_id
    (command.idempotency_key source.id from_block to_block)).with_source source.id).with_range
      (as_i64 from_block) (as_i64 to_block)).with_max_attempts max_attempts

/-! ## Executions

`run_once` is not one transaction, and a crash or another worker can come between any two.
The phases are the points between them. What an execution has read from the database it keeps
in its phase and does not read again, as the Rust keeps it in local variables, so a later
phase may act on a row that has changed since.
-/

/-- How far an execution has come. From `Loaded` on it holds the source row and
the finalized block that `execute_job` has read. -/
inductive Phase
  | Leased
  | Running
  | Loaded (source : SourceRow) (observed_finalized_block : Int)
  | Orphaned (source : SourceRow) (observed_finalized_block : Int)
  | Ingested (source : SourceRow) (observed_finalized_block : Int)
  | Targeted (source : SourceRow) (observed_finalized_block target : Int)
  | Executed
  deriving DecidableEq, Repr

/-- A `run_once` under way: who runs it, the job row it holds, and how far it is. -/
structure Execution where
  worker_id : String
  job : JobRow
  phase : Phase
  deriving DecidableEq, Repr

/-- The checks of `execute_job` on the job, its source and the finalized block,
before anything is written. -/
def execute_job_source (db : Db) (job : JobRow) (observed_finalized_block : Int) :
    Result SourceRow :=
  if job.job_type ≠ .IngestRange ∧ job.job_type ≠ .ReplayRange then
    .error "unsupported worker job type"
  else
    match job.source_id, job.from_block, job.to_block with
    | none, _, _ => .error "range job is missing source_id"
    | _, none, _ => .error "range job is missing from_block"
    | _, _, none => .error "range job is missing to_block"
    | some source_id, some from_block, some to_block =>
      if from_block < 0 ∨ to_block < 0 then .error "range job range cannot be negative"
      else
        match source_by_id db source_id with
        | none => .error "job source not found"
        | some source =>
          if source.chain_id ≠ job.chain_id then
            .error s!"job chain_id {job.chain_id} does not match source chain_id {source.chain_id}"
          else if observed_finalized_block < to_block then
            .error s!"job target block {to_block} is newer than observed finalized block {observed_finalized_block}"
          else .ok source

/-- `execute_job` has returned neither a summary nor an error yet. -/
def Phase.executing : Phase → Bool
  | .Leased => false
  | .Executed => false
  | _ => true

/-- `execute_job` is waiting for an answer, so a shutdown can interrupt it. -/
def Phase.awaiting : Phase → Bool
  | .Running => true
  | .Loaded .. => true
  | .Orphaned .. => true
  | .Targeted .. => true
  | _ => false

/-! ## The system

A slot is a place for one execution, and a worker that is not executing has none. An
operation names the slot it moves and carries the answers it gets from outside. A slot can be
emptied at any point, which is what a crash is: its job keeps the lease and is reclaimed when
that runs out.
-/

/-- The database, the execution in each slot, and the jobs whose
`ingest_source_range` has returned `Ok` in some execution. The code keeps no such
list: it is what statements about coverage are measured against. -/
structure Indexer where
  db : Db
  executions : Nat → Option Execution
  ingested : List Uuid

/-- Nothing was ever done. -/
def Indexer.Initial (s : Indexer) : Prop :=
  s.db = Db.empty ∧ s.executions = (fun _ => none) ∧ s.ingested = []

/-- A step: a command, or the next transaction of the execution in a slot. -/
inductive IndexerOp
  | ensure_source (chain_id : Int) (name contract_address : String) (standard : TokenStandard)
      (start_block : Int)
  | enqueue (command : RangeCommand) (source_id : Uuid) (from_block to_block : Nat)
      (max_attempts : Int) (now : Timestamp)
  | lease (slot : Nat) (worker_id : String) (lease_for : Int) (replay : Bool)
      (chain_id : Option Int) (locked : Uuid → Bool) (selected_at now : Timestamp)
  | mark_running (slot : Nat) (now : Timestamp)
  | load_source (slot : Nat) (observed_finalized_block : Int)
  | orphan_source_range (slot : Nat)
  | persist_decoded_logs (slot : Nat) (logs : List (RpcLog × DecodedLog))
  | ingest_source_range (slot : Nat)
  | next_contiguous_checkpoint_target (slot : Nat)
  | advance_checkpoint (slot : Nat) (processed_block_hash : String)
  | mark_succeeded (slot : Nat) (now : Timestamp)
  | mark_failed (slot : Nat) (message : String) (now : Timestamp)
  | mark_interrupted_for_retry (slot : Nat) (now : Timestamp)
  | crash (slot : Nat)

/-- The state with another database. -/
def Indexer.with_db (s : Indexer) (db : Db) : Indexer := { s with db }

/-- The state with another content of a slot. -/
def Indexer.put (s : Indexer) (slot : Nat) (e : Option Execution) : Indexer :=
  { s with executions := Function.update s.executions slot e }

/-- `ingest_source_range` has returned `Ok` for the job. -/
def Indexer.note_ingested (s : Indexer) (job_id : Uuid) : Indexer :=
  { s with ingested := job_id :: s.ingested }

section Step

variable (parseAmount : AmountParser)

/-- The turn of `run_once` an operation makes in a slot, where the execution
there is at that point. -/
def Indexer.advance_execution (s : Indexer) (slot : Nat) (e : Execution) :
    IndexerOp → Option Indexer
  | .mark_running _ now =>
    match e.phase with
    | .Leased => (mark_running s.db e.job.id now).toOption.map fun (running, db) =>
        (s.with_db db).put slot (some { e with job := running, phase := .Running })
    | _ => none
  | .load_source _ observed_finalized_block =>
    match e.phase with
    | .Running => (execute_job_source s.db e.job observed_finalized_block).toOption.map fun source =>
        s.put slot (some { e with phase := .Loaded source observed_finalized_block })
    | _ => none
  | .orphan_source_range _ =>
    match e.phase, e.job.job_type, e.job.range with
    | .Loaded source observed_finalized_block, .ReplayRange, some («from», «to») =>
      (orphan_source_range s.db source «from» «to»).toOption.map fun (_, db) =>
        (s.with_db db).put slot (some { e with phase := .Orphaned source observed_finalized_block })
    | _, _, _ => none
  | .persist_decoded_logs _ logs =>
    match e.phase, e.job.job_type with
    | .Loaded source _, .IngestRange =>
      (persist_decoded_logs_with_options parseAmount s.db source.from_source logs
        { restore_orphaned_conflicts := false }).toOption.map fun (_, db) => s.with_db db
    | .Orphaned source _, .ReplayRange =>
      (persist_decoded_logs_with_options parseAmount s.db source.from_source logs
        { restore_orphaned_conflicts := true }).toOption.map fun (_, db) => s.with_db db
    | _, _ => none
  | .ingest_source_range _ =>
    match e.phase, e.job.job_type with
    | .Loaded source observed_finalized_block, .IngestRange =>
      some ((s.note_ingested e.job.id).put slot
        (some { e with phase := .Ingested source observed_finalized_block }))
    | .Orphaned _ _, .ReplayRange =>
      some ((s.note_ingested e.job.id).put slot (some { e with phase := .Executed }))
    | _, _ => none
  | .next_contiguous_checkpoint_target _ =>
    match e.phase with
    | .Ingested source observed_finalized_block =>
      (next_contiguous_checkpoint_target s.db source e.job.range).toOption.map fun target =>
        s.put slot (some { e with phase :=
          match target with
          | some target =>
            if observed_finalized_block < target then .Executed
            else .Targeted source observed_finalized_block target
          | none => .Executed })
    | _ => none
  | .advance_checkpoint _ processed_block_hash =>
    match e.phase with
    | .Targeted source observed_finalized_block target =>
      (advance_checkpoint s.db source.id target processed_block_hash
        observed_finalized_block).toOption.map fun (_, db) =>
          (s.with_db db).put slot (some { e with phase := .Executed })
    | _ => none
  | .mark_succeeded _ now =>
    match e.phase with
    | .Executed => (mark_succeeded s.db e.job.id now).toOption.map fun (_, db) =>
        (s.with_db db).put slot none
    | _ => none
  | .mark_failed _ message now =>
    if e.phase.executing then
      (mark_failed s.db e.job.id "IngestJobError" message now).toOption.map fun (_, db) =>
        (s.with_db db).put slot none
    else none
  | .mark_interrupted_for_retry _ now =>
    if e.phase.awaiting then
      (mark_interrupted_for_retry s.db e.job.id
        "worker shutdown requested before job completed" now).toOption.map fun (_, db) =>
          (s.with_db db).put slot none
    else none
  | .crash _ => some (s.put slot none)
  | _ => none

/-- The slot whose execution an operation is a turn of. -/
def IndexerOp.slot : IndexerOp → Option Nat
  | .mark_running slot _ => some slot
  | .load_source slot _ => some slot
  | .orphan_source_range slot => some slot
  | .persist_decoded_logs slot _ => some slot
  | .ingest_source_range slot => some slot
  | .next_contiguous_checkpoint_target slot => some slot
  | .advance_checkpoint slot _ => some slot
  | .mark_succeeded slot _ => some slot
  | .mark_failed slot _ _ => some slot
  | .mark_interrupted_for_retry slot _ => some slot
  | .crash slot => some slot
  | _ => none

/-- What a step does, in the order it leaves the rows; `none` where the operation
is not possible, or fails and leaves everything as it is. -/
def Indexer.exec (s : Indexer) (op : IndexerOp) : Option Indexer :=
  match op with
  | .ensure_source chain_id name contract_address standard start_block =>
    (ensure_source s.db chain_id name contract_address standard start_block).toOption.map
      fun (_, db) => s.with_db db
  | .enqueue command source_id from_block to_block max_attempts now =>
    (source_by_id s.db source_id).bind fun source =>
      (enqueue { s.db with next_uuid := s.db.next_uuid + 1 } now (command.job s.db.next_uuid
        source.from_source from_block to_block max_attempts)).toOption.map fun (_, db) => s.with_db db
  | .lease slot worker_id lease_for replay chain_id locked selected_at now =>
    match s.executions slot with
    | some _ => none
    | none =>
      (lease_next_candidate s.db worker_id lease_for
        (some (if replay then .ReplayRange else .IngestRange)) chain_id locked selected_at
        now).toOption.map fun
        | (some job, db) => (s.with_db db).put slot (some { worker_id, job, phase := .Leased })
        | (none, db) => s.with_db db
  | op => op.slot.bind fun slot =>
    (s.executions slot).bind fun e => s.advance_execution parseAmount slot e op

/-- A step of the system; the rows may be in any physical order after it. -/
def IndexerStep (s : Indexer) (op : IndexerOp) (t : Indexer) : Prop :=
  ∃ u, s.exec parseAmount op = some u ∧
    u.db.SameRows t.db ∧ t.executions = u.executions ∧ t.ingested = u.ingested

end Step

end EvmIndexer
