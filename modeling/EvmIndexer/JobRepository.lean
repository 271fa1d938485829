/-
`infra/postgres/job_repository.rs`: the job queue.

Each function is one transaction on the database, as in `LedgerRepository`. Time
is an argument: `now` is what `Utc::now()` returned, and `lease_next_candidate`
reads the clock twice. `locked` are the rows other transactions hold a lock on,
which `SKIP LOCKED` passes over.

The four `mark_*` calls take a job id and nothing else. Each writes the job row
and then the row of its current attempt, which is `mark_job` with the columns it
sets; only `mark_interrupted_for_retry` looks at the status first.
-/
import EvmIndexer.Schema

set_option autoImplicit false

namespace EvmIndexer

open Sql

/-! ## Enqueueing

A job is inserted with the columns the schema defaults, unless it clashes with a stored one
on its id, its key, or its source, type and range. In that case the stored job is looked up
by the key, and then by the other three.
-/

/-- `NewJob`. -/
structure NewJob where
  id : Uuid
  job_type : JobType
  source_id : Option Uuid
  chain_id : Int
  from_block : Option Int
  to_block : Option Int
  idempotency_key : String
  max_attempts : Int
  deriving DecidableEq, Repr

/-- `NewJob::new`. -/
def NewJob.new (id : Uuid) (job_type : JobType) (chain_id : Int) (idempotency_key : String) : NewJob :=
  { id, job_type, source_id := none, chain_id, from_block := none, to_block := none,
    idempotency_key, max_attempts := 5 }

/-- `NewJob::with_range`. -/
def NewJob.with_range (job : NewJob) (from_block to_block : Int) : NewJob :=
  { job with from_block := some from_block, to_block := some to_block }

/-- `NewJob::with_source`. -/
def NewJob.with_source (job : NewJob) (source_id : Uuid) : NewJob :=
  { job with source_id := some source_id }

/-- `NewJob::with_max_attempts`. -/
def NewJob.with_max_attempts (job : NewJob) (max_attempts : Int) : NewJob :=
  { job with max_attempts }

/-- `NewJobRow::from`, with the columns the schema defaults. -/
def NewJob.to_row (job : NewJob) (now : Timestamp) : JobRow :=
  { id := job.id
    job_type := job.job_type
    status := .Queued
    source_id := job.source_id
    chain_id := job.chain_id
    from_block := job.from_block
    to_block := job.to_block
    idempotency_key := job.idempotency_key
    leased_by := none
    lease_expires_at := none
    attempts := 0
    max_attempts := job.max_attempts
    error_class := none
    error_message := none
    created_at := now }

/-- `EnqueueResult`. -/
inductive EnqueueResult
  | Inserted (row : JobRow)
  | Existing (row : JobRow)
  deriving DecidableEq, Repr

/-- The row an enqueue returned, inserted or not. -/
def EnqueueResult.row : EnqueueResult → JobRow
  | .Inserted row => row
  | .Existing row => row

/-- `existing_enqueue_conflict`. -/
def existing_enqueue_conflict (db : Db) (new_row : NewJob) : Result JobRow :=
  match db.jobs.rows.find? (fun r => r.idempotency_key == new_row.idempotency_key) with
  | some row => .ok row
  | none =>
    match new_row.source_id, new_row.from_block, new_row.to_block with
    | some source_id, some from_block, some to_block =>
      match db.jobs.rows.find? (fun r => r.source_id == some source_id &&
          r.job_type == new_row.job_type && r.from_block == some from_block &&
          r.to_block == some to_block) with
      | some row => .ok row
      | none => .error "record not found"
    | _, _, _ => .error "record not found"

/-- `enqueue`: `ON CONFLICT DO NOTHING` skips a row that clashes with a stored
one, whatever the stored one's status; a row that fails its checks is an error. -/
def enqueue (db : Db) (now : Timestamp) (job : NewJob) : Result (EnqueueResult × Db) :=
  if Schema.Check (job.to_row now) then
    match db.jobs.insert (job.to_row now) with
    | some jobs => .ok (.Inserted (job.to_row now), { db with jobs })
    | none => (existing_enqueue_conflict db job).map fun row => (.Existing row, db)
  else .error "constraint violation"

/-! ## Leasing

A candidate is queued, or has a lease that has run out. The lease numbers a new attempt, and
where it takes over from an expired one it cancels that attempt first.
-/

/-- Leased or running under a lease that has expired. A null `lease_expires_at`
never compares as expired. -/
def JobRow.lease_expired (now : Timestamp) (row : JobRow) : Bool :=
  (row.status == .Leased || row.status == .Running) &&
    row.lease_expires_at.any fun expires_at => decide (expires_at < now)

/-- The filter of `lock_next_candidate`. -/
def JobRow.is_candidate (now : Timestamp) (job_type : Option JobType) (chain_id : Option Int)
    (row : JobRow) : Bool :=
  job_type.all (· == row.job_type) && chain_id.all (· == row.chain_id) &&
    (row.status == .Queued || row.lease_expired now)

/-- `lock_next_candidate`: the oldest candidate that no other transaction has
locked. -/
def lock_next_candidate (db : Db) (now : Timestamp) (job_type : Option JobType)
    (chain_id : Option Int) (locked : Uuid → Bool) : Option JobRow :=
  ((db.jobs.rows.filter (JobRow.is_candidate now job_type chain_id)).insertionSort
    fun a b => a.created_at ≤ b.created_at).find? fun row => !locked row.id

/-- `JobStatusExt::is_terminal`. -/
def JobStatus.is_terminal : JobStatus → Bool
  | .Succeeded => true
  | .Failed => true
  | .DeadLettered => true
  | .Cancelled => true
  | _ => false

/-- The attempt rows of one attempt of a job. -/
def JobAttemptRow.of_attempt (job_id : Uuid) (attempt_number : Int) (row : JobAttemptRow) : Bool :=
  row.job_id == job_id && row.attempt_number == attempt_number

/-- The columns `update_attempt_status` sets. -/
def JobAttemptRow.record (status : JobStatus) (error_class error_message : Option String)
    (now : Timestamp) (row : JobAttemptRow) : JobAttemptRow :=
  { row with
    status
    finished_at := if status.is_terminal then some now else none
    error_class
    error_message }

/-- `update_attempt_status`. -/
def update_attempt_status (db : Db) (job_id : Uuid) (attempt_number : Int) (status : JobStatus)
    (error_class error_message : Option String) (now : Timestamp) : Result Db := do
  let job_attempts ← db_result "update attempt status" (db.job_attempts.update
    (JobAttemptRow.of_attempt job_id attempt_number)
    (JobAttemptRow.record status error_class error_message now) (fun _ _ => Iff.rfl))
  .ok { db with job_attempts }

/-- The columns a lease sets. The row is locked, so its `attempts` are the
candidate's. -/
def JobRow.lease (worker_id : String) (lease_expires_at : Timestamp) (row : JobRow) : JobRow :=
  { row with
    status := .Leased
    leased_by := some worker_id
    lease_expires_at := some lease_expires_at
    attempts := row.attempts + 1
    error_class := none
    error_message := none }

/-- The attempt row a lease inserts. -/
def JobRow.new_attempt (id : Uuid) (worker_id : String) (leased : JobRow) : JobAttemptRow :=
  { id
    job_id := leased.id
    attempt_number := leased.attempts
    worker_id
    finished_at := none
    status := .Leased
    error_class := none
    error_message := none }

/-- The first write of `lease_next_candidate`: the attempt of a candidate whose
lease has expired is cancelled. -/
def cancel_expired_attempt (db : Db) (candidate : JobRow) (now : Timestamp) : Result Db :=
  if candidate.lease_expired now then
    update_attempt_status db candidate.id candidate.attempts .Cancelled (some "LeaseExpired")
      (some "job lease expired before worker completed") now
  else .ok db

/-- `lease_next_candidate`. The limit on attempts is not looked at. -/
def lease_next_candidate (db : Db) (worker_id : String) (lease_for : Int)
    (job_type : Option JobType) (chain_id : Option Int) (locked : Uuid → Bool)
    (selected_at now : Timestamp) : Result (Option JobRow × Db) :=
  match lock_next_candidate db selected_at job_type chain_id locked with
  | none => .ok (none, db)
  | some candidate => do
    let db ← cancel_expired_attempt db candidate now
    let jobs ← db_result "lease job" (db.jobs.update (fun r => r.id == candidate.id)
      (JobRow.lease worker_id (now + lease_for)) (fun _ _ => Iff.rfl))
    let leased := candidate.lease worker_id (now + lease_for)
    let job_attempts ← db_result "insert job attempt"
      (db.job_attempts.insert (leased.new_attempt db.next_uuid worker_id))
    .ok (some leased, { db with next_uuid := db.next_uuid + 1, jobs, job_attempts })

/-! ## Ending an attempt

The calls that end an attempt write its job by the id alone. Which worker has the lease, and
whether the job has ended meanwhile, is compared by none of them.
-/

/-- A `mark_*` call: set columns of the job row, then those of the attempt the
row is at. -/
def mark_job (db : Db) (job_id : Uuid) (set : JobRow → JobRow) (hset : KeepsKeys set)
    (attempt_status : JobStatus) (error_class error_message : Option String) (now : Timestamp) :
    Result (JobRow × Db) :=
  match db.jobs.rows.find? (fun r => r.id == job_id) with
  | none => .error "record not found"
  | some row => do
    let jobs ← db_result "update job" (db.jobs.update (fun r => r.id == job_id) set hset)
    let row := set row
    let db ← update_attempt_status { db with jobs } row.id row.attempts attempt_status error_class
      error_message now
    .ok (row, db)

/-- The columns `mark_running` sets: the status, and not the lease. -/
def JobRow.run (row : JobRow) : JobRow := { row with status := .Running }

/-- The columns `mark_succeeded` sets. -/
def JobRow.succeed (row : JobRow) : JobRow :=
  { row with status := .Succeeded, leased_by := none, lease_expires_at := none }

/-- The columns `mark_failed` and `mark_interrupted_for_retry` set. -/
def JobRow.give_up (status : JobStatus) (error_class error_message : String) (row : JobRow) : JobRow :=
  { row with
    status
    leased_by := none
    lease_expires_at := none
    error_class := some error_class
    error_message := some error_message }

/-- `mark_running`. -/
def mark_running (db : Db) (job_id : Uuid) (now : Timestamp) : Result (JobRow × Db) :=
  mark_job db job_id JobRow.run (fun _ _ => Iff.rfl) .Running none none now

/-- `mark_succeeded`. -/
def mark_succeeded (db : Db) (job_id : Uuid) (now : Timestamp) : Result (JobRow × Db) :=
  mark_job db job_id JobRow.succeed (fun _ _ => Iff.rfl) .Succeeded none none now

/-- The status `mark_failed` leaves: dead-lettered once the attempts are used up. -/
def JobRow.failed_status (row : JobRow) : JobStatus :=
  if row.max_attempts ≤ row.attempts then .DeadLettered else .Queued

/-- `mark_failed`. -/
def mark_failed (db : Db) (job_id : Uuid) (error_class error_message : String) (now : Timestamp) :
    Result (JobRow × Db) :=
  match db.jobs.rows.find? (fun r => r.id == job_id) with
  | none => .error "record not found"
  | some row =>
    let next_status := row.failed_status
    let attempt_status := if next_status = .DeadLettered then .DeadLettered else .Failed
    mark_job db row.id (JobRow.give_up next_status error_class error_message) (fun _ _ => Iff.rfl)
      attempt_status (some error_class) (some error_message) now

/-- `mark_interrupted_for_retry`: the one call that leaves a job alone unless it
is leased or running. -/
def mark_interrupted_for_retry (db : Db) (job_id : Uuid) (error_message : String)
    (now : Timestamp) : Result (JobRow × Db) :=
  match db.jobs.rows.find? (fun r => r.id == job_id) with
  | none => .error "record not found"
  | some row =>
    if row.status = .Leased ∨ row.status = .Running then
      mark_job db row.id (JobRow.give_up .Queued "WorkerInterrupted" error_message)
        (fun _ _ => Iff.rfl) .Cancelled (some "WorkerInterrupted") (some error_message) now
    else .ok (row, db)

end EvmIndexer
