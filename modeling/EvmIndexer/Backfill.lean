/-
`application/backfill.rs`: planning the jobs of a backfill.

A plan skips what lies behind the checkpoint, splits the rest into chunks and
enqueues an ingest job for each; a job that is there already is counted and left
as it is. The trait the planner writes through is implemented in
`infra/postgres/repositories.rs`, whose `enqueue_range_job` is here too.
-/
import EvmIndexer.Worker

set_option autoImplicit false

namespace EvmIndexer

open Sql

/-- `u64::MAX`. -/
def u64_max : Nat := 2 ^ 64 - 1

/-- `u64::saturating_add`. -/
def u64_saturating_add (a b : Nat) : Nat := min (a + b) u64_max

/-- `BackfillChunk`. -/
structure BackfillChunk where
  «from» : Nat
  «to» : Nat
  deriving DecidableEq, Repr

/-- `BackfillPlan`. -/
structure BackfillPlan where
  source_id : Uuid
  requested_from : Nat
  requested_to : Nat
  planned_from : Option Nat
  planned_to : Option Nat
  range_size : Nat
  ranges : List BackfillChunk
  inserted_jobs : Nat
  existing_jobs : Nat
  deriving DecidableEq, Repr

/-- `NewRangeJob`. -/
structure NewRangeJob where
  job_type : JobType
  source_id : Uuid
  chain_id : Int
  from_block : Int
  to_block : Int
  idempotency_key : String
  max_attempts : Int
  deriving DecidableEq, Repr

/-- `EnqueueRangeJobResult`. -/
inductive EnqueueRangeJobResult
  | Inserted
  | Existing
  deriving DecidableEq, Repr

/-- The job `enqueue_range_job` enqueues. -/
def NewRangeJob.to_job (job : NewRangeJob) (id : Uuid) : NewJob :=
  (((NewJob.new id job.job_type job.chain_id job.idempotency_key).with_source
    job.source_id).with_range job.from_block job.to_block).with_max_attempts job.max_attempts

/-- `enqueue_range_job`. -/
def enqueue_range_job (db : Db) (now : Timestamp) (job : NewRangeJob) :
    Result (EnqueueRangeJobResult × Db) := do
  let (result, db) ← enqueue { db with next_uuid := db.next_uuid + 1 } now (job.to_job db.next_uuid)
  match result with
  | .Inserted _ => .ok (.Inserted, db)
  | .Existing _ => .ok (.Existing, db)

/-- `ensure_block_fits_i64`. -/
def ensure_block_fits_i64 (block : Nat) : Result Unit :=
  if 2 ^ 63 ≤ block then .error s!"block {block} is too large for postgres bigint storage"
  else .ok ()

/-- `block_to_i64`. -/
def block_to_i64 (block : Nat) : Result Int := do
  ensure_block_fits_i64 block
  .ok (as_i64 block)

theorem block_to_i64_of_lt {block : Nat} (h : block < 2 ^ 63) :
    block_to_i64 block = .ok (block : Int) := by
  unfold block_to_i64 ensure_block_fits_i64
  rw [if_neg (not_le.2 h), as_i64_of_lt h]
  rfl

theorem block_to_i64_eq_ok {block : Nat} {b : Int} (h : block_to_i64 block = .ok b) :
    b = as_i64 block ∧ as_i64 block = block := by
  unfold block_to_i64 ensure_block_fits_i64 at h
  rw [bind_eq_ok] at h
  obtain ⟨_, hfits, hb⟩ := h
  rw [bail_eq_ok] at hfits
  exact ⟨(Except.ok.inj hb).symm, as_i64_of_lt (not_le.1 hfits.1)⟩

/-- The last block of the chunk that begins at `range_from`. -/
def chunk_end (range_from «to» range_size : Nat) : Nat :=
  min (u64_saturating_add range_from (range_size - 1)) «to»

theorem le_chunk_end {range_from «to» range_size : Nat} (h : range_from ≤ «to»)
    (hend : chunk_end range_from «to» range_size ≠ u64_max) :
    range_from ≤ chunk_end range_from «to» range_size := by
  unfold chunk_end u64_saturating_add u64_max at *
  omega

/-- The loop of `split_inclusive_range`, from `range_from` on. -/
def split_from (range_from «to» range_size : Nat) : List BackfillChunk :=
  if hmore : range_from ≤ «to» then
    { «from» := range_from, «to» := chunk_end range_from «to» range_size } ::
      if hend : chunk_end range_from «to» range_size = u64_max then []
      else split_from (chunk_end range_from «to» range_size + 1) «to» range_size
  else []
termination_by «to» + 1 - range_from
decreasing_by
  have hle := le_chunk_end hmore hend
  omega

/-- `split_inclusive_range`. -/
def split_inclusive_range («from» «to» range_size : Nat) : Result (List BackfillChunk) :=
  if «to» < «from» then
    .error ("from-block " ++ toString «from» ++ " cannot be greater than to-block " ++ toString «to»)
  else if range_size = 0 then .error "range-size must be greater than zero"
  else .ok (split_from «from» «to» range_size)

/-- Where a plan begins: the requested block, or the one after the checkpoint. -/
def planned_from (db : Db) (source_id : Uuid) («from» : Nat) : Nat :=
  match checkpoint_for_source db source_id with
  | some checkpoint =>
    if 0 ≤ checkpoint.processed_block then
      max «from» (u64_saturating_add checkpoint.processed_block.toNat 1)
    else «from»
  | none => «from»

/-- The chunks of a plan: none where everything is behind the checkpoint. -/
def planned_ranges («from» «to» range_size : Nat) : Result (List BackfillChunk) :=
  if «to» < «from» then .ok [] else split_inclusive_range «from» «to» range_size

/-- The turn of the loop of `plan_backfill_jobs`, on the two counts and the
database. `now` is the time each chunk is enqueued at. -/
def enqueue_chunk (now : BackfillChunk → Timestamp) (source : SourceRef) (max_attempts : Int)
    (progress : Nat × Nat × Db) (range : BackfillChunk) : Result (Nat × Nat × Db) := do
  let (inserted_jobs, existing_jobs, db) := progress
  let from_block ← block_to_i64 range.«from»
  let to_block ← block_to_i64 range.«to»
  let (result, db) ← context "enqueue backfill ingest job" (enqueue_range_job db (now range)
    { job_type := .IngestRange
      source_id := source.id
      chain_id := source.chain_id
      from_block
      to_block
      idempotency_key := RangeCommand.Backfill.idempotency_key source.id range.«from» range.«to»
      max_attempts })
  match result with
  | .Inserted => .ok (inserted_jobs + 1, existing_jobs, db)
  | .Existing => .ok (inserted_jobs, existing_jobs + 1, db)

/-- `plan_backfill_jobs`. -/
def plan_backfill_jobs (db : Db) (now : BackfillChunk → Timestamp) (source : SourceRef)
    («from» «to» range_size : Nat) (max_attempts : Int) : Result (BackfillPlan × Db) :=
  if max_attempts ≤ 0 then .error "max-attempts must be greater than zero"
  else if range_size = 0 then .error "range-size must be greater than zero"
  else if «to» < «from» then
    .error ("from-block " ++ toString «from» ++ " cannot be greater than to-block " ++ toString «to»)
  else do
    ensure_block_fits_i64 «from»
    ensure_block_fits_i64 «to»
    let ranges ← planned_ranges (planned_from db source.id «from») «to» range_size
    let (inserted_jobs, existing_jobs, db) ← ranges.foldlM (enqueue_chunk now source max_attempts)
      (0, 0, db)
    .ok
      ({ source_id := source.id
         requested_from := «from»
         requested_to := «to»
         planned_from := ranges.head?.map (·.«from»)
         planned_to := ranges.getLast?.map (·.«to»)
         range_size
         ranges
         inserted_jobs
         existing_jobs },
       db)

end EvmIndexer
