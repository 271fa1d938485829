/-
What a worker does with a job it holds, and the scan command.

`execute_job` is the whole of one attempt, from the job row to the summary or the
error; `run_job` adds what `run_once_until_shutdown` then does to the job. Between two
transactions of an attempt the worker waits for the chain, and other workers may
commit; here one attempt is looked at alone, and the system of all of them is that of
`Worker`. The checks before the first transaction are the same there
(`execute_job_source_eq`).
-/
import EvmIndexer.Ingest

set_option autoImplicit false

namespace EvmIndexer

open Sql Program

/-! ## The checks of a job

An attempt first reads its job: the type must be one of the two, and source and range must be
there, the blocks not negative. Then it looks the source up, whose chain must be that of the
job. The finalized block is compared last, since it takes a request to know it.
-/

/-- The source and the range of a job, before the chain is asked. -/
def job_source (db : Db) (job : JobRow) : Result (SourceRow × Int × Int) :=
  if job.job_type ≠ .IngestRange ∧ job.job_type ≠ .ReplayRange then
    .error "unsupported worker job type"
  else
    match job.source_id, job.from_block, job.to_block with
    | none, _, _ => .error "range job is missing source_id"
    | _, none, _ => .error "range job is missing from_block"
    | _, _, none => .error "range job is missing to_block"
    | some source_id, some from_block, some to_block =>
      if from_block < 0 ∨ to_block < 0 then .error "range job range cannot be negative"
      else
        match source_by_id db source_id with
        | none => .error "job source not found"
        | some source =>
          if source.chain_id ≠ job.chain_id then
            .error s!"job chain_id {job.chain_id} does not match source chain_id {source.chain_id}"
          else .ok (source, from_block, to_block)

/-- The range of a job ends at or below the finalized block. -/
def check_finalized (to_block observed_finalized_block : Int) : Result Unit :=
  if observed_finalized_block < to_block then
    .error s!"job target block {to_block} is newer than observed finalized block {observed_finalized_block}"
  else .ok ()

/-- The checks of an attempt in the system of all workers are these. -/
theorem execute_job_source_eq (db : Db) (job : JobRow) (observed_finalized_block : Int) :
    execute_job_source db job observed_finalized_block = (do
      let (source, _, to_block) ← job_source db job
      check_finalized to_block observed_finalized_block
      .ok source) := by
  unfold execute_job_source job_source
  -- the checks run in the same order, and the first that fails ends both
  by_cases htype : job.job_type ≠ .IngestRange ∧ job.job_type ≠ .ReplayRange
  · rw [if_pos htype, if_pos htype]
    rfl
  rw [if_neg htype, if_neg htype]
  cases job.source_id with
  | none => rfl
  | some source_id =>
  cases job.from_block with
  | none => rfl
  | some from_block =>
  cases job.to_block with
  | none => rfl
  | some to_block =>
  by_cases hnegative : from_block < 0 ∨ to_block < 0
  · simp only [if_pos hnegative]
    rfl
  simp only [if_neg hnegative]
  cases source_by_id db source_id with
  | none => rfl
  | some source =>
  by_cases hchain : source.chain_id ≠ job.chain_id
  · simp only [if_pos hchain]
    rfl
  simp only [if_neg hchain]
  unfold check_finalized
  by_cases hfinalized : observed_finalized_block < to_block
  · simp only [bind, Except.bind, if_pos hfinalized]
  · simp only [bind, Except.bind, if_neg hfinalized]

/-- What the checks of a job have found: the stored source the job names, of the chain of the
job, and a range whose ends are not negative. That they are in order is checked by the table.
-/
theorem job_source_spec {db : Db} {job : JobRow} {source : SourceRow} {from_block to_block : Int}
    (h : job_source db job = .ok (source, from_block, to_block)) :
    source ∈ db.sources.rows ∧ job.source_id = some source.id ∧
      job.from_block = some from_block ∧ job.to_block = some to_block ∧
      source.chain_id = job.chain_id ∧ 0 ≤ from_block ∧ 0 ≤ to_block := by
  unfold job_source at h
  rw [bail_eq_ok] at h
  obtain ⟨-, h⟩ := h
  split at h
  · cases h
  · cases h
  · cases h
  rename_i hsource_id hfrom hto
  rw [bail_eq_ok] at h
  obtain ⟨hrange, h⟩ := h
  split at h
  · cases h
  rename_i found hfound
  rw [bail_eq_ok, not_not] at h
  obtain ⟨hchain, h⟩ := h
  cases h
  unfold source_by_id at hfound
  have hmatch := List.find?_some hfound
  have hid := beq_iff_eq.1 hmatch
  exact ⟨List.mem_of_find?_eq_some hfound, hid ▸ hsource_id, hfrom, hto, hchain, by omega, by omega⟩

/-- `observed_finalized_block`. -/
def observed_finalized_block (rpc : ChainRpc) (chains : List ChainRow) (chain_id : Int) :
    Result Int :=
  match chain_by_chain_id chains chain_id with
  | none => .error "chain configuration not found"
  | some chain =>
    if chain.finality_confirmations < 0 then
      .error "chain finality_confirmations cannot be negative"
    else do
      let head ← context "fetch head block" rpc.block_number
      let finalized := head - chain.finality_confirmations.toNat
      if 2 ^ 63 ≤ finalized then .error "finalized block exceeds postgres bigint storage"
      else .ok (finalized : Int)

/-! ## One attempt

An attempt is a program over the database that can stop with an error at any request or
statement, and what it has committed until then stays. A replay orphans before it ingests; an
ingest moves the checkpoint after it. The two share the rest.
-/

/-- What of an `IngestWorker` an attempt reads. -/
structure IngestWorker where
  chunk_size : Nat
  include_transaction_receipts : Bool
  deriving DecidableEq, Repr

/-- `WorkerOutcome`, of a worker that holds a job. -/
inductive WorkerOutcome
  | Processed (job_id : Uuid) (summary : ScanSummary)
  | Failed (job_id : Uuid) (status : JobStatus) (error : String)
  | Interrupted (job_id : Uuid) (status : JobStatus)
  deriving DecidableEq, Repr

section Execute

variable (keccak256 : String → String) (parse_bytes : List Char → Option Nat)
  (parseAmount : AmountParser) (rpc : ChainRpc)

/-- The end of an ingest attempt: the checkpoint, where there is a target for it. -/
def advance_source_checkpoint (source : SourceRow) (range : Int × Int)
    (observed_finalized_block : Int) : Job Unit := do
  let service ← get
  match ← ask (context "compute checkpoint target"
      (next_contiguous_checkpoint_target service.db source (some range))) with
  | none => return ()
  | some target =>
    if observed_finalized_block < target then return ()
    else
      let processed_block_hash ← ask (context
        ("fetch block hash for checkpoint at block " ++ toString target)
        (rpc.block_hash target.toNat))
      let _ ← ledger fun db => context "advance source checkpoint"
        (advance_checkpoint db source.id target processed_block_hash observed_finalized_block)
      return ()

/-- `execute_job`, once the source and the finalized block are read. -/
def execute_checked_job (worker : IngestWorker) (job : JobRow) (source : SourceRow)
    («from» «to» observed : Int) : Job ScanSummary := do
  ask (check_finalized «to» observed)
  ask (validate_contract_code_at_boundaries rpc source.contract_address
    ("chain " ++ toString source.chain_id) («from»).toNat («to»).toNat)
  if job.job_type = .ReplayRange then
    let _ ← ledger fun db => context "orphan replay range" (orphan_source_range db source «from» «to»)
    ingest_source_range keccak256 parse_bytes parseAmount rpc source.from_source («from»).toNat
      («to»).toNat worker.chunk_size
      { include_transaction_receipts := worker.include_transaction_receipts
        restore_orphaned_conflicts := true
        prefetched_logs := none }
  else
    let summary ← ingest_source_range keccak256 parse_bytes parseAmount rpc source.from_source
      («from»).toNat («to»).toNat worker.chunk_size
      { include_transaction_receipts := worker.include_transaction_receipts
        restore_orphaned_conflicts := false
        prefetched_logs := none }
    advance_source_checkpoint rpc source («from», «to») observed
    return summary

/-- `execute_job`. -/
def execute_job (worker : IngestWorker) (job : JobRow) : Job ScanSummary := do
  let service ← get
  let (source, «from», «to») ← ask (job_source service.db job)
  let observed ← ask (observed_finalized_block rpc service.chains source.chain_id)
  execute_checked_job keccak256 parse_bytes parseAmount rpc worker job source «from» «to» observed

/-- An attempt of `run_once_until_shutdown` at a job it has marked running, and what it
then does to the job. With `shutdown`, the request at which the attempt stopped was
cancelled and had not failed. -/
def run_job (worker : IngestWorker) (running : JobRow) (shutdown : Bool) (now : Timestamp) :
    Job WorkerOutcome := fun service =>
  match execute_job keccak256 parse_bytes parseAmount rpc worker running service with
  | .ok summary service =>
    (do
      let succeeded ← ledger fun db => context "mark job succeeded" (mark_succeeded db running.id now)
      return .Processed succeeded.id summary : Job WorkerOutcome) service
  | .error message service =>
    (if shutdown then do
      let interrupted ← ledger fun db => context "release interrupted job"
        (mark_interrupted_for_retry db running.id "worker shutdown requested before job completed"
          now)
      return .Interrupted interrupted.id interrupted.status
    else do
      let failed ← ledger fun db => context "mark job failed"
        (mark_failed db running.id "IngestJobError" message now)
      return .Failed failed.id failed.status message : Job WorkerOutcome) service

/-! ## The scan command

A scan is not a job: it resolves its range and its standard, ensures chain and source and
ingests, in one process and with no row in the queue.
-/

/-- `ScanContractArgs`, without the two URLs. -/
structure ScanContractArgs where
  chain_name : String
  chain_id : Int
  finality_confirmations : Int
  contract : String
  standard : String
  from_block : Option String
  to_block : String
  lookback : Nat
  chunk_size : Nat
  include_transaction_receipts : Bool
  deriving DecidableEq, Repr

/-- `resolve_requested_standard_for_scan`. -/
def resolve_requested_standard_for_scan (contract : String) (requested : TokenStandard)
    («from» «to» chunk_size : Nat) : Result (TokenStandard × Option PrefetchedLogChunk) :=
  if ¬ requested.is_auto then .ok (requested, none)
  else do
    let detection ← context "auto-detect token standard"
      (detect_token_standard_with_prefetched_logs keccak256 rpc contract «from» «to» chunk_size)
    .ok (detection.standard, some detection.prefetched_logs)

/-- The arguments of a scan, checked: the contract and the standard asked for. -/
def scan_contract_args (args : ScanContractArgs) : Result (String × TokenStandard) := do
  let requested_standard ← context ("parse token standard " ++ args.standard)
    (parse_token_standard args.standard)
  let contract ← normalize_address args.contract
  if args.chain_id ≤ 0 then .error "chain-id must be greater than zero"
  else .ok (contract, requested_standard)

/-- `scan_contract`. -/
def scan_contract (args : ScanContractArgs) : Job ScanSummary := do
  let (contract, requested_standard) ← ask (scan_contract_args args)
  let range ← ask (resolve_finalized_range rpc args.from_block args.to_block args.lookback
    args.finality_confirmations)
  ask (validate_contract_code_at_boundaries rpc contract
    (args.chain_name ++ " (" ++ toString args.chain_id ++ ")") range.«from» range.«to»)
  let (standard, prefetched_logs) ← ask (resolve_requested_standard_for_scan keccak256 rpc contract
    requested_standard range.«from» range.«to» args.chunk_size)
  let _ ← transaction fun service => context "ensure chain"
    (ensure_chain service args.chain_name args.chain_id args.finality_confirmations)
  let source ← ledger fun db => context "ensure source" (ensure_source db args.chain_id
    (standard.as_str ++ "-" ++ contract) contract standard (as_i64 range.«from»))
  ingest_source_range keccak256 parse_bytes parseAmount rpc source.from_source range.«from»
    range.«to» args.chunk_size
    { include_transaction_receipts := args.include_transaction_receipts
      restore_orphaned_conflicts := false
      prefetched_logs }

end Execute

section Keeping

variable {keccak256 : String → String} {parse_bytes : List Char → Option Nat}
  {parseAmount : AmountParser} {rpc : ChainRpc} {R : Service → Service → Prop}

/-- A scan writes the rows of the chain and of the source, and then ingests. -/
theorem scan_contract_keeps (hrefl : ∀ s, R s s) (htrans : ∀ {s t u}, R s t → R t u → R s u)
    {args : ScanContractArgs} (hchain : ∀ (s : Service) chains, R s { s with chains })
    (hsource : ∀ (s : Service) name contract standard start_block row db,
      ensure_source s.db args.chain_id name contract standard start_block = .ok (row, db) →
      R s { s with db })
    (hingest : ∀ range contract requested standard prefetched_logs,
      resolve_finalized_range rpc args.from_block args.to_block args.lookback
        args.finality_confirmations = .ok range →
      resolve_requested_standard_for_scan keccak256 rpc contract requested range.«from» range.«to»
        args.chunk_size = .ok (standard, prefetched_logs) →
      ∀ source, Keeps R (ingest_source_range keccak256 parse_bytes parseAmount rpc source
        range.«from» range.«to» args.chunk_size
        { include_transaction_receipts := args.include_transaction_receipts
          restore_orphaned_conflicts := false
          prefetched_logs })) :
    Keeps R (scan_contract keccak256 parse_bytes parseAmount rpc args) := by
  unfold scan_contract
  refine Keeps.ask_bind hrefl fun checked _ => ?_
  refine Keeps.ask_bind hrefl fun range hrange => ?_
  refine Keeps.ask_bind hrefl fun _ _ => ?_
  refine Keeps.ask_bind hrefl fun chosen hchosen => ?_
  refine Keeps.bind (R := R) htrans (Keeps.transaction hrefl fun s _ t h => ?_) fun _ => ?_
  · rw [context_eq_ok] at h
    unfold ensure_chain at h
    simp only [bail_eq_ok] at h
    obtain ⟨-, h⟩ := h
    split at h <;> cases h <;> exact hchain s _
  refine Keeps.bind (R := R) htrans (Keeps.transaction hrefl fun s _ t h => ?_) fun source =>
    hingest range checked.1 checked.2 chosen.1 chosen.2 hrange hchosen source.from_source
  simp only [EvmIndexer.bind_eq_ok, context_eq_ok] at h
  obtain ⟨⟨_, db⟩, hensured, h⟩ := h
  cases h
  exact hsource s _ _ _ _ _ db hensured

end Keeping

end EvmIndexer
