/-
The Postgres schema: one row structure per table, with its `UNIQUE` and `CHECK`
constraints, and the database that holds the tables.

Every constraint of `migrations/*/up.sql` on a modelled column is here, so a
`Table` of these rows is a table Postgres could hold. Columns that are written
and never read by modelled code (`inserted_at`, `updated_at`, `started_at`) are
left out. Foreign keys are not fields of the tables: the modelled statements only
insert rows whose referents they have just read or written.
-/
import EvmIndexer.Evm
import EvmIndexer.Lib.Table

set_option autoImplicit false

namespace EvmIndexer

open Sql

/-- A nullable column that is not negative where it is not null. -/
def NullOrNonneg : Option Int → Prop
  | none => True
  | some value => 0 ≤ value

instance : DecidablePred NullOrNonneg
  | none => isTrue trivial
  | some value => inferInstanceAs (Decidable (0 ≤ value))

/-- A nullable block number: a `BIGINT` that is not negative. -/
def NullOrBlock : Option Int → Prop
  | none => True
  | some block => 0 ≤ block ∧ block < 2 ^ 63

instance : DecidablePred NullOrBlock
  | none => isTrue trivial
  | some block => inferInstanceAs (Decidable (0 ≤ block ∧ block < 2 ^ 63))

/-- `from_block IS NULL OR to_block IS NULL OR from_block <= to_block`. -/
def NullOrOrdered : Option Int → Option Int → Prop
  | some from_block, some to_block => from_block ≤ to_block
  | _, _ => True

instance : DecidableRel NullOrOrdered
  | some from_block, some to_block => inferInstanceAs (Decidable (from_block ≤ to_block))
  | none, _ => isTrue trivial
  | some _, none => isTrue trivial

/-! ## Sources and checkpoints

A source is one contract on one chain, and has at most one checkpoint. The two blocks of a
checkpoint are ordered by a `CHECK`, and its hash is text that nothing else refers to.
-/

/-- A row of `sources`. -/
structure SourceRow where
  id : Uuid
  chain_id : Int
  name : String
  contract_address : String
  token_standard : TokenStandard
  start_block : Int
  enabled : Bool
  deriving DecidableEq, Repr

instance : Schema SourceRow where
  Clash a b := a.id = b.id ∨ (a.chain_id = b.chain_id ∧ a.contract_address = b.contract_address)
  Check r := r.token_standard ≠ .Auto ∧ 0 ≤ r.start_block
  clash_refl _ := Or.inl rfl
  clash_symm h := h.imp Eq.symm (And.imp Eq.symm Eq.symm)
  decClash _ _ := inferInstanceAs (Decidable (_ ∨ _))
  decCheck _ := inferInstanceAs (Decidable (_ ∧ _))

/-- `SourceRef::from_source`. -/
def SourceRow.from_source (source : SourceRow) : SourceRef :=
  { id := source.id
    chain_id := source.chain_id
    contract_address := source.contract_address
    token_standard := source.token_standard }

/-- A row of `checkpoints`. -/
structure CheckpointRow where
  id : Uuid
  source_id : Uuid
  processed_block : Int
  processed_block_hash : String
  finalized_block : Int
  deriving DecidableEq, Repr

instance : Schema CheckpointRow where
  Clash a b := a.id = b.id ∨ a.source_id = b.source_id
  Check r := 0 ≤ r.processed_block ∧ 0 ≤ r.finalized_block ∧ r.processed_block ≤ r.finalized_block
  clash_refl _ := Or.inl rfl
  clash_symm h := h.imp Eq.symm Eq.symm
  decClash _ _ := inferInstanceAs (Decidable (_ ∨ _))
  decCheck _ := inferInstanceAs (Decidable (_ ∧ _))

/-! ## The ledger

Events and entries are unique by what identifies them on the chain, balances by source,
holder and token. The numbers of an amount and of a balance have 78 digits at most.
-/

/-- A row of `events`. The `args` object holds the decoded entries, and `topics`
the array of topics. -/
structure EventRow where
  id : Uuid
  source_id : Uuid
  chain_id : Int
  block_number : Int
  block_timestamp : Option Timestamp
  block_hash : String
  transaction_hash : String
  transaction_index : Option Int
  log_index : Int
  contract_address : String
  event_name : String
  topics : List String
  data : String
  args : List DecodedLedgerEntry
  finalized : Bool
  orphaned : Bool
  deriving DecidableEq, Repr

instance : Schema EventRow where
  Clash a b := a.id = b.id ∨
    (a.chain_id = b.chain_id ∧ a.transaction_hash = b.transaction_hash ∧ a.log_index = b.log_index)
  Check r := 0 ≤ r.block_number ∧ 0 ≤ r.log_index ∧ NullOrNonneg r.transaction_index ∧
    r.block_number < 2 ^ 63 ∧ r.log_index < 2 ^ 31
  clash_refl _ := Or.inl rfl
  clash_symm h := h.imp Eq.symm (And.imp Eq.symm (And.imp Eq.symm Eq.symm))
  decClash _ _ := inferInstanceAs (Decidable (_ ∨ _))
  decCheck _ := inferInstanceAs (Decidable (_ ∧ _))

/-- A row of `ledger_entries`. -/
structure LedgerEntryRow where
  id : Uuid
  event_id : Uuid
  source_id : Uuid
  chain_id : Int
  contract_address : String
  token_standard : TokenStandard
  movement_type : MovementType
  operator_address : Option String
  from_address : Option String
  to_address : Option String
  token_id : String
  amount : Int
  batch_index : Int
  block_number : Int
  block_timestamp : Option Timestamp
  block_hash : String
  transaction_hash : String
  transaction_index : Option Int
  log_index : Int
  orphaned : Bool
  deriving DecidableEq, Repr

instance : Schema LedgerEntryRow where
  Clash a b := a.id = b.id ∨
    (a.chain_id = b.chain_id ∧ a.transaction_hash = b.transaction_hash ∧
      a.log_index = b.log_index ∧ a.batch_index = b.batch_index)
  Check r := r.token_standard ≠ .Auto ∧ 0 ≤ r.amount ∧ fits_numeric_78_0 r.amount ∧
    0 ≤ r.batch_index ∧ 0 ≤ r.block_number ∧ 0 ≤ r.log_index ∧
    NullOrNonneg r.transaction_index ∧ (r.from_address ≠ none ∨ r.to_address ≠ none) ∧
    r.block_number < 2 ^ 63 ∧ r.log_index < 2 ^ 31 ∧ r.batch_index < 2 ^ 31
  clash_refl _ := Or.inl rfl
  clash_symm h := h.imp Eq.symm (And.imp Eq.symm (And.imp Eq.symm (And.imp Eq.symm Eq.symm)))
  decClash _ _ := inferInstanceAs (Decidable (_ ∨ _))
  decCheck _ := inferInstanceAs (Decidable (_ ∧ _))

/-- A row of `token_balances`. -/
structure TokenBalanceRow where
  id : Uuid
  source_id : Uuid
  chain_id : Int
  contract_address : String
  token_standard : TokenStandard
  holder_address : String
  token_id : String
  balance : Int
  first_received_block : Option Int
  last_moved_block : Option Int
  deriving DecidableEq, Repr

instance : Schema TokenBalanceRow where
  Clash a b := a.id = b.id ∨
    (a.source_id = b.source_id ∧ a.holder_address = b.holder_address ∧ a.token_id = b.token_id)
  Check r := r.token_standard ≠ .Auto ∧ 0 ≤ r.balance ∧ fits_numeric_78_0 r.balance ∧
    NullOrNonneg r.first_received_block ∧ NullOrNonneg r.last_moved_block
  clash_refl _ := Or.inl rfl
  clash_symm h := h.imp Eq.symm (And.imp Eq.symm (And.imp Eq.symm Eq.symm))
  decClash _ _ := inferInstanceAs (Decidable (_ ∨ _))
  decCheck _ := inferInstanceAs (Decidable (_ ∧ _))

/-! ## Jobs

The columns of a lease and of a range are nullable, and the constraints on them hold where
they are not null. So a leased job without an expiry is a row the table would hold.
-/

/-- `JobType`. -/
inductive JobType
  | IngestRange
  | ReplayRange
  | VerifyReorg
  | RepairCheckpoint
  deriving DecidableEq, Repr

/-- `JobStatus`. -/
inductive JobStatus
  | Queued
  | Leased
  | Running
  | Succeeded
  | Failed
  | DeadLettered
  | Cancelled
  deriving DecidableEq, Repr

/-- A row of `jobs`. -/
structure JobRow where
  id : Uuid
  job_type : JobType
  status : JobStatus
  source_id : Option Uuid
  chain_id : Int
  from_block : Option Int
  to_block : Option Int
  idempotency_key : String
  leased_by : Option String
  lease_expires_at : Option Timestamp
  attempts : Int
  max_attempts : Int
  error_class : Option String
  error_message : Option String
  created_at : Timestamp
  deriving DecidableEq, Repr

/-- The partial index `idx_jobs_unique_source_type_range`: it only covers rows
whose source and range are all present. -/
def JobRow.same_source_range (a b : JobRow) : Prop :=
  a.source_id ≠ none ∧ a.from_block ≠ none ∧ a.to_block ≠ none ∧
    a.source_id = b.source_id ∧ a.job_type = b.job_type ∧
    a.from_block = b.from_block ∧ a.to_block = b.to_block

instance (a b : JobRow) : Decidable (a.same_source_range b) :=
  inferInstanceAs (Decidable (_ ∧ _))

theorem JobRow.same_source_range_symm {a b : JobRow} (h : a.same_source_range b) :
    b.same_source_range a := by
  obtain ⟨hs, hf, ht, es, ej, ef, et⟩ := h
  exact ⟨es ▸ hs, ef ▸ hf, et ▸ ht, es.symm, ej.symm, ef.symm, et.symm⟩

instance : Schema JobRow where
  Clash a b := a.id = b.id ∨ a.idempotency_key = b.idempotency_key ∨ a.same_source_range b
  Check r := NullOrBlock r.from_block ∧ NullOrBlock r.to_block ∧
    NullOrOrdered r.from_block r.to_block ∧ 0 ≤ r.attempts ∧ r.attempts < 2 ^ 31 ∧ 0 < r.max_attempts
  clash_refl _ := Or.inl rfl
  clash_symm h := h.imp Eq.symm (Or.imp Eq.symm JobRow.same_source_range_symm)
  decClash _ _ := inferInstanceAs (Decidable (_ ∨ _))
  decCheck _ := inferInstanceAs (Decidable (_ ∧ _))

/-- A row of `job_attempts`. -/
structure JobAttemptRow where
  id : Uuid
  job_id : Uuid
  attempt_number : Int
  worker_id : String
  finished_at : Option Timestamp
  status : JobStatus
  error_class : Option String
  error_message : Option String
  deriving DecidableEq, Repr

instance : Schema JobAttemptRow where
  Clash a b := a.id = b.id
  Check r := 0 < r.attempt_number ∧ r.status ≠ .Queued
  clash_refl _ := rfl
  clash_symm h := h.symm
  decClash _ _ := inferInstanceAs (Decidable (_ = _))
  decCheck _ := inferInstanceAs (Decidable (_ ∧ _))

/-! ## The database

The tables are kept side by side and written by one transaction at a time. Identifiers are
numbers that are handed out in order, which is all that is used of their being unique.
-/

/-- The tables the repository reads and writes. `next_uuid` is what the next
`Uuid::new_v4()` returns: identifiers are never handed out twice. -/
structure Db where
  next_uuid : Uuid
  sources : Table SourceRow
  checkpoints : Table CheckpointRow
  events : Table EventRow
  ledger_entries : Table LedgerEntryRow
  token_balances : Table TokenBalanceRow
  jobs : Table JobRow
  job_attempts : Table JobAttemptRow

/-- The database after the migrations. -/
def Db.empty : Db :=
  { next_uuid := 0
    sources := .empty
    checkpoints := .empty
    events := .empty
    ledger_entries := .empty
    token_balances := .empty
    jobs := .empty
    job_attempts := .empty }

/-- The same database with its rows in another physical order. -/
structure Db.SameRows (db db' : Db) : Prop where
  next_uuid : db'.next_uuid = db.next_uuid
  sources : db.sources.HeapPerm db'.sources
  checkpoints : db.checkpoints.HeapPerm db'.checkpoints
  events : db.events.HeapPerm db'.events
  ledger_entries : db.ledger_entries.HeapPerm db'.ledger_entries
  token_balances : db.token_balances.HeapPerm db'.token_balances
  jobs : db.jobs.HeapPerm db'.jobs
  job_attempts : db.job_attempts.HeapPerm db'.job_attempts

theorem Db.SameRows.refl (db : Db) : db.SameRows db :=
  ⟨rfl, List.Perm.refl _, List.Perm.refl _, List.Perm.refl _, List.Perm.refl _,
    List.Perm.refl _, List.Perm.refl _, List.Perm.refl _⟩

end EvmIndexer
