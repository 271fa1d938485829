/-
The tables beside the ledger and the queue, and the programs that write them.

A `Service` is a database with the tables `chains`, `transaction_receipts` and
`reorg_events`, whose keys no other table refers to, so they are lists and a refused
statement is `none`. Commands and jobs are programs on it (`Job`): they stop at the
first error, and what they have committed by then stays.
-/
import EvmIndexer.LedgerRepository
import EvmIndexer.Lib.Program

set_option autoImplicit false

namespace EvmIndexer

open Sql Program

/-! ## Rows

Rows of these tables are as they are written, with the text of the endpoint parsed into the
numbers of the columns.
-/

/-- A row of `chains`. -/
structure ChainRow where
  name : String
  chain_id : Int
  finality_confirmations : Int
  deriving DecidableEq, Repr

/-- `TransactionReceipt`, every field the text the RPC sent. -/
structure TransactionReceipt where
  transaction_hash : String
  transaction_index : String
  block_hash : String
  block_number : String
  «from» : String
  «to» : Option String
  contract_address : Option String
  status : Option String
  gas_used : String
  cumulative_gas_used : String
  effective_gas_price : Option String
  transaction_type : Option String
  raw : String
  deriving DecidableEq, Repr

/-- A row of `transaction_receipts`. -/
structure TransactionReceiptRow where
  chain_id : Int
  transaction_hash : String
  block_number : Int
  block_hash : String
  transaction_index : Option Int
  from_address : String
  to_address : Option String
  contract_address : Option String
  status : Option Int
  gas_used : Int
  cumulative_gas_used : Int
  effective_gas_price : Option Int
  transaction_type : Option String
  raw_receipt : String
  deriving DecidableEq, Repr

/-- The `CHECK`s of `transaction_receipts`, and the range of its numeric columns. -/
def TransactionReceiptRow.Check (row : TransactionReceiptRow) : Prop :=
  0 ≤ row.block_number ∧ NullOrNonneg row.transaction_index ∧
    (row.status = none ∨ row.status = some 0 ∨ row.status = some 1) ∧
    (0 ≤ row.gas_used ∧ fits_numeric_78_0 row.gas_used) ∧
    (0 ≤ row.cumulative_gas_used ∧ fits_numeric_78_0 row.cumulative_gas_used) ∧
    NullOrNonneg row.effective_gas_price ∧
    ∀ price ∈ row.effective_gas_price, fits_numeric_78_0 price

instance (row : TransactionReceiptRow) : Decidable row.Check := inferInstanceAs (Decidable (_ ∧ _))

/-- One mismatch in the `mismatches` column of `reorg_events`. -/
structure ReorgMismatch where
  block_number : Int
  expected_block_hash : String
  actual_block_hash : String
  deriving DecidableEq, Repr

/-- `ReorgEventInsert`. -/
structure ReorgEventInsert where
  source_id : Uuid
  chain_id : Int
  from_block : Int
  to_block : Int
  expected_block_hash : Option String
  actual_block_hash : Option String
  replay_job_id : Option Uuid
  mismatches : List ReorgMismatch
  deriving DecidableEq, Repr

/-- A range of a source that `ingest_source_range` was called with. -/
structure IngestedRange where
  source_id : Uuid
  «from» : Nat
  «to» : Nat
  deriving DecidableEq, Repr

/-- The database with the tables beside the ledger and the queue, and the ranges that
were passed to `ingest_source_range`. The code keeps no such list: it is what
statements about coverage are measured against. -/
structure Service where
  db : Db
  chains : List ChainRow
  transaction_receipts : List TransactionReceiptRow
  reorg_events : List ReorgEventInsert
  ingested : List IngestedRange

/-- A command or a job: what it returns or raises, and what it has committed. -/
abbrev Job (α : Type) : Type := EStateM String Service α

/-- A transaction on the tables of the ledger. -/
def ledger {α : Type} (body : Db → Result (α × Db)) : Job α :=
  transaction fun service => do
    let (a, db) ← body service.db
    .ok (a, { service with db })

/-- What a transaction on the ledger did. -/
theorem ledger_eq_ok {α : Type} {body : Db → Result (α × Db)} {s t : Service} {a : α} :
    ledger body s = .ok a t ↔ body s.db = .ok (a, t.db) ∧ t = { s with db := t.db } := by
  unfold ledger
  rw [transaction_eq_ok, EvmIndexer.bind_eq_ok]
  constructor
  · rintro ⟨⟨_, db⟩, hbody, h⟩
    cases h
    exact ⟨hbody, rfl⟩
  · rintro ⟨hbody, ht⟩
    exact ⟨(a, t.db), hbody, by rw [ht]⟩

/-- A transaction on the ledger that is rolled back. -/
theorem ledger_eq_error {α : Type} {body : Db → Result (α × Db)} {s t : Service} {e : String}
    (h : ledger body s = .error e t) : s = t :=
  (transaction_eq_error.1 h).2

/-! ## Chains

A chain has a number and a name, and both are unique. Ensuring one overwrites what was known
of the number.
-/

/-- `ensure_chain`: on conflict the name and the confirmations are overwritten. A name
another chain has is refused. -/
def ensure_chain (service : Service) (chain_name : String)
    (chain_id finality_confirmations : Int) : Result (ChainRow × Service) :=
  let values : ChainRow := { name := chain_name, chain_id, finality_confirmations }
  if ∃ row ∈ service.chains, row.name = chain_name ∧ row.chain_id ≠ chain_id then
    .error "upsert chain: constraint violation"
  else if ∃ row ∈ service.chains, row.chain_id = chain_id then
    .ok (values, { service with chains := service.chains.map fun row =>
      if row.chain_id = chain_id then values else row })
  else .ok (values, { service with chains := service.chains ++ [values] })

/-- `chain_by_chain_id`. -/
def chain_by_chain_id (chains : List ChainRow) (chain_id : Int) : Option ChainRow :=
  chains.find? fun row => row.chain_id == chain_id

/-! ## Receipts

A receipt is stored under chain and transaction, and a second one overwrites the first. The
receipts of a batch are stored in one transaction.
-/

section Receipts

variable (parse_bytes : List Char → Option Nat)

/-- `parse_hex_big_decimal`, as the integer it is. -/
def parse_hex_big_decimal (value : String) : Result Int := do
  let digits ← strip_0x value
  if digits = [] then .error ("hex value " ++ value ++ " is empty")
  else
    match parse_bytes digits with
    | some number => .ok (number : Int)
    | none => .error ("parse hex numeric: " ++ value)

/-- `parse_optional_hex_big_decimal`. -/
def parse_optional_hex_big_decimal : Option String → Result (Option Int)
  | none => .ok none
  | some value => do
    let number ← parse_hex_big_decimal parse_bytes value
    .ok (some number)

/-- The row `upsert_transaction_receipt` proposes for a receipt. -/
def new_transaction_receipt_row (chain_id : Int) (receipt : TransactionReceipt) :
    Result TransactionReceiptRow := do
  let block_number ← parse_hex_u64 receipt.block_number
  let transaction_index ← parse_hex_i32 receipt.transaction_index
  let status ← parse_optional_hex_i32 receipt.status
  let gas_used ← parse_hex_big_decimal parse_bytes receipt.gas_used
  let cumulative_gas_used ← parse_hex_big_decimal parse_bytes receipt.cumulative_gas_used
  let effective_gas_price ← parse_optional_hex_big_decimal parse_bytes receipt.effective_gas_price
  .ok
    { chain_id
      transaction_hash := to_ascii_lowercase receipt.transaction_hash
      block_number := as_i64 block_number
      block_hash := to_ascii_lowercase receipt.block_hash
      transaction_index := some transaction_index
      from_address := to_ascii_lowercase receipt.«from»
      to_address := receipt.«to».map to_ascii_lowercase
      contract_address := receipt.contract_address.map to_ascii_lowercase
      status
      gas_used
      cumulative_gas_used
      effective_gas_price
      transaction_type := receipt.transaction_type.map to_ascii_lowercase
      raw_receipt := receipt.raw }

/-- `upsert_transaction_receipt`: on conflict every column but the key is overwritten. -/
def upsert_transaction_receipt (chain_id : Int) (rows : List TransactionReceiptRow)
    (receipt : TransactionReceipt) : Result (List TransactionReceiptRow) := do
  let values ← new_transaction_receipt_row parse_bytes chain_id receipt
  if ¬ values.Check then .error "upsert transaction receipt: constraint violation"
  else
    let at_key (row : TransactionReceiptRow) : Bool :=
      row.chain_id == values.chain_id && row.transaction_hash == values.transaction_hash
    if rows.any at_key then .ok (rows.map fun row => if at_key row then values else row)
    else .ok (rows ++ [values])

/-- `persist_transaction_receipts`. -/
def persist_transaction_receipts (service : Service) (chain_id : Int)
    (receipts : List TransactionReceipt) : Result (Nat × Service) :=
  context "persist transaction receipts" do
    let transaction_receipts ← receipts.foldlM (upsert_transaction_receipt parse_bytes chain_id)
      service.transaction_receipts
    .ok (receipts.length, { service with transaction_receipts })

end Receipts

/-! ## Reorg events

A range of mismatches is one row, and rows are added and never merged. Which replay was
enqueued for it is written later.
-/

/-- The row of a reorg event: its hashes in lower case. -/
def ReorgEventInsert.row (event : ReorgEventInsert) : ReorgEventInsert :=
  { event with
    expected_block_hash := event.expected_block_hash.map to_ascii_lowercase
    actual_block_hash := event.actual_block_hash.map to_ascii_lowercase }

/-- `record_reorg_event`, with the `CHECK`s of its table. -/
def record_reorg_event (service : Service) (event : ReorgEventInsert) : Result (Unit × Service) :=
  if event.from_block < 0 ∨ event.to_block < 0 ∨ event.to_block < event.from_block then
    .error "insert reorg event: constraint violation"
  else .ok ((), { service with reorg_events := service.reorg_events ++ [event.row] })

end EvmIndexer
