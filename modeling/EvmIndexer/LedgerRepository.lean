/-
`infra/postgres/ledger_repository.rs`: the writes of the ledger.

Each function takes the database and returns the database its transaction leaves,
or the error that rolls the transaction back; a caller that gets an error keeps
the database it had. The statements inside a function are in the source's order,
because a failing statement hides the ones after it.

Rows are addressed as the source addresses them: by the arbiter columns of an
`ON CONFLICT` clause where it upserts, by `id` where it updates a row it has just
read.
-/
import EvmIndexer.Schema

set_option autoImplicit false

namespace EvmIndexer

open Sql

/-! ## Rows

An update is a function on rows together with a proof that it keeps the columns of the
constraints, so that no update can make two rows clash. What it sets is the list of the `SET`
clause, and no column besides.
-/

/-- The columns of `events` an upsert overwrites. `block_number` is not one of
them. -/
def EventRow.on_conflict (excluded row : EventRow) : EventRow :=
  { row with
    block_timestamp := excluded.block_timestamp
    block_hash := excluded.block_hash
    transaction_index := excluded.transaction_index
    contract_address := excluded.contract_address
    event_name := excluded.event_name
    topics := excluded.topics
    data := excluded.data
    args := excluded.args
    finalized := true }

theorem EventRow.on_conflict_keeps_keys (excluded : EventRow) :
    KeepsKeys excluded.on_conflict := fun _ _ => Iff.rfl

/-- The columns of `ledger_entries` an upsert overwrites: the amount and where
the log was seen, but neither the block number nor the parties. -/
def LedgerEntryRow.on_conflict (excluded row : LedgerEntryRow) : LedgerEntryRow :=
  { row with
    amount := excluded.amount
    block_timestamp := excluded.block_timestamp
    block_hash := excluded.block_hash
    transaction_index := excluded.transaction_index }

theorem LedgerEntryRow.on_conflict_keeps_keys (excluded : LedgerEntryRow) :
    KeepsKeys excluded.on_conflict := fun _ _ => Iff.rfl

/-- `SET orphaned = orphaned` on `events`. -/
def EventRow.set_orphaned (orphaned : Bool) (row : EventRow) : EventRow :=
  { row with orphaned := orphaned }

theorem EventRow.set_orphaned_keeps_keys (orphaned : Bool) :
    KeepsKeys (EventRow.set_orphaned orphaned) := fun _ _ => Iff.rfl

/-- `SET orphaned = orphaned` on `ledger_entries`. -/
def LedgerEntryRow.set_orphaned (orphaned : Bool) (row : LedgerEntryRow) : LedgerEntryRow :=
  { row with orphaned := orphaned }

theorem LedgerEntryRow.set_orphaned_keeps_keys (orphaned : Bool) :
    KeepsKeys (LedgerEntryRow.set_orphaned orphaned) := fun _ _ => Iff.rfl

/-! ## Sources

A source is addressed by chain and address where it is ensured, and by its id everywhere
else. A transaction that writes rows of a source first locks its row, and fails if there is
none.
-/

/-- `ensure_source`: on conflict the name, the standard and the start block are
overwritten. -/
def ensure_source (db : Db) (chain_id : Int) (name contract_address : String)
    (standard : TokenStandard) (start_block : Int) : Result (SourceRow × Db) := do
  if standard.is_auto then
    .error "source token standard must be detected before persistence"
  else
    let contract_address := to_ascii_lowercase contract_address
    let values : SourceRow :=
      { id := db.next_uuid, chain_id, name, contract_address, token_standard := standard,
        start_block, enabled := true }
    let (row, sources) ← db_result "upsert source" (db.sources.upsert values
      (fun r => r.chain_id == chain_id && r.contract_address == contract_address)
      (fun r => { r with name, token_standard := standard, start_block, enabled := true })
      (fun _ _ => Iff.rfl))
    .ok (row, { db with next_uuid := db.next_uuid + 1, sources })

/-- `source_by_id`. -/
def source_by_id (db : Db) (source_id : Uuid) : Option SourceRow :=
  db.sources.rows.find? fun r => r.id == source_id

/-- `lock_source_for_write_conn`. -/
def lock_source_for_write_conn (db : Db) (source : SourceRef) : Result Unit :=
  match db.sources.rows.find? (fun r => r.id == source.id) with
  | some _ => .ok ()
  | none => .error "lock source ledger write: record not found"

/-! ## Events and ledger entries

A log is parsed column by column, and each column that does not parse is an error of the
transaction. Both tables are upserted by what identifies a log: chain, transaction and log
index, and for entries the batch index.
-/

/-- `normalized_topics`. -/
def normalized_topics (log : RpcLog) : List String := log.topics.map to_ascii_lowercase

/-- `movement_type`. -/
def movement_type («from» «to» : String) : MovementType :=
  match (non_zero_address «from»).isSome, (non_zero_address «to»).isSome with
  | false, true => .Mint
  | true, false => .Burn
  | true, true => .Transfer
  | false, false => .Transfer

/-- The row `upsert_event` proposes for a log. -/
def new_event_row (id : Uuid) (source : SourceRef) (log : RpcLog) (decoded : DecodedLog) :
    Result EventRow := do
  let block_number ← parse_hex_u64 log.block_number
  let transaction_index ← parse_optional_hex_i32 log.transaction_index
  let log_index ← parse_hex_u64 log.log_index
  .ok
    { id
      source_id := source.id
      chain_id := source.chain_id
      block_number := as_i64 block_number
      block_timestamp := log.block_timestamp
      block_hash := to_ascii_lowercase log.block_hash
      transaction_hash := to_ascii_lowercase log.transaction_hash
      transaction_index
      log_index := as_i32 log_index
      contract_address := to_ascii_lowercase log.address
      event_name := decoded.event_name
      topics := normalized_topics log
      data := to_ascii_lowercase log.data
      args := decoded.entries
      finalized := true
      orphaned := false }

/-- The conflict target of `events`. -/
def EventRow.same_log (a b : EventRow) : Bool :=
  a.chain_id == b.chain_id && a.transaction_hash == b.transaction_hash && a.log_index == b.log_index

/-- `upsert_event`. -/
def upsert_event (db : Db) (source : SourceRef) (log : RpcLog) (decoded : DecodedLog)
    (options : PersistDecodedLogsOptions) : Result (Uuid × Db) := do
  let values ← new_event_row db.next_uuid source log decoded
  let (row, events) ← db_result "upsert event"
    (db.events.upsert values values.same_log values.on_conflict values.on_conflict_keeps_keys)
  let db := { db with next_uuid := db.next_uuid + 1, events }
  if options.restore_orphaned_conflicts && row.orphaned then
    let events ← db_result "restore replayed event" (db.events.update (fun r => r.id == row.id)
      (EventRow.set_orphaned false) (EventRow.set_orphaned_keeps_keys false))
    .ok (row.id, { db with events })
  else .ok (row.id, db)

/-- The conflict target of `ledger_entries`, with the columns it compares. -/
def LedgerEntryRow.at_key (chain_id : Int) (transaction_hash : String) (log_index batch_index : Int)
    (row : LedgerEntryRow) : Bool :=
  row.chain_id == chain_id && row.transaction_hash == transaction_hash &&
    row.log_index == log_index && row.batch_index == batch_index

/-- `lock_existing_ledger_entry`. -/
def lock_existing_ledger_entry (db : Db) (source : SourceRef) (log : RpcLog) (batch_index : Int) :
    Result (Option LedgerEntryRow) := do
  let log_index ← parse_hex_u64 log.log_index
  .ok (db.ledger_entries.rows.find? (LedgerEntryRow.at_key source.chain_id
    (to_ascii_lowercase log.transaction_hash) (as_i32 log_index) batch_index))

/-- The row `upsert_ledger_entry` proposes for a decoded entry. -/
def new_ledger_entry_row (parseAmount : AmountParser) (id : Uuid) (source : SourceRef)
    (log : RpcLog) (event_id : Uuid) (entry : DecodedLedgerEntry) : Result LedgerEntryRow := do
  let amount ← parse_amount parseAmount entry.amount
  let block_number ← parse_hex_u64 log.block_number
  let transaction_index ← parse_optional_hex_i32 log.transaction_index
  let log_index ← parse_hex_u64 log.log_index
  .ok
    { id
      event_id
      source_id := source.id
      chain_id := source.chain_id
      contract_address := to_ascii_lowercase log.address
      token_standard := entry.token_standard
      movement_type := movement_type entry.«from» entry.«to»
      operator_address := entry.operator.map to_ascii_lowercase
      from_address := non_zero_address entry.«from»
      to_address := non_zero_address entry.«to»
      token_id := entry.token_id
      amount := numeric_78_0 amount
      batch_index := entry.batch_index
      block_number := as_i64 block_number
      block_timestamp := log.block_timestamp
      block_hash := to_ascii_lowercase log.block_hash
      transaction_hash := to_ascii_lowercase log.transaction_hash
      transaction_index
      log_index := as_i32 log_index
      orphaned := false }

/-- The conflict target of `ledger_entries`. -/
def LedgerEntryRow.same_entry (a b : LedgerEntryRow) : Bool :=
  LedgerEntryRow.at_key a.chain_id a.transaction_hash a.log_index a.batch_index b

/-- `upsert_ledger_entry`. -/
def upsert_ledger_entry (parseAmount : AmountParser) (db : Db) (source : SourceRef) (log : RpcLog)
    (event_id : Uuid) (entry : DecodedLedgerEntry) (options : PersistDecodedLogsOptions) :
    Result (LedgerEntryRow × Db) := do
  let values ← new_ledger_entry_row parseAmount db.next_uuid source log event_id entry
  let (row, ledger_entries) ← db_result "upsert ledger entry" (db.ledger_entries.upsert values
    values.same_entry values.on_conflict values.on_conflict_keeps_keys)
  let db := { db with next_uuid := db.next_uuid + 1, ledger_entries }
  if options.restore_orphaned_conflicts && row.orphaned then
    let ledger_entries ← db_result "restore replayed ledger entry" (db.ledger_entries.update
      (fun r => r.id == row.id) (LedgerEntryRow.set_orphaned false)
      (LedgerEntryRow.set_orphaned_keeps_keys false))
    .ok (row.set_orphaned false, { db with ledger_entries })
  else .ok (row, db)

/-! ## Balances

The deltas of a row are collected in a map and then applied holder by holder. The order of a
`HashMap` is not known; here it is that of the first insertions, and no result depends on it.
-/

/-- `BalanceDelta`. -/
structure BalanceDelta where
  balance_delta : Int
  first_received_block : Option Int
  last_moved_block : Option Int
  deriving DecidableEq, Repr

/-- `BalanceDelta::default`. -/
def BalanceDelta.default : BalanceDelta :=
  { balance_delta := 0, first_received_block := none, last_moved_block := none }

/-- `HashMap<(String, String), BalanceDelta>`, as its list of entries. -/
abbrev BalanceDeltas : Type := List ((String × String) × BalanceDelta)

/-- `deltas.entry(key).or_default()`, modified by `f`. -/
def entry_or_default (deltas : BalanceDeltas) (key : String × String)
    (f : BalanceDelta → BalanceDelta) : BalanceDeltas :=
  match deltas with
  | [] => [(key, f BalanceDelta.default)]
  | (k, delta) :: rest =>
    if k = key then (k, f delta) :: rest else (k, delta) :: entry_or_default rest key f

/-- `min_optional_block`. -/
def min_optional_block : Option Int → Option Int → Option Int
  | some current, some candidate => some (min current candidate)
  | some current, none => some current
  | none, some candidate => some candidate
  | none, none => none

/-- `max_optional_block`. -/
def max_optional_block : Option Int → Option Int → Option Int
  | some current, some candidate => some (max current candidate)
  | some current, none => some current
  | none, some candidate => some candidate
  | none, none => none

/-- The debit half of `collect_balance_delta`. -/
def BalanceDelta.debit (row : LedgerEntryRow) (reverse : Bool) (delta : BalanceDelta) :
    BalanceDelta :=
  { delta with
    balance_delta := delta.balance_delta - (if reverse then -row.amount else row.amount)
    last_moved_block :=
      if reverse then delta.last_moved_block
      else max_optional_block delta.last_moved_block (some row.block_number) }

/-- The credit half of `collect_balance_delta`. -/
def BalanceDelta.credit (row : LedgerEntryRow) (reverse : Bool) (delta : BalanceDelta) :
    BalanceDelta :=
  { balance_delta := delta.balance_delta + (if reverse then -row.amount else row.amount)
    first_received_block :=
      if reverse then delta.first_received_block
      else min_optional_block delta.first_received_block (some row.block_number)
    last_moved_block :=
      if reverse then delta.last_moved_block
      else max_optional_block delta.last_moved_block (some row.block_number) }

/-- `if let Some(holder) = party { ... }`: the delta of one end of a row, where
the row has that end. -/
def collect_party (deltas : BalanceDeltas) (party : Option String) (token_id : String)
    (f : BalanceDelta → BalanceDelta) : BalanceDeltas :=
  match party with
  | some holder => entry_or_default deltas (holder, token_id) f
  | none => deltas

/-- `collect_balance_delta`. -/
def collect_balance_delta (deltas : BalanceDeltas) (row : LedgerEntryRow) (reverse : Bool) :
    BalanceDeltas :=
  let deltas := collect_party deltas row.from_address row.token_id (BalanceDelta.debit row reverse)
  collect_party deltas row.to_address row.token_id (BalanceDelta.credit row reverse)

/-- The row of a holder's balance of one token. -/
def TokenBalanceRow.of_holder (source_id : Uuid) (holder_address token_id : String)
    (row : TokenBalanceRow) : Bool :=
  row.source_id == source_id && row.holder_address == holder_address && row.token_id == token_id

/-- `apply_holder_balance_delta`. -/
def apply_holder_balance_delta (db : Db) (source : SourceRef) (holder_address token_id : String)
    (delta : BalanceDelta) : Result Db := do
  let existing := db.token_balances.rows.find?
    (TokenBalanceRow.of_holder source.id holder_address token_id)
  let current_balance := (existing.map (·.balance)).getD 0
  let next_balance := current_balance + delta.balance_delta
  if next_balance < 0 then
    .error s!"balance for holder {holder_address} token_id={token_id} would become negative"
  else
    let first_received_block :=
      min_optional_block (existing.bind (·.first_received_block)) delta.first_received_block
    let last_moved_block :=
      max_optional_block (existing.bind (·.last_moved_block)) delta.last_moved_block
    match existing with
    | some existing =>
      let token_balances ← db_result "update token balance" (db.token_balances.update
        (fun r => r.id == existing.id)
        (fun r => { r with balance := next_balance, first_received_block, last_moved_block })
        (fun _ _ => Iff.rfl))
      .ok { db with token_balances }
    | none =>
      if next_balance = 0 then .ok db
      else
        let token_balances ← db_result "insert token balance" (db.token_balances.insert
          { id := db.next_uuid
            source_id := source.id
            chain_id := source.chain_id
            contract_address := source.contract_address
            token_standard := source.token_standard
            holder_address
            token_id
            balance := next_balance
            first_received_block
            last_moved_block })
        .ok { db with next_uuid := db.next_uuid + 1, token_balances }

/-- The order `apply_balance_delta` sorts its deltas in: by holder, then token. -/
def holder_token_le (a b : (String × String) × BalanceDelta) : Prop :=
  a.1.1 < b.1.1 ∨ (a.1.1 = b.1.1 ∧ a.1.2 ≤ b.1.2)

instance : DecidableRel holder_token_le := fun _ _ => inferInstanceAs (Decidable (_ ∨ _))

/-- The deltas of replacing `previous` by `current`: what an orphaned row had or
has does not count. -/
def balance_deltas (previous : Option LedgerEntryRow) (current : LedgerEntryRow) : BalanceDeltas :=
  let deltas := match previous with
    | some previous => if previous.orphaned then [] else collect_balance_delta [] previous true
    | none => []
  if current.orphaned then deltas else collect_balance_delta deltas current false

/-- `apply_balance_delta`. -/
def apply_balance_delta (db : Db) (source : SourceRef) (previous : Option LedgerEntryRow)
    (current : LedgerEntryRow) : Result Db :=
  ((balance_deltas previous current).insertionSort holder_token_le).foldlM
    (fun db delta => apply_holder_balance_delta db source delta.1.1 delta.1.2 delta.2) db

/-! ## Read models of a source

These are the counts that a scan prints and the summary shows.
-/

/-- `source_by_contract`. -/
def source_by_contract (db : Db) (chain_id : Int) (contract_address : String) : Option SourceRow :=
  db.sources.rows.find? fun row =>
    row.chain_id == chain_id && row.contract_address == to_ascii_lowercase contract_address

/-- `holder_count_conn`: the rows of a source with a positive balance. -/
def holder_count_conn (db : Db) (source_id : Uuid) : Nat :=
  (db.token_balances.rows.filter fun r => r.source_id == source_id && decide (0 < r.balance)).length

/-- `minter_count_conn`: `COUNT(DISTINCT to_address)` over active mints. -/
def minter_count_conn (db : Db) (source_id : Uuid) : Nat :=
  (((db.ledger_entries.rows.filter fun r =>
    r.source_id == source_id && r.movement_type == .Mint && !r.orphaned).filterMap
      (·.to_address)).dedup).length

/-- `top_holders_conn`. -/
def top_holders_conn (db : Db) (source_id : Uuid) (limit : Nat) : List TokenBalanceRow :=
  ((db.token_balances.rows.filter fun r =>
    r.source_id == source_id && decide (0 < r.balance)).insertionSort
      (fun a b => b.balance ≤ a.balance)).take limit

/-- `token_balance_snapshot`. -/
def token_balance_snapshot (row : TokenBalanceRow) : TokenBalanceSnapshot :=
  { holder_address := row.holder_address
    token_id := row.token_id
    balance := row.balance
    first_received_block := row.first_received_block
    last_moved_block := row.last_moved_block }

/-! ## The transactions

Each transaction is a loop of statements on a database it has to itself. An error in any of
them is the error of the whole, and what the statements before it did is lost.
-/

section Persist

variable (parseAmount : AmountParser)

/-- One turn of the inner loop of `persist_decoded_logs_with_options`. -/
def persist_entry (source : SourceRef) (log : RpcLog) (event_id : Uuid)
    (options : PersistDecodedLogsOptions) (db : Db) (entry : DecodedLedgerEntry) : Result Db := do
  let previous ← lock_existing_ledger_entry db source log entry.batch_index
  if previous.any (fun row => row.source_id != source.id) then
    .error ("existing ledger entry for transaction " ++ log.transaction_hash ++ " log " ++
      log.log_index ++ " batch " ++ toString entry.batch_index ++ " belongs to another source")
  else
    let (current, db) ← upsert_ledger_entry parseAmount db source log event_id entry options
    apply_balance_delta db source previous current

/-- One turn of the outer loop of `persist_decoded_logs_with_options`. -/
def persist_log (source : SourceRef) (options : PersistDecodedLogsOptions) (db : Db)
    (log : RpcLog × DecodedLog) : Result Db := do
  let (event_id, db) ← upsert_event db source log.1 log.2 options
  log.2.entries.foldlM (persist_entry parseAmount source log.1 event_id options) db

/-- `persist_decoded_logs_with_options`. The two counters the loops raise are the
numbers of turns they made. -/
def persist_decoded_logs_with_options (db : Db) (source : SourceRef)
    (logs : List (RpcLog × DecodedLog)) (options : PersistDecodedLogsOptions) :
    Result (ScanSummary × Db) :=
  context "persist decoded logs" do
    lock_source_for_write_conn db source
    let db ← logs.foldlM (persist_log parseAmount source options) db
    .ok
      ({ source_id := source.id
         events_seen := logs.length
         events_persisted := logs.length
         ledger_entries_persisted := (logs.map fun log => log.2.entries.length).sum
         transaction_receipts_persisted := 0
         holder_count := holder_count_conn db source.id
         minter_count := minter_count_conn db source.id
         top_holders := (top_holders_conn db source.id 10).map token_balance_snapshot },
       db)

end Persist

/-- `OrphanRangeSummary`. -/
structure OrphanRangeSummary where
  events_orphaned : Nat
  ledger_entries_orphaned : Nat
  deriving DecidableEq, Repr

/-- The rows of a source that an orphaned range covers. -/
def LedgerEntryRow.active_in (source_id : Uuid) (from_block to_block : Int) (row : LedgerEntryRow) :
    Bool :=
  row.source_id == source_id && decide (from_block ≤ row.block_number) &&
    decide (row.block_number ≤ to_block) && !row.orphaned

/-- The events of a source that an orphaned range covers. -/
def EventRow.active_in (source_id : Uuid) (from_block to_block : Int) (row : EventRow) : Bool :=
  row.source_id == source_id && decide (from_block ≤ row.block_number) &&
    decide (row.block_number ≤ to_block) && !row.orphaned

/-- `ORDER BY block_number, log_index, batch_index`. -/
def LedgerEntryRow.chain_le (a b : LedgerEntryRow) : Prop :=
  a.block_number < b.block_number ∨ (a.block_number = b.block_number ∧
    (a.log_index < b.log_index ∨ (a.log_index = b.log_index ∧ a.batch_index ≤ b.batch_index)))

instance : DecidableRel LedgerEntryRow.chain_le := fun _ _ => inferInstanceAs (Decidable (_ ∨ _))

/-- The active rows of a range, in the order `orphan_source_range` reverses them. -/
def active_rows_in (db : Db) (source_id : Uuid) (from_block to_block : Int) : List LedgerEntryRow :=
  (db.ledger_entries.rows.filter (LedgerEntryRow.active_in source_id from_block to_block)).insertionSort
    LedgerEntryRow.chain_le

/-- One turn of the reversal loop of `orphan_source_range`. -/
def reverse_entry (source : SourceRef) (db : Db) (row : LedgerEntryRow) : Result Db :=
  apply_balance_delta db source (some row) (row.set_orphaned true)

/-- `orphan_source_range`. -/
def orphan_source_range (db : Db) (source : SourceRow) (from_block to_block : Int) :
    Result (OrphanRangeSummary × Db) :=
  if from_block < 0 ∨ to_block < 0 then .error "orphan range cannot be negative"
  else if to_block < from_block then
    .error s!"from-block {from_block} cannot be greater than to-block {to_block}"
  else
    context "orphan source range" do
      lock_source_for_write_conn db source.from_source
      let rows := active_rows_in db source.id from_block to_block
      let db ← rows.foldlM (reverse_entry source.from_source) db
      let active := LedgerEntryRow.active_in source.id from_block to_block
      let ledger_entries ← db_result "mark ledger entries orphaned" (db.ledger_entries.update active
        (LedgerEntryRow.set_orphaned true) (LedgerEntryRow.set_orphaned_keeps_keys true))
      let active_event := EventRow.active_in source.id from_block to_block
      let events ← db_result "mark events orphaned" (db.events.update active_event
        (EventRow.set_orphaned true) (EventRow.set_orphaned_keeps_keys true))
      .ok
        ({ events_orphaned := (db.events.rows.filter active_event).length
           ledger_entries_orphaned := (db.ledger_entries.rows.filter active).length },
         { db with ledger_entries, events })

/-! ## Checkpoints

The checkpoint of a source is one row, inserted by the first call and raised by the later
ones, under a lock.
-/

/-- `checkpoint_for_source`. -/
def checkpoint_for_source (db : Db) (source_id : Uuid) : Option CheckpointRow :=
  db.checkpoints.rows.find? fun r => r.source_id == source_id

/-- The columns `advance_checkpoint` sets on a stored row. -/
def CheckpointRow.advance (processed_block : Int) (processed_block_hash : String)
    (finalized_block : Int) (existing : CheckpointRow) : CheckpointRow :=
  { existing with
    processed_block := max existing.processed_block processed_block
    processed_block_hash :=
      if existing.processed_block < processed_block then processed_block_hash
      else existing.processed_block_hash
    finalized_block := max existing.finalized_block finalized_block }

/-- `advance_checkpoint`. -/
def advance_checkpoint (db : Db) (source_id : Uuid) (processed_block : Int)
    (processed_block_hash : String) (finalized_block : Int) : Result (CheckpointRow × Db) :=
  if processed_block < 0 then .error "processed block cannot be negative"
  else if finalized_block < 0 then .error "finalized block cannot be negative"
  else if finalized_block < processed_block then
    .error s!"processed block {processed_block} cannot be greater than finalized block {finalized_block}"
  else
    let processed_block_hash := to_ascii_lowercase processed_block_hash
    match checkpoint_for_source db source_id with
    | none => do
      let row : CheckpointRow :=
        { id := db.next_uuid, source_id, processed_block, processed_block_hash, finalized_block }
      let checkpoints ← db_result "insert checkpoint" (db.checkpoints.insert row)
      .ok (row, { db with next_uuid := db.next_uuid + 1, checkpoints })
    | some existing =>
      if processed_block = existing.processed_block ∧
          processed_block_hash ≠ existing.processed_block_hash then
        .error ("checkpoint hash mismatch at processed block " ++ toString processed_block ++
          ": stored " ++ existing.processed_block_hash ++ ", new " ++ processed_block_hash)
      else if processed_block < existing.processed_block ∧
          finalized_block ≤ existing.finalized_block then .ok (existing, db)
      else do
        let checkpoints ← db_result "update checkpoint" (db.checkpoints.update
          (fun r => r.id == existing.id)
          (CheckpointRow.advance processed_block processed_block_hash finalized_block)
          (fun _ _ => Iff.rfl))
        .ok (existing.advance processed_block processed_block_hash finalized_block,
          { db with checkpoints })

/-- `i64::saturating_add`, on a sum that can only be too large. -/
def i64_saturating_add (a b : Int) : Int := min (a + b) (2 ^ 63 - 1)

/-- The range of a job whose bounds are both present. -/
def JobRow.range (row : JobRow) : Option (Int × Int) :=
  match row.from_block, row.to_block with
  | some from_block, some to_block => some (from_block, to_block)
  | _, _ => none

/-- The filter `next_contiguous_checkpoint_target` loads ranges with. -/
def JobRow.succeeded_past (source_id : Uuid) (frontier : Int) (row : JobRow) : Bool :=
  row.source_id == some source_id && row.job_type == .IngestRange && row.status == .Succeeded &&
    row.from_block.isSome && row.to_block.any fun to_block => decide (frontier < to_block)

/-- The order of pairs of blocks. -/
def range_le (a b : Int × Int) : Prop := a.1 < b.1 ∨ (a.1 = b.1 ∧ a.2 ≤ b.2)

instance : DecidableRel range_le := fun _ _ => inferInstanceAs (Decidable (_ ∨ _))

/-- The turn of the loop of `next_contiguous_checkpoint_target`. -/
def extend_target (target : Int) (range : Int × Int) : Int :=
  if range.1 ≤ i64_saturating_add target 1 ∧ target < range.2 then range.2 else target

/-- Where the checkpoint of a source stands, or would start from. -/
def checkpoint_frontier (db : Db) (source : SourceRow) : Int :=
  ((checkpoint_for_source db source.id).map (·.processed_block)).getD (source.start_block - 1)

/-- The ranges `next_contiguous_checkpoint_target` takes in order. -/
def checkpoint_ranges (db : Db) (source_id : Uuid) (frontier : Int)
    (completed_range : Option (Int × Int)) : List (Int × Int) :=
  ((db.jobs.rows.filter (JobRow.succeeded_past source_id frontier)).filterMap JobRow.range ++
    completed_range.toList).insertionSort range_le

/-- `next_contiguous_checkpoint_target`. -/
def next_contiguous_checkpoint_target (db : Db) (source : SourceRow)
    (completed_range : Option (Int × Int)) : Result (Option Int) :=
  if completed_range.any fun r => decide (r.1 < 0 ∨ r.2 < 0) then
    .error "completed range cannot be negative"
  else if completed_range.any fun r => decide (r.2 < r.1) then
    .error ((completed_range.map fun r => s!"completed range {r.1}..={r.2} is inverted").getD "")
  else
    let frontier := checkpoint_frontier db source
    let target := (checkpoint_ranges db source.id frontier completed_range).foldl extend_target
      frontier
    .ok (if frontier < target then some target else none)

/-- `LogMetadataUpdate`. -/
structure LogMetadataUpdate where
  events_updated : Nat
  ledger_entries_updated : Nat
  deriving DecidableEq, Repr

/-- `update_log_metadata`: the repair path, which does overwrite the block
number. -/
def update_log_metadata (db : Db) (source : SourceRow) (log : RpcLog) :
    Result (LogMetadataUpdate × Db) := do
  let transaction_hash := to_ascii_lowercase log.transaction_hash
  let log_index ← parse_hex_u64 log.log_index
  let block_number ← parse_hex_u64 log.block_number
  let transaction_index ← parse_optional_hex_i32 log.transaction_index
  let at_event (r : EventRow) : Bool := r.source_id == source.id && r.chain_id == source.chain_id &&
    r.transaction_hash == transaction_hash && r.log_index == as_i32 log_index
  let events ← db_result "update event log metadata" (db.events.update at_event
    (fun r => { r with
      block_number := as_i64 block_number
      block_timestamp := log.block_timestamp
      block_hash := to_ascii_lowercase log.block_hash
      transaction_index
      contract_address := to_ascii_lowercase log.address
      topics := normalized_topics log
      data := to_ascii_lowercase log.data })
    (fun _ _ => Iff.rfl))
  let at_entry (r : LedgerEntryRow) : Bool := r.source_id == source.id &&
    r.chain_id == source.chain_id && r.transaction_hash == transaction_hash &&
    r.log_index == as_i32 log_index
  let ledger_entries ← db_result "update ledger entry log metadata" (db.ledger_entries.update at_entry
    (fun r => { r with
      block_number := as_i64 block_number
      block_timestamp := log.block_timestamp
      block_hash := to_ascii_lowercase log.block_hash
      transaction_index })
    (fun _ _ => Iff.rfl))
  .ok
    ({ events_updated := (db.events.rows.filter at_event).length
       ledger_entries_updated := (db.ledger_entries.rows.filter at_entry).length },
     { db with events, ledger_entries })

end EvmIndexer
