/-
The data `application/evm.rs` and `application/ports.rs` exchange: logs as the RPC
returns them, logs as the decoder hands them on, and the source they belong to.
-/
import EvmIndexer.Text

set_option autoImplicit false

namespace EvmIndexer

/-- `uuid::Uuid`. -/
abbrev Uuid : Type := Nat

/-- `chrono::DateTime<Utc>`, in microseconds since the epoch. -/
abbrev Timestamp : Type := Int

/-- `TokenStandard`. -/
inductive TokenStandard
  | Auto
  | Erc20
  | Erc721
  | Erc1155
  deriving DecidableEq, Repr

/-- `TokenStandard::as_str`. -/
def TokenStandard.as_str : TokenStandard → String
  | .Auto => "auto"
  | .Erc20 => "erc20"
  | .Erc721 => "erc721"
  | .Erc1155 => "erc1155"

/-- `TokenStandard::is_auto`. -/
def TokenStandard.is_auto (standard : TokenStandard) : Bool := standard == .Auto

/-- `MovementType`, the three values of the `movement_type` column. -/
inductive MovementType
  | Mint
  | Transfer
  | Burn
  deriving DecidableEq, Repr

/-- The text of a `movement_type` column. -/
def MovementType.as_str : MovementType → String
  | .Mint => "mint"
  | .Transfer => "transfer"
  | .Burn => "burn"

/-- `RpcLog`, every field the text the RPC sent. -/
structure RpcLog where
  address : String
  topics : List String
  data : String
  block_number : String
  transaction_hash : String
  transaction_index : Option String
  log_index : String
  block_hash : String
  block_timestamp : Option Timestamp
  deriving DecidableEq, Repr

/-- `DecodedLedgerEntry`. -/
structure DecodedLedgerEntry where
  event_name : String
  token_standard : TokenStandard
  operator : Option String
  «from» : String
  «to» : String
  token_id : String
  amount : String
  batch_index : Int
  deriving DecidableEq, Repr

/-- `DecodedLog`. -/
structure DecodedLog where
  event_name : String
  entries : List DecodedLedgerEntry
  deriving DecidableEq, Repr

/-- `SourceRef`: what the `SourceDescriptor` trait reads of a source. -/
structure SourceRef where
  id : Uuid
  chain_id : Int
  contract_address : String
  token_standard : TokenStandard
  deriving DecidableEq, Repr

/-- `PersistDecodedLogsOptions`. -/
structure PersistDecodedLogsOptions where
  restore_orphaned_conflicts : Bool
  deriving DecidableEq, Repr

/-- `TokenBalanceSnapshot`, with the balance as a number. -/
structure TokenBalanceSnapshot where
  holder_address : String
  token_id : String
  balance : Int
  first_received_block : Option Int
  last_moved_block : Option Int
  deriving DecidableEq, Repr

/-- `ScanSummary`. -/
structure ScanSummary where
  source_id : Uuid
  events_seen : Nat
  events_persisted : Nat
  ledger_entries_persisted : Nat
  transaction_receipts_persisted : Nat
  holder_count : Nat
  minter_count : Nat
  top_holders : List TokenBalanceSnapshot
  deriving DecidableEq, Repr

end EvmIndexer
