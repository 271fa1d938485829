/-
`domain/`: the types that carry their own invariants, and the ledger entry built
from them.

An address and a hash are hex text of a fixed width, in lower case (`HexValue`);
their constructors differ in the width and in the error. A `LedgerEntry` keeps an
address only where it is not the zero address, and there is none that moves
nothing: `LedgerEntry.new` refuses an entry whose two ends are both zero.

The identities are carried along, so they are the values their newtypes wrap.
-/
import EvmIndexer.Evm
import EvmIndexer.Hex

set_option autoImplicit false

namespace EvmIndexer

/-- `DomainError`, of the constructors here. -/
inductive DomainError
  | InvalidAddress (value : String)
  | InvalidHash (field value : String)
  | InvalidAmount (value : String)
  | InvalidLedgerEntry (message : String)
  deriving DecidableEq, Repr

/-- `DomainResult`. -/
abbrev DomainResult (α : Type) : Type := Except DomainError α

/-! ## Hex values

A value that was constructed is known to be of its width and in lower case, so two of them
are equal if their texts are. The checks are on bytes: a text with a wide character is
measured by its bytes and then refused for it.
-/

/-- What the constructors check of a text: its length in bytes, its `0x`, and that
hex digits follow it. -/
def IsHexValue (digits : Nat) (value : List Char) : Prop :=
  byte_len value = digits + 2 ∧ ['0', 'x'] <+: value ∧ ∀ c ∈ value.drop 2, is_ascii_hexdigit c = true

instance (digits : Nat) (value : List Char) : Decidable (IsHexValue digits value) :=
  inferInstanceAs (Decidable (_ ∧ _ ∧ _))

/-- A text of `0x` and `digits` hex digits, in lower case. -/
structure HexValue (digits : Nat) where
  as_str : String
  valid : IsHexValue digits as_str.toList
  lower : to_ascii_lowercase as_str = as_str

/-- The normalization that `Address::new` and `validate_hex_hash` share. -/
def normalize_hex (digits : Nat) (value : String) : Option (HexValue digits) :=
  if h : IsHexValue digits (to_ascii_lowercase value).toList then
    some
      { as_str := to_ascii_lowercase value
        valid := h
        lower := to_ascii_lowercase_idem value }
  else none

/-- `Address`. -/
abbrev Address : Type := HexValue 40

/-- `Address::new`. -/
def Address.new (value : String) : DomainResult Address :=
  match normalize_hex 40 value with
  | some address => .ok address
  | none => .error (.InvalidAddress value)

/-- `Address::zero`. -/
def Address.zero : Address :=
  { as_str := "0x0000000000000000000000000000000000000000"
    valid := by decide
    lower := by decide }

/-- `Address::is_zero`. -/
def Address.is_zero (address : Address) : Bool := address.as_str == Address.zero.as_str

/-- `validate_hex_hash`. -/
def validate_hex_hash (field value : String) : DomainResult (HexValue 64) :=
  match normalize_hex 64 value with
  | some hash => .ok hash
  | none => .error (.InvalidHash field value)

/-- `BlockHash`. -/
abbrev BlockHash : Type := HexValue 64

/-- `BlockHash::new`. -/
def BlockHash.new (value : String) : DomainResult BlockHash := validate_hex_hash "block hash" value

/-- `TransactionHash`. -/
abbrev TransactionHash : Type := HexValue 64

/-- `TransactionHash::new`. -/
def TransactionHash.new (value : String) : DomainResult TransactionHash :=
  validate_hex_hash "transaction hash" value

/-! ## Amounts

An amount is text here. It becomes a number where it is stored, and whether the number fits
the column is decided there.
-/

/-- `TokenAmount`: decimal digits, at least one. -/
structure TokenAmount where
  as_str : String
  valid : as_str.toList ≠ [] ∧ as_str.toList.all Char.isDigit = true

/-- `TokenAmount::new`. -/
def TokenAmount.new (value : String) : DomainResult TokenAmount :=
  if h : value.toList ≠ [] ∧ value.toList.all Char.isDigit = true then .ok ⟨value, h⟩
  else .error (.InvalidAmount value)

/-! ## Ledger entries

The movement of an entry follows from its two ends, and the zero address is on neither end of
what is kept: a mint has no sender, a burn no receiver. An entry with neither is refused with
an error.
-/

/-- `MovementType::from_participants`. -/
def MovementType.from_participants («from» «to» : Address) : DomainResult MovementType :=
  match «from».is_zero, «to».is_zero with
  | true, false => .ok .Mint
  | false, true => .ok .Burn
  | false, false => .ok .Transfer
  | true, true => .error (.InvalidLedgerEntry "from and to cannot both be the zero address")

/-- `EventIdentity`. -/
structure EventIdentity where
  chain_id : Nat
  transaction_hash : TransactionHash
  log_index : Nat

/-- `LedgerEntryIdentity`. -/
structure LedgerEntryIdentity where
  event : EventIdentity
  batch_index : Nat

/-- `LedgerEntry`. -/
structure LedgerEntry where
  identity : LedgerEntryIdentity
  source_id : String
  token_standard : TokenStandard
  movement_type : MovementType
  operator : Option Address
  «from» : Option Address
  «to» : Option Address
  token_id : String
  amount : TokenAmount
  block_number : Nat
  block_hash : BlockHash
  contract_address : Address

/-- `LedgerEntryInput`. -/
structure LedgerEntryInput where
  identity : LedgerEntryIdentity
  source_id : String
  token_standard : TokenStandard
  operator : Option Address
  «from» : Address
  «to» : Address
  token_id : String
  amount : TokenAmount
  block_number : Nat
  block_hash : BlockHash
  contract_address : Address

/-- `(!address.is_zero()).then_some(address)`. -/
def Address.non_zero (address : Address) : Option Address :=
  if address.is_zero then none else some address

/-- `LedgerEntry::new`. -/
def LedgerEntry.new (input : LedgerEntryInput) : DomainResult LedgerEntry := do
  let movement_type ← MovementType.from_participants input.«from» input.«to»
  .ok
    { identity := input.identity
      source_id := input.source_id
      token_standard := input.token_standard
      movement_type
      operator := input.operator
      «from» := Address.non_zero input.«from»
      «to» := Address.non_zero input.«to»
      token_id := input.token_id
      amount := input.amount
      block_number := input.block_number
      block_hash := input.block_hash
      contract_address := input.contract_address }

end EvmIndexer
