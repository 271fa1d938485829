/-
`application/evm.rs`: the event decoder.

Two things it uses are outside the repository and parameters here: the hex digest
of `Keccak256` on a signature, and `BigUint::parse_bytes` in radix 16. What the
results need of them is named where it is needed (`EventTopics`, `ReadsHex`).

A topic index that the code has counted topics for is total (`RpcLog.topic`), and
the items of an array are taken off a list of words instead of being addressed by
their index.
-/
import EvmIndexer.Evm
import EvmIndexer.Hex
import EvmIndexer.Lib.Abi

set_option autoImplicit false

namespace EvmIndexer

section Decode

variable (keccak256 : String → String) (parse_bytes : List Char → Option Nat)

/-! ## Topics and shapes

`Transfer` is one signature for two standards, told apart by the number of topics and the
length of the data. So the topic alone does not say how to decode a log, and a log whose
shape is of the other standard is refused rather than skipped.
-/

/-- `event_topic`. -/
def event_topic (signature : String) : String := "0x" ++ keccak256 signature

/-- The topic of `Transfer`, ERC-20's and ERC-721's. -/
def transfer : String := event_topic keccak256 "Transfer(address,address,uint256)"

/-- The topic of ERC-1155's `TransferSingle`. -/
def transfer_single : String :=
  event_topic keccak256 "TransferSingle(address,address,address,uint256,uint256)"

/-- The topic of ERC-1155's `TransferBatch`. -/
def transfer_batch : String :=
  event_topic keccak256 "TransferBatch(address,address,address,uint256[],uint256[])"

/-- `data_word_count`. -/
def data_word_count (data : String) : Result Nat := do
  let data ← strip_0x data
  if byte_len data % 64 ≠ 0 then .error "ABI data length must be a multiple of 32 bytes"
  else .ok (byte_len data / 64)

/-- `detect_token_standard_from_log`. -/
def detect_token_standard_from_log (log : RpcLog) : Result (Option TokenStandard) :=
  match log.topics with
  | [] => .ok none
  | topic0 :: _ =>
    let topic0 := to_ascii_lowercase topic0
    if topic0 = transfer_single keccak256 ∨ topic0 = transfer_batch keccak256 then
      .ok (some .Erc1155)
    else if topic0 = transfer keccak256 then do
      let data_words ← data_word_count log.data
      match log.topics.length, data_words with
      | 4, 0 => .ok (some .Erc721)
      | 3, 1 => .ok (some .Erc20)
      | topics, data_words =>
        .error ("cannot auto-detect token standard from Transfer log " ++ log.transaction_hash ++
          ": expected ERC-721 shape with 4 topics and empty data or ERC-20 shape with 3 topics " ++
          "and one data word; got " ++ toString topics ++ " topics and " ++ toString data_words ++
          " data words")
    else .ok none

/-- `validate_transfer_shape_matches_standard`. -/
def validate_transfer_shape_matches_standard (log : RpcLog) (standard : TokenStandard) :
    Result Unit := do
  match ← detect_token_standard_from_log keccak256 log with
  | none => .ok ()
  | some other_standard =>
    if other_standard ≠ standard then
      .error ("Transfer log " ++ log.transaction_hash ++ " has " ++ other_standard.as_str ++
        " shape while decoding as " ++ standard.as_str ++ "; hybrid contracts that emit multiple " ++
        "Transfer shapes are not supported as a single source in V1")
    else .ok ()

/-! ## Words and topics

The readers of words check what they slice, each with its own message. Where the code slices
first and would panic on a cut character, the slice is an error here; when that happens is a
question of its own.
-/

/-- `require_topic_count`. -/
def require_topic_count (log : RpcLog) (expected : Nat) : Result Unit :=
  if log.topics.length ≠ expected then
    .error ("expected " ++ toString expected ++ " topics for " ++ log.transaction_hash ++ ", got " ++
      toString log.topics.length)
  else .ok ()

/-- `log.topics[index]`, once the topics were counted. -/
def RpcLog.topic (log : RpcLog) (index : Nat) : String := log.topics.getD index ""

/-- `topic_address`. -/
def topic_address (topic : String) : Result String := do
  let topic ← strip_0x topic
  if byte_len topic ≠ 64 then .error "topic must be 32 bytes"
  else
    let address ← slice topic 24 64
    .ok (to_ascii_lowercase (String.ofList ('0' :: 'x' :: address)))

/-- `word_at`. -/
def word_at (data : String) (index : Nat) : Result (List Char) := do
  let data ← strip_0x data
  if byte_len data < index * 64 + 64 then .error s!"data does not contain word {index}"
  else slice data (index * 64) (index * 64 + 64)

/-- `strip_optional_0x`. -/
def strip_optional_0x (value : List Char) : List Char :=
  match value with
  | '0' :: 'x' :: rest => rest
  | '0' :: 'X' :: rest => rest
  | value => value

/-- The number of a 32-byte word, before it is written in decimal. -/
def decode_word (word : List Char) : Result Nat :=
  let word := strip_optional_0x word
  if byte_len word ≠ 64 then .error "ABI word must be 32 bytes"
  else
    match parse_bytes word with
    | some value => .ok value
    | none => .error "invalid uint256 word"

/-- `decode_word_as_decimal`. -/
def decode_word_as_decimal (word : List Char) : Result String :=
  (decode_word parse_bytes word).map fun value => toString value

/-- `word_decimal_as_usize`, on a target with 64-bit `usize`. -/
def word_decimal_as_usize (word : List Char) : Result Nat := do
  let value ← decode_word_as_decimal parse_bytes word
  match parse_unsigned (2 ^ 64) value.toList with
  | some n => .ok n
  | none => .error ("parse ABI word as usize: " ++ value)

/-- `decode_data_words`. -/
def decode_data_words (data : String) : Result (List (List Char)) := do
  let data ← strip_0x data
  if byte_len data % 64 ≠ 0 then .error "ABI data length must be a multiple of 32 bytes"
  else (List.range (byte_len data / 64)).mapM fun i => slice data (i * 64) (i * 64 + 64)

/-- The items of `decode_dynamic_uint_array`: the first `len` of the words after the
length word, or the first error. -/
def decode_items : Nat → List (List Char) → Result (List String)
  | 0, _ => .ok []
  | _ + 1, [] => .error "dynamic array item out of bounds"
  | len + 1, word :: words => do
    let item ← decode_word_as_decimal parse_bytes word
    let items ← decode_items len words
    .ok (item :: items)

/-- `decode_dynamic_uint_array`. -/
def decode_dynamic_uint_array (words : List (List Char)) (offset_bytes : Nat) :
    Result (List String) :=
  if offset_bytes % 32 ≠ 0 then .error "dynamic array offset must be 32-byte aligned"
  else
    match words.drop (offset_bytes / 32) with
    | [] => .error "dynamic array length out of bounds"
    | len_word :: items => do
      let len ← word_decimal_as_usize parse_bytes len_word
      decode_items parse_bytes len items

/-! ## Events

Each event counts its topics, reads its arguments and builds its entries in the order of the
code, so the first check that fails gives the error. The entries of a batch are numbered with
a cast to `i32`, and a transfer of a single token has index 0.
-/

/-- `decode_transfer`. -/
def decode_transfer (log : RpcLog) (standard : TokenStandard) : Result DecodedLog := do
  let («from», «to», token_id, amount) ← (match standard with
    | .Erc20 => do
      require_topic_count log 3
      let amount ← decode_word_as_decimal parse_bytes (← word_at log.data 0)
      let «from» ← topic_address (log.topic 1)
      let «to» ← topic_address (log.topic 2)
      .ok («from», «to», "", amount)
    | .Erc721 => do
      require_topic_count log 4
      let «from» ← topic_address (log.topic 1)
      let «to» ← topic_address (log.topic 2)
      let token_id ← decode_word_as_decimal parse_bytes (← strip_0x (log.topic 3))
      .ok («from», «to», token_id, "1")
    | .Auto => .error "auto must be resolved before decoding Transfer"
    | .Erc1155 => .error "ERC-1155 transfer uses dedicated events" :
      Result (String × String × String × String))
  .ok
    { event_name := "Transfer"
      entries :=
        [{ event_name := "Transfer"
           token_standard := standard
           operator := none
           «from»
           «to»
           token_id
           amount
           batch_index := 0 }] }

/-- `decode_transfer_single`. -/
def decode_transfer_single (log : RpcLog) : Result DecodedLog := do
  require_topic_count log 4
  let token_id ← decode_word_as_decimal parse_bytes (← word_at log.data 0)
  let amount ← decode_word_as_decimal parse_bytes (← word_at log.data 1)
  let operator ← topic_address (log.topic 1)
  let «from» ← topic_address (log.topic 2)
  let «to» ← topic_address (log.topic 3)
  .ok
    { event_name := "TransferSingle"
      entries :=
        [{ event_name := "TransferSingle"
           token_standard := .Erc1155
           operator := some operator
           «from»
           «to»
           token_id
           amount
           batch_index := 0 }] }

/-- The entries of a batch. The index of an entry is cast, so it wraps. -/
def batch_entries (operator «from» «to» : String) (ids amounts : List String) :
    List DecodedLedgerEntry :=
  (ids.zip amounts).mapIdx fun index entry =>
    { event_name := "TransferBatch"
      token_standard := .Erc1155
      operator := some operator
      «from»
      «to»
      token_id := entry.1
      amount := entry.2
      batch_index := as_i32 index }

/-- `decode_transfer_batch`. -/
def decode_transfer_batch (log : RpcLog) : Result DecodedLog := do
  require_topic_count log 4
  let data ← decode_data_words log.data
  match data with
  | [] => .error "missing ids offset"
  | ids_word :: rest =>
    let ids_offset ← word_decimal_as_usize parse_bytes ids_word
    match rest with
    | [] => .error "missing amounts offset"
    | amounts_word :: _ =>
      let amounts_offset ← word_decimal_as_usize parse_bytes amounts_word
      let ids ← decode_dynamic_uint_array parse_bytes data ids_offset
      let amounts ← decode_dynamic_uint_array parse_bytes data amounts_offset
      if ids.length ≠ amounts.length then
        .error ("TransferBatch ids/amounts length mismatch: " ++ toString ids.length ++ " != " ++
          toString amounts.length)
      else
        let operator ← topic_address (log.topic 1)
        let «from» ← topic_address (log.topic 2)
        let «to» ← topic_address (log.topic 3)
        .ok
          { event_name := "TransferBatch"
            entries := batch_entries operator «from» «to» ids amounts }

/-- `decode_log`, once the standard is known. -/
def decode_log_as (log : RpcLog) (standard : TokenStandard) : Result (Option DecodedLog) :=
  match log.topics with
  | [] => .ok none
  | topic0 :: _ =>
    let topic0 := to_ascii_lowercase topic0
    if topic0 = transfer keccak256 ∧ (standard = .Erc20 ∨ standard = .Erc721) then do
      validate_transfer_shape_matches_standard keccak256 log standard
      (decode_transfer parse_bytes log standard).map some
    else if topic0 = transfer_single keccak256 ∧ standard = .Erc1155 then
      (decode_transfer_single parse_bytes log).map some
    else if topic0 = transfer_batch keccak256 ∧ standard = .Erc1155 then
      (decode_transfer_batch parse_bytes log).map some
    else .ok none

/-- `decode_log`. -/
def decode_log (log : RpcLog) (standard : TokenStandard) : Result (Option DecodedLog) := do
  if standard.is_auto then
    match ← detect_token_standard_from_log keccak256 log with
    | none => .ok none
    | some detected => decode_log_as keccak256 parse_bytes log detected
  else decode_log_as keccak256 parse_bytes log standard

end Decode

end EvmIndexer
