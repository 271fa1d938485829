/-
`application/ingest.rs`: from a range of blocks to persisted logs.

A `ChainRpc` is what the chain answers to each question of the trait. No attempt asks
a question twice, so a fixed answer to each question loses nothing; two attempts may
well see two chains. An error stands for a failed request, and for one that a
shutdown has cancelled: either way nothing after it runs.

Everything up to the decoded logs only asks, so it is a `Result` (`range_logs`);
`ingest_source_range` then commits in two transactions, the ledger and the receipts.
-/
import EvmIndexer.Backfill
import EvmIndexer.Decoder
import EvmIndexer.Service
import Mathlib.Data.List.Dedup

set_option autoImplicit false

namespace EvmIndexer

open Sql Program

/-- `ChainRpc`. -/
structure ChainRpc where
  block_number : Result Nat
  code_at : String → Nat → Result String
  block_hash : Nat → Result String
  block_timestamp : Nat → Result Timestamp
  logs : String → TokenStandard → Nat → Nat → Result (List RpcLog)
  transaction_receipt : String → Result TransactionReceipt

/-! ## Arguments

Block arguments are text from the command line. A number, in decimal or in hex with `0x`, is
taken as it is, and `latest` is the finalized head. The range is made of the two and checked
to be in order.
-/

/-- `parse_block_arg`. The prefix of a hex argument is `0x` only. -/
def parse_block_arg (value : String) (latest : Nat) : Result Nat :=
  if value = "latest" then .ok latest
  else
    match value.toList with
    | '0' :: 'x' :: hex =>
      match u64_from_hex hex with
      | some block => .ok block
      | none => .error ("parse hex block " ++ value)
    | digits =>
      match parse_unsigned (2 ^ 64) digits with
      | some block => .ok block
      | none => .error ("parse decimal block " ++ value)

/-- `normalize_address`. -/
def normalize_address (value : String) : Result String :=
  let normalized := to_ascii_lowercase value
  match normalized.toList with
  | '0' :: 'x' :: digits =>
    if byte_len normalized.toList ≠ 42 ∨ ¬ digits.all (fun c => (hex_digit c).isSome) then
      .error ("invalid EVM address: " ++ value)
    else .ok normalized
  | _ => .error ("invalid EVM address: " ++ value)

/-- `TokenStandard::from_str`. -/
def parse_token_standard (value : String) : Result TokenStandard :=
  match to_ascii_lowercase value with
  | "auto" => .ok .Auto
  | "erc20" => .ok .Erc20
  | "erc721" => .ok .Erc721
  | "erc1155" => .ok .Erc1155
  | _ => .error ("unsupported token standard: " ++ value)

/-- `ResolvedRange`. -/
structure ResolvedRange where
  «from» : Nat
  «to» : Nat
  head : Nat
  finalized_head : Nat
  deriving DecidableEq, Repr

/-- The first block of a range: the argument, or the lookback from its last block. -/
def resolve_from_block (from_block : Option String) (lookback finalized_head «to» : Nat) :
    Result Nat :=
  match from_block with
  | some value => parse_block_arg value finalized_head
  | none => .ok («to» - lookback)

/-- `resolve_finalized_range`. The block arguments are taken as they are, and compared
with each other only. -/
def resolve_finalized_range (rpc : ChainRpc) (from_block : Option String) (to_block : String)
    (lookback : Nat) (finality_confirmations : Int) : Result ResolvedRange :=
  if finality_confirmations < 0 then .error "finality-confirmations cannot be negative"
  else do
    let head ← context "fetch head block" rpc.block_number
    let finalized_head := head - finality_confirmations.toNat
    let «to» ← parse_block_arg to_block finalized_head
    let «from» ← resolve_from_block from_block lookback finalized_head «to»
    if «to» < «from» then
      .error ("from-block " ++ toString «from» ++ " cannot be greater than to-block " ++
        toString «to»)
    else .ok { «from», «to», head, finalized_head }

/-! ## Contract code

Before anything is ingested the contract must have code at both ends of the range. The answer
is text, and a bare `0x`, with or without white space around it, says that there is no code.
-/

/-- `char::is_whitespace`. -/
def is_whitespace (c : Char) : Bool :=
  (0x9 ≤ c.toNat && c.toNat ≤ 0xD) || c.toNat == 0x20 || c.toNat == 0x85 || c.toNat == 0xA0 ||
    c.toNat == 0x1680 || (0x2000 ≤ c.toNat && c.toNat ≤ 0x200A) || c.toNat == 0x2028 ||
    c.toNat == 0x2029 || c.toNat == 0x202F || c.toNat == 0x205F || c.toNat == 0x3000

/-- `str::trim`. -/
def trim (value : List Char) : List Char :=
  ((value.dropWhile is_whitespace).reverse.dropWhile is_whitespace).reverse

/-- `validate_contract_code_at_block`. -/
def validate_contract_code_at_block (rpc : ChainRpc) (contract chain_label : String) (block : Nat) :
    Result Unit := do
  let code ← context ("fetch contract code at block " ++ toString block) (rpc.code_at contract block)
  if trim code.toList = ['0', 'x'] then
    .error ("no contract code at " ++ contract ++ " on " ++ chain_label ++ " at boundary block " ++
      toString block)
  else .ok ()

/-- `validate_contract_code_at_boundaries`. -/
def validate_contract_code_at_boundaries (rpc : ChainRpc) (contract chain_label : String)
    («from» «to» : Nat) : Result Unit :=
  if «to» < «from» then
    .error ("from-block " ++ toString «from» ++ " cannot be greater than to-block " ++ toString «to»)
  else do
    validate_contract_code_at_block rpc contract chain_label «from»
    if «to» ≠ «from» then validate_contract_code_at_block rpc contract chain_label «to»
    else .ok ()

/-! ## Logs

Logs are fetched chunk by chunk, then given the timestamps of their blocks, each block asked
for once, and then decoded. A chunk that the detection of the standard has fetched is not
fetched again. The first request that fails, or the first log that cannot be decoded, is the
error of the range.
-/

/-- `PrefetchedLogChunk`. -/
structure PrefetchedLogChunk where
  «from» : Nat
  «to» : Nat
  logs : List RpcLog
  deriving DecidableEq, Repr

/-- `TokenStandardDetection`. -/
structure TokenStandardDetection where
  standard : TokenStandard
  prefetched_logs : PrefetchedLogChunk
  deriving DecidableEq, Repr

/-- `IngestOptions`, without the switch of the progress messages. -/
structure IngestOptions where
  include_transaction_receipts : Bool
  restore_orphaned_conflicts : Bool
  prefetched_logs : Option PrefetchedLogChunk
  deriving DecidableEq, Repr

/-- The loop over the chunks of a range. `ingest.rs` walks a range as `backfill.rs`
splits one. -/
def fetch_chunks (rpc : ChainRpc) (contract : String) (standard : TokenStandard) :
    Option PrefetchedLogChunk → List BackfillChunk → Result (List RpcLog)
  | _, [] => .ok []
  | prefetched_logs, chunk :: rest =>
    match prefetched_logs.filter (fun p => p.«from» = chunk.«from» ∧ p.«to» = chunk.«to») with
    | some prefetched => do
      -- the chunk of the detection is used once, and not fetched again
      let logs ← fetch_chunks rpc contract standard none rest
      .ok (prefetched.logs ++ logs)
    | none => do
      let chunk_logs ← context ("fetch contract logs " ++ toString chunk.«from» ++ "..=" ++
        toString chunk.«to») (rpc.logs contract standard chunk.«from» chunk.«to»)
      let logs ← fetch_chunks rpc contract standard prefetched_logs rest
      .ok (chunk_logs ++ logs)

/-- `fetch_logs_in_chunks_with_progress`. -/
def fetch_logs_in_chunks (rpc : ChainRpc) (contract : String) (standard : TokenStandard)
    («from» «to» chunk_size : Nat) (prefetched_logs : Option PrefetchedLogChunk) :
    Result (List RpcLog) :=
  if «to» < «from» then
    .error ("from-block " ++ toString «from» ++ " cannot be greater than to-block " ++ toString «to»)
  else if chunk_size = 0 then .error "chunk-size must be greater than zero"
  else fetch_chunks rpc contract standard prefetched_logs (split_from «from» «to» chunk_size)

/-- The distinct items of a list in ascending order, as a `BTreeSet` holds them. -/
def btree_set {α : Type} [DecidableEq α] (le : α → α → Prop) [DecidableRel le] (items : List α) :
    List α := items.dedup.insertionSort le

theorem mem_btree_set {α : Type} [DecidableEq α] {le : α → α → Prop} [DecidableRel le]
    {items : List α} {a : α} : a ∈ btree_set le items ↔ a ∈ items := by
  unfold btree_set
  rw [List.mem_insertionSort, List.mem_dedup]

/-- The block of a log. -/
def log_block (log : RpcLog) : Result Nat :=
  context "parse log block number" (parse_hex_u64 log.block_number)

/-- The timestamp of a block, with the block. -/
def fetch_block_timestamp (rpc : ChainRpc) (block : Nat) : Result (Nat × Timestamp) := do
  let timestamp ← context ("fetch block timestamp for block " ++ toString block)
    (rpc.block_timestamp block)
  .ok (block, timestamp)

/-- The log with the timestamp of its block. -/
def attach_block_timestamp (timestamps : List (Nat × Timestamp)) (log : RpcLog) : Result RpcLog := do
  let block ← log_block log
  .ok { log with block_timestamp := timestamps.lookup block }

/-- `attach_block_timestamps`. -/
def attach_block_timestamps (rpc : ChainRpc) (logs : List RpcLog) : Result (List RpcLog) := do
  let blocks ← logs.mapM log_block
  let timestamps ← (btree_set (· ≤ ·) blocks).mapM (fetch_block_timestamp rpc)
  logs.mapM (attach_block_timestamp timestamps)

section Ingest

variable (keccak256 : String → String) (parse_bytes : List Char → Option Nat)

/-- The loop of `detect_token_standard_from_logs`, after what was detected so far. -/
def detect_from_logs : Option TokenStandard → List RpcLog → Result (Option TokenStandard)
  | detected, [] => .ok detected
  | detected, log :: rest => do
    match ← detect_token_standard_from_log keccak256 log with
    | none => detect_from_logs detected rest
    | some candidate =>
      match detected with
      | none => detect_from_logs (some candidate) rest
      | some existing =>
        if existing ≠ candidate then
          .error ("conflicting token standards detected in logs: " ++ existing.as_str ++ " and " ++
            candidate.as_str ++ "; pass --standard erc20, --standard erc721, or --standard " ++
            "erc1155 explicitly for hybrid contracts")
        else detect_from_logs detected rest

/-- `detect_token_standard_from_logs`. -/
def detect_token_standard_from_logs (logs : List RpcLog) : Result (Option TokenStandard) :=
  detect_from_logs keccak256 none logs

/-- The loop of `detect_token_standard_with_prefetched_logs`. -/
def detect_in_chunks (rpc : ChainRpc) (contract : String) :
    List BackfillChunk → Result (Option TokenStandardDetection)
  | [] => .ok none
  | chunk :: rest => do
    let logs ← context ("fetch contract logs for token standard detection " ++
      toString chunk.«from» ++ "..=" ++ toString chunk.«to»)
      (rpc.logs contract .Auto chunk.«from» chunk.«to»)
    match ← detect_token_standard_from_logs keccak256 logs with
    | some standard =>
      .ok (some { standard
                  prefetched_logs := { «from» := chunk.«from», «to» := chunk.«to», logs } })
    | none => detect_in_chunks rpc contract rest

/-- `detect_token_standard_with_prefetched_logs`. -/
def detect_token_standard_with_prefetched_logs (rpc : ChainRpc) (contract : String)
    («from» «to» chunk_size : Nat) : Result TokenStandardDetection :=
  if «to» < «from» then
    .error ("from-block " ++ toString «from» ++ " cannot be greater than to-block " ++ toString «to»)
  else if chunk_size = 0 then .error "chunk-size must be greater than zero"
  else do
    match ← detect_in_chunks keccak256 rpc contract (split_from «from» «to» chunk_size) with
    | some detection => .ok detection
    | none =>
      .error ("could not auto-detect token standard for " ++ contract ++ " over blocks " ++
        toString «from» ++ "..=" ++ toString «to» ++
        "; no ERC-20, ERC-721, or ERC-1155 transfer logs were found")

/-- The standard a range is ingested under, and the chunk its detection has fetched. -/
def source_standard (rpc : ChainRpc) (source : SourceRef) («from» «to» chunk_size : Nat)
    (prefetched_logs : Option PrefetchedLogChunk) :
    Result (TokenStandard × Option PrefetchedLogChunk) :=
  if source.token_standard.is_auto then do
    let detection ← context "detect source token standard"
      (detect_token_standard_with_prefetched_logs keccak256 rpc source.contract_address «from» «to»
        chunk_size)
    .ok (detection.standard, some detection.prefetched_logs)
  else .ok (source.token_standard, prefetched_logs)

/-- The loop that decodes the logs: those of no event of the standard are dropped. -/
def decode_logs (standard : TokenStandard) : List RpcLog → Result (List (RpcLog × DecodedLog))
  | [] => .ok []
  | log :: rest => do
    match ← context "decode log" (decode_log keccak256 parse_bytes log standard) with
    | some decoded_log => do
      let decoded ← decode_logs standard rest
      .ok ((log, decoded_log) :: decoded)
    | none => decode_logs standard rest

/-- What `ingest_source_range` persists: the decoded logs of the range. -/
def range_logs (rpc : ChainRpc) (source : SourceRef) («from» «to» chunk_size : Nat)
    (prefetched_logs : Option PrefetchedLogChunk) : Result (List (RpcLog × DecodedLog)) :=
  if «to» < «from» then
    .error ("from-block " ++ toString «from» ++ " cannot be greater than to-block " ++ toString «to»)
  else if chunk_size = 0 then .error "chunk-size must be greater than zero"
  else do
    let (standard, prefetched_logs) ← source_standard keccak256 rpc source «from» «to» chunk_size
      prefetched_logs
    let logs ← fetch_logs_in_chunks rpc source.contract_address standard «from» «to» chunk_size
      prefetched_logs
    let logs ← attach_block_timestamps rpc logs
    decode_logs keccak256 parse_bytes standard logs

/-- `fetch_transaction_receipts`. -/
def fetch_transaction_receipts (rpc : ChainRpc) (transaction_hashes : List String) :
    Result (List TransactionReceipt) :=
  transaction_hashes.mapM fun transaction_hash =>
    context ("fetch transaction receipt " ++ transaction_hash)
      (rpc.transaction_receipt transaction_hash)

variable (parseAmount : AmountParser)

/-- `ingest_source_range`. -/
def ingest_source_range (rpc : ChainRpc) (source : SourceRef) («from» «to» chunk_size : Nat)
    (options : IngestOptions) : Job ScanSummary := do
  transaction fun service => .ok ((), { service with
    ingested := { source_id := source.id, «from», «to» } :: service.ingested })
  let decoded ← ask (range_logs keccak256 parse_bytes rpc source «from» «to» chunk_size
    options.prefetched_logs)
  let summary ← ledger fun db => context "persist ledger"
    (persist_decoded_logs_with_options parseAmount db source decoded
      { restore_orphaned_conflicts := options.restore_orphaned_conflicts })
  if options.include_transaction_receipts then
    let receipts ← ask (context "fetch transaction receipts" (fetch_transaction_receipts rpc
      (btree_set (· ≤ ·) (decoded.map fun log => to_ascii_lowercase log.1.transaction_hash))))
    let transaction_receipts_persisted ← transaction fun service =>
      context "persist transaction receipts"
        (persist_transaction_receipts parse_bytes service source.chain_id receipts)
    return { summary with transaction_receipts_persisted }
  else return summary

end Ingest

section Keeping

variable {keccak256 : String → String} {parse_bytes : List Char → Option Nat}
  {parseAmount : AmountParser} {rpc : ChainRpc} {R : Service → Service → Prop}

/-- An ingest has up to three transactions, each in tables of its own: it notes the range, it
persists what it has decoded, and it stores the receipts. What all three keep, it keeps. -/
theorem ingest_source_range_keeps (hrefl : ∀ s, R s s) (htrans : ∀ {s t u}, R s t → R t u → R s u)
    {source : SourceRef} {«from» «to» chunk_size : Nat} {options : IngestOptions}
    (hnoted : ∀ s : Service, R s { s with
      ingested := { source_id := source.id, «from», «to» } :: s.ingested })
    (hpersisted : ∀ decoded, range_logs keccak256 parse_bytes rpc source «from» «to» chunk_size
        options.prefetched_logs = .ok decoded →
      ∀ (s : Service) summary db, persist_decoded_logs_with_options parseAmount s.db source decoded
        { restore_orphaned_conflicts := options.restore_orphaned_conflicts } = .ok (summary, db) →
      R s { s with db })
    (hreceipts : ∀ (s : Service) transaction_receipts, R s { s with transaction_receipts }) :
    Keeps R (ingest_source_range keccak256 parse_bytes parseAmount rpc source «from» «to» chunk_size
      options) := by
  unfold ingest_source_range
  refine Keeps.bind (R := R) htrans (Keeps.transaction hrefl fun s _ t h => ?_) fun _ => ?_
  · cases h
    exact hnoted s
  refine Keeps.ask_bind hrefl fun decoded hdecoded => ?_
  refine Keeps.bind (R := R) htrans (Keeps.transaction hrefl fun s _ t h => ?_) fun summary => ?_
  · simp only [EvmIndexer.bind_eq_ok, context_eq_ok] at h
    obtain ⟨⟨_, db⟩, hpersist, h⟩ := h
    cases h
    exact hpersisted decoded hdecoded s _ db hpersist
  split
  · refine Keeps.ask_bind hrefl fun receipts _ => ?_
    refine Keeps.bind (R := R) htrans (Keeps.transaction hrefl fun s _ t h => ?_) fun _ =>
      Keeps.pure hrefl _
    unfold persist_transaction_receipts at h
    simp only [EvmIndexer.bind_eq_ok, context_eq_ok] at h
    obtain ⟨transaction_receipts, -, h⟩ := h
    cases h
    exact hreceipts s transaction_receipts
  · exact Keeps.pure hrefl _

end Keeping

/-! ## What the logs of a range have

What the endpoint answers is not known, but what is assumed of every log it returns holds of
every log that is persisted, since nothing on the way invents one: the chunks join, the
timestamps are added, and the decoder keeps the log beside what it decodes.
-/

/-- Every log the chain returns of blocks up to `last` has the property. -/
def ChainRpc.Serves (rpc : ChainRpc) (last : Nat) (P : RpcLog → Prop) : Prop :=
  ∀ contract standard «from» «to» logs, «to» ≤ last →
    rpc.logs contract standard «from» «to» = .ok logs → ∀ log ∈ logs, P log

/-- No chunk goes past the range. -/
theorem le_of_mem_split_from {first last range_size : Nat} {chunk : BackfillChunk}
    (h : chunk ∈ split_from first last range_size) : chunk.«to» ≤ last := by
  fun_induction split_from first last range_size with
  | case1 range_from hmore ih =>
    rcases List.mem_cons.1 h with rfl | h
    · exact min_le_right _ _
    · split at h
      · cases h
      · rename_i hend
        exact ih hend h
  | case2 => cases h

section Serves

variable {rpc : ChainRpc} {last : Nat} {P : RpcLog → Prop}

theorem fetch_chunks_forall (hrpc : rpc.Serves last P) {contract : String}
    {standard : TokenStandard} {prefetched_logs : Option PrefetchedLogChunk}
    {chunks : List BackfillChunk} {logs : List RpcLog}
    (hprefetched : ∀ p ∈ prefetched_logs, ∀ log ∈ p.logs, P log)
    (hchunks : ∀ chunk ∈ chunks, chunk.«to» ≤ last)
    (h : fetch_chunks rpc contract standard prefetched_logs chunks = .ok logs) :
    ∀ log ∈ logs, P log := by
  induction chunks generalizing prefetched_logs logs with
  | nil =>
    cases h
    exact fun log hlog => absurd hlog List.not_mem_nil
  | cons chunk rest ih =>
    have hrest := fun c hc => hchunks c (List.mem_cons_of_mem _ hc)
    unfold fetch_chunks at h
    split at h
    · -- the chunk was prefetched
      rename_i p hfilter
      obtain ⟨hmem, -⟩ := Option.filter_eq_some_iff.1 hfilter
      rw [bind_eq_ok] at h
      obtain ⟨others, hothers, h⟩ := h
      cases h
      intro log hlog
      rcases List.mem_append.1 hlog with hlog | hlog
      · exact hprefetched p hmem log hlog
      · exact ih (fun p hnone => absurd hnone (Option.not_mem_none p)) hrest hothers log hlog
    · -- the chunk is fetched
      simp only [bind_eq_ok, context_eq_ok] at h
      obtain ⟨fetched, hfetched, others, hothers, h⟩ := h
      cases h
      intro log hlog
      rcases List.mem_append.1 hlog with hlog | hlog
      · exact hrpc _ _ _ _ _ (hchunks chunk (List.mem_cons_self ..)) hfetched log hlog
      · exact ih hprefetched hrest hothers log hlog

theorem attach_block_timestamps_forall
    (hstamp : ∀ log block_timestamp, P log → P { log with block_timestamp }) {logs stamped : List RpcLog}
    (h : attach_block_timestamps rpc logs = .ok stamped) (hlogs : ∀ log ∈ logs, P log) :
    ∀ log ∈ stamped, P log := by
  unfold attach_block_timestamps at h
  simp only [bind_eq_ok] at h
  obtain ⟨_, -, timestamps, -, h⟩ := h
  intro log hlog
  obtain ⟨old, hold, hattach⟩ := exists_of_mapM_eq_ok h hlog
  unfold attach_block_timestamp at hattach
  rw [bind_eq_ok] at hattach
  obtain ⟨block, -, hattach⟩ := hattach
  cases hattach
  exact hstamp old _ (hlogs old hold)

variable {keccak256 : String → String} {parse_bytes : List Char → Option Nat}

theorem mem_of_decode_logs {standard : TokenStandard} {logs : List RpcLog}
    {decoded : List (RpcLog × DecodedLog)}
    (h : decode_logs keccak256 parse_bytes standard logs = .ok decoded) :
    ∀ log ∈ decoded, log.1 ∈ logs := by
  induction logs generalizing decoded with
  | nil =>
    cases h
    exact fun log hlog => absurd hlog List.not_mem_nil
  | cons first rest ih =>
    unfold decode_logs at h
    rw [bind_eq_ok] at h
    obtain ⟨result, -, h⟩ := h
    cases result with
    | none => exact fun log hlog => List.mem_cons_of_mem _ (ih h log hlog)
    | some decoded_log =>
      simp only [bind_eq_ok] at h
      obtain ⟨others, hothers, h⟩ := h
      cases h
      intro log hlog
      rcases List.mem_cons.1 hlog with rfl | hlog
      · exact List.mem_cons_self ..
      · exact List.mem_cons_of_mem _ (ih hothers log hlog)

theorem detect_in_chunks_forall (hrpc : rpc.Serves last P) {contract : String}
    {chunks : List BackfillChunk} {detection : TokenStandardDetection}
    (hchunks : ∀ chunk ∈ chunks, chunk.«to» ≤ last)
    (h : detect_in_chunks keccak256 rpc contract chunks = .ok (some detection)) :
    ∀ log ∈ detection.prefetched_logs.logs, P log := by
  induction chunks with
  | nil => cases h
  | cons chunk rest ih =>
    unfold detect_in_chunks at h
    simp only [bind_eq_ok, context_eq_ok] at h
    obtain ⟨fetched, hfetched, found, -, h⟩ := h
    cases found with
    | none => exact ih (fun c hc => hchunks c (List.mem_cons_of_mem _ hc)) h
    | some standard =>
      cases h
      exact hrpc _ _ _ _ _ (hchunks chunk (List.mem_cons_self ..)) hfetched

theorem detect_token_standard_forall (hrpc : rpc.Serves last P) {contract : String}
    {«from» chunk_size : Nat} {detection : TokenStandardDetection}
    (h : detect_token_standard_with_prefetched_logs keccak256 rpc contract «from» last chunk_size
      = .ok detection) :
    ∀ log ∈ detection.prefetched_logs.logs, P log := by
  unfold detect_token_standard_with_prefetched_logs at h
  simp only [bail_eq_ok, bind_eq_ok] at h
  obtain ⟨-, -, found, hfound, h⟩ := h
  cases found with
  | none => cases h
  | some found =>
    cases h
    exact detect_in_chunks_forall hrpc (fun _ => le_of_mem_split_from) hfound

/-- What every returned log has, timestamps apart, every decoded log of the range has. -/
theorem range_logs_forall (hrpc : rpc.Serves last P)
    (hstamp : ∀ log block_timestamp, P log → P { log with block_timestamp }) {source : SourceRef}
    {«from» chunk_size : Nat} {prefetched_logs : Option PrefetchedLogChunk}
    (hprefetched : ∀ p ∈ prefetched_logs, ∀ log ∈ p.logs, P log)
    {decoded : List (RpcLog × DecodedLog)}
    (h : range_logs keccak256 parse_bytes rpc source «from» last chunk_size prefetched_logs
      = .ok decoded) :
    ∀ log ∈ decoded, P log.1 := by
  unfold range_logs at h
  simp only [bail_eq_ok, bind_eq_ok] at h
  obtain ⟨-, -, ⟨standard, prefetched⟩, hstandard, fetched, hfetched, stamped, hstamped, h⟩ := h
  -- the prefetched chunk is the caller's, or that of the detection
  have hchosen : ∀ p ∈ prefetched, ∀ log ∈ p.logs, P log := by
    unfold source_standard at hstandard
    split at hstandard
    · simp only [bind_eq_ok, context_eq_ok] at hstandard
      obtain ⟨detection, hdetection, hstandard⟩ := hstandard
      cases hstandard
      intro p hp
      rw [← Option.some.inj hp]
      exact detect_token_standard_forall hrpc hdetection
    · cases hstandard
      exact hprefetched
  have hlogs : ∀ log ∈ fetched, P log := by
    unfold fetch_logs_in_chunks at hfetched
    simp only [bail_eq_ok] at hfetched
    exact fetch_chunks_forall hrpc hchosen (fun _ => le_of_mem_split_from) hfetched.2.2
  exact fun log hlog => attach_block_timestamps_forall hstamp hstamped hlogs log.1
    (mem_of_decode_logs h log hlog)

end Serves

end EvmIndexer
