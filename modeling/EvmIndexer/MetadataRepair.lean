/-
`backfill-event-metadata`, repeated.

The command asks about the lowest blocks in which the source has an event without metadata, no
more than its limit, and writes what the RPC returns for them over the stored rows. An event
whose log the RPC no longer returns (an orphaned one, say) keeps missing its metadata, and its
block is asked about again each time.

The events that miss metadata are a worklist (`repair_desk`), and the command is one pass over
it (`missing_events_backfilled`). So repeating it repairs all it can just if no block with an
event that cannot be repaired keeps the others out (`repairs_all_iff`,
`repairs_all_in_place_iff`).
-/
import EvmIndexer.Finality
import EvmIndexer.OrphanStatements
import EvmIndexer.Stored
import EvmIndexer.Lib.Worklist

set_option autoImplicit false

namespace EvmIndexer

open Sql Program Worklist

/-! ## The command

The command has a limit on blocks, not on events. It takes the lowest blocks that have an
event without metadata, asks for the timestamp and the logs of each, and repairs the rows of
every log that is returned, whether or not they missed anything.
-/

/-- The row misses its timestamp, its transaction index or its topics. -/
def EventRow.misses_metadata (row : EventRow) : Bool :=
  row.block_timestamp.isNone || row.transaction_index.isNone || row.topics == []

/-- The events of the source that miss metadata. -/
def missing_events (db : Db) (source_id : Uuid) : List EventRow :=
  db.events.rows.filter fun row => row.source_id == source_id && row.misses_metadata

/-- How many blocks a limit asks for: `limit.clamp(1, 10_000)`. -/
def window_blocks (limit : Int) : Nat := (max 1 (min limit 10000)).toNat

/-- `event_blocks_missing_metadata`. -/
def event_blocks_missing_metadata (db : Db) (source_id : Uuid) (limit : Int) : List Int :=
  (((missing_events db source_id).map EventRow.block_number).dedup.insertionSort (· ≤ ·)).take
    (window_blocks limit)

/-- What `backfill_event_metadata` prints. -/
structure MetadataBackfill where
  blocks : Nat
  rpc_logs_seen : Nat
  events_updated : Nat
  ledger_entries_updated : Nat
  deriving DecidableEq, Repr

/-- `u64::try_from` on a stored block number. -/
def u64_try_from (block : Int) : Result Nat :=
  if 0 ≤ block then .ok block.toNat else .error "out of range integral type conversion attempted"

/-- The arguments of the command, checked: the contract. -/
def backfill_event_metadata_args (chain_id : Int) (contract : String) (limit_blocks : Int) :
    Result String := do
  let contract ← normalize_address contract
  if chain_id ≤ 0 then .error "chain-id must be greater than zero"
  else if limit_blocks ≤ 0 then .error "limit-blocks must be greater than zero"
  else .ok contract

/-- The source the command is about. -/
def backfill_source (db : Db) (chain_id : Int) (contract : String) : Result SourceRow :=
  match source_by_contract db chain_id contract with
  | some source => .ok source
  | none => .error "contract source not found"

section Command

variable (rpc : ChainRpc)

/-- What a turn of the outer loop of `backfill_event_metadata` asks the RPC. -/
def fetch_block_logs (source : SourceRow) (block : Int) : Result (Timestamp × List RpcLog) := do
  let block ← context "indexed block number cannot be negative" (u64_try_from block)
  let timestamp ← context s!"fetch block timestamp for block {block}" (rpc.block_timestamp block)
  let logs ← context s!"fetch contract logs for block {block}"
    (rpc.logs source.contract_address source.token_standard block block)
  .ok (timestamp, logs)

/-- A turn of its inner loop. -/
def backfill_log (source : SourceRow) (timestamp : Timestamp) (done : MetadataBackfill)
    (log : RpcLog) : Job MetadataBackfill := do
  let update ← ledger fun db => context "update indexed log metadata"
    (update_log_metadata db source { log with block_timestamp := some timestamp })
  return { done with
    events_updated := done.events_updated + update.events_updated
    ledger_entries_updated := done.ledger_entries_updated + update.ledger_entries_updated }

/-- A turn of its outer loop. -/
def backfill_block (source : SourceRow) (done : MetadataBackfill) (block : Int) :
    Job MetadataBackfill := do
  let (timestamp, logs) ← ask (fetch_block_logs rpc source block)
  logs.foldlM (backfill_log source timestamp)
    { done with rpc_logs_seen := done.rpc_logs_seen + logs.length }

/-- `backfill_event_metadata`. Where no block is left, the loop makes no turn. -/
def backfill_event_metadata (chain_id : Int) (contract : String) (limit_blocks : Int) :
    Job MetadataBackfill := do
  let contract ← ask (backfill_event_metadata_args chain_id contract limit_blocks)
  let service ← get
  let source ← ask (backfill_source service.db chain_id contract)
  let blocks := event_blocks_missing_metadata service.db source.id limit_blocks
  blocks.foldlM (backfill_block rpc source)
    { blocks := blocks.length, rpc_logs_seen := 0, events_updated := 0
      ledger_entries_updated := 0 }

/-- What the command leaves after some repetitions. Each goes on from what the last has left,
also where it ended in an error. -/
def backfilled (chain_id : Int) (contract : String) (limit_blocks : Int) : Nat → Service → Service :=
  Nat.iterate fun service =>
    left (backfill_event_metadata rpc chain_id contract limit_blocks service)

end Command

/-! ## What a repair does

A repair by a complete log fills all three columns. It also writes the block of the row, so a
row that was stored in another block moves to the block of its log.
-/

/-- A log that carries what a repair writes: topics, a transaction index, and a block number and
a log index that can be read. -/
structure RpcLog.Complete (log : RpcLog) : Prop where
  topics : log.topics ≠ []
  transaction_index : ∃ index, parse_optional_hex_i32 log.transaction_index = .ok (some index)
  log_index : ∃ index, parse_hex_u64 log.log_index = .ok index
  block_number : ∃ number, parse_hex_u64 log.block_number = .ok number ∧ number < 2 ^ 63

/-- The RPC returns the logs of mined blocks that match a topic, and these are complete: a
pending log has no block, and a filter by topic returns none without one. -/
def ChainRpc.CompleteLogs (rpc : ChainRpc) : Prop :=
  ∀ contract standard «from» «to» logs, rpc.logs contract standard «from» «to» = .ok logs →
    ∀ log ∈ logs, log.Complete

/-- The log is the one the row was stored for, and the row is one a repair of the source
reaches. -/
def EventRow.is_of_log (source : SourceRow) (log : RpcLog) (row : EventRow) : Bool :=
  row.source_id == source.id && row.chain_id == source.chain_id &&
    (row.transaction_hash, some row.log_index) == stored_key log

/-- A transaction index is never negative. -/
theorem parse_optional_hex_i32_nonneg {text : Option String} {index : Int}
    (h : parse_optional_hex_i32 text = .ok (some index)) : 0 ≤ index := by
  cases text with
  | none => cases h
  | some value =>
    unfold parse_optional_hex_i32 parse_hex_i32 at h
    simp only [bind_eq_ok] at h
    obtain ⟨_, ⟨parsed, -, hparsed⟩, h⟩ := h
    cases h
    split at hparsed
    · cases hparsed
    · cases hparsed
      exact Int.natCast_nonneg parsed

/-- What is written for a complete log: after it an event misses nothing, the rows it is
written to are those of the log, and the values pass the checks of the table. -/
theorem RpcLog.Complete.metadata {log : RpcLog} (h : log.Complete) (timestamp : Timestamp) :
    ∃ metadata, log_metadata { log with block_timestamp := some timestamp } = .ok metadata ∧
      (∀ row : EventRow, (metadata.set_event row).misses_metadata = false) ∧
      (∀ (source : SourceRow) (row : EventRow),
        metadata.is_of_event source row = row.is_of_log source log) ∧
      (0 ≤ metadata.block_number ∧ metadata.block_number < 2 ^ 63) ∧
      NullOrNonneg metadata.transaction_index := by
  obtain ⟨index, hindex⟩ := h.transaction_index
  obtain ⟨log_index, hlog_index⟩ := h.log_index
  obtain ⟨number, hnumber, hfits⟩ := h.block_number
  have hstored : as_i64 number = number := as_i64_of_lt hfits
  have hcolumn : (number : Int) < 2 ^ 63 := by exact_mod_cast hfits
  have hkey : stored_key log = (to_ascii_lowercase log.transaction_hash, some (as_i32 log_index)) := by
    unfold stored_key
    rw [hlog_index]
    rfl
  unfold log_metadata
  simp only [hindex, hlog_index, hnumber, ok_bind, hstored]
  generalize as_i32 log_index = stored_index at hkey
  refine ⟨_, rfl, fun row => ?_, fun source row => ?_, ⟨Int.natCast_nonneg number, hcolumn⟩,
    parse_optional_hex_i32_nonneg hindex⟩
  · -- a complete log has a topic, so the list that is written is not empty
    have htopics : normalized_topics log ≠ [] := by
      unfold normalized_topics
      exact fun hnil => h.topics (List.map_eq_nil_iff.1 hnil)
    unfold EventRow.misses_metadata LogMetadata.set_event
    simpa [normalized_topics] using htopics
  · unfold LogMetadata.is_of_event EventRow.is_of_log
    rw [hkey, Bool.and_assoc]
    rfl

/-- What repairs with the logs leave of a service: the events they are of miss nothing, the
others are as they were. -/
structure Repairs (source : SourceRow) (logs : List RpcLog) (s t : Service) : Prop where
  missing : missing_events t.db source.id
    = (missing_events s.db source.id).filter fun row => !logs.any fun log => row.is_of_log source log
  sources : t.db.sources = s.db.sources

theorem Repairs.refl (source : SourceRow) (s : Service) : Repairs source [] s s :=
  ⟨(List.filter_eq_self.2 fun _ _ => rfl).symm, rfl⟩

theorem Repairs.trans {source : SourceRow} {logs logs' : List RpcLog} {s t u : Service}
    (h : Repairs source logs s t) (h' : Repairs source logs' t u) :
    Repairs source (logs ++ logs') s u := by
  refine ⟨?_, h'.sources.trans h.sources⟩
  rw [h'.missing, h.missing, List.filter_filter]
  refine List.filter_congr fun row _ => ?_
  rw [List.any_append, Bool.not_or, Bool.and_comm]

/-- A complete log is written, and the call cannot fail: the values it sets are no keys, so
no row can clash, and the checks of the table accept them. -/
theorem backfill_log_spec {log : RpcLog} (hlog : log.Complete) (source : SourceRow)
    (timestamp : Timestamp) (done : MetadataBackfill) (s : Service) :
    ∃ done' t, backfill_log source timestamp done log s = .ok done' t ∧
      Repairs source [log] s t := by
  obtain ⟨metadata, hmetadata, hset, hof, hblock, hindex⟩ := hlog.metadata timestamp
  -- neither update can break a check of its table
  obtain ⟨events, hevents⟩ : ∃ events, s.db.events.update (metadata.is_of_event source)
      metadata.set_event metadata.set_event_keeps_keys = some events := by
    refine Table.exists_update fun row hrow _ => ?_
    obtain ⟨-, hlog_index, -, -, hlog_fits⟩ := s.db.events.checked row hrow
    exact ⟨hblock.1, hlog_index, hindex, hblock.2, hlog_fits⟩
  obtain ⟨entries, hentries⟩ : ∃ entries, s.db.ledger_entries.update (metadata.is_of_entry source)
      metadata.set_entry metadata.set_entry_keeps_keys = some entries := by
    refine Table.exists_update fun row hrow _ => ?_
    obtain ⟨hstandard, hamount, hfits, hbatch, -, hlog_index, -, hparties, -, hlog_fits, hbatch_fits⟩ :=
      s.db.ledger_entries.checked row hrow
    exact ⟨hstandard, hamount, hfits, hbatch, hblock.1, hlog_index, hindex, hparties, hblock.2,
      hlog_fits, hbatch_fits⟩
  have hrun : ∃ update, update_log_metadata s.db source { log with block_timestamp := some timestamp }
      = .ok (update, { s.db with events, ledger_entries := entries }) := by
    rw [update_log_metadata_eq, hmetadata, ok_bind, hevents, hentries]
    exact ⟨_, rfl⟩
  obtain ⟨update, hupdate⟩ := hrun
  unfold backfill_log
  refine ⟨_, _, Program.bind_eq_ok.2 ⟨update, { s with db := { s.db with events, ledger_entries := entries } },
    ledger_eq_ok.2 ⟨context_eq_ok.2 hupdate, rfl⟩, rfl⟩, ?_, rfl⟩
  -- a row of the log misses nothing afterwards, any other row is as before
  have hrows := (Table.update_eq_some.1 hevents).2
  unfold missing_events
  rw [hrows, Table.filter_map_setRow fun row => ?_]
  · refine List.filter_congr fun row _ => ?_
    rw [hof, List.any_cons, List.any_nil, Bool.or_false]
  · rw [hset, Bool.and_false]

/-- So is every log of an answer. -/
theorem backfill_logs_spec {logs : List RpcLog} (hlogs : ∀ log ∈ logs, log.Complete)
    (source : SourceRow) (timestamp : Timestamp) (done : MetadataBackfill) (s : Service) :
    ∃ done' t, logs.foldlM (backfill_log source timestamp) done s = .ok done' t ∧
      Repairs source logs s t := by
  induction logs generalizing done s with
  | nil => exact ⟨done, s, rfl, Repairs.refl source s⟩
  | cons log logs ih =>
    obtain ⟨done', m, hlog, hm⟩ := backfill_log_spec (hlogs log (List.mem_cons_self ..)) source
      timestamp done s
    obtain ⟨result, t, hrest, ht⟩ := ih (fun other hother => hlogs other (List.mem_cons_of_mem _ hother))
      done' m
    refine ⟨result, t, ?_, hm.trans ht⟩
    rw [List.foldlM_cons]
    exact Program.bind_eq_ok.2 ⟨done', m, hlog, hrest⟩

/-! ## A pass over the worklist

A `Desk` of the library has items that wait at places, and a pass visits the lowest places up
to a limit and settles what is answered for there. The items are the events that miss
metadata, and they wait at their blocks.
-/

section Pass

variable (rpc : ChainRpc) (source : SourceRow)

/-- The logs of a block that the RPC is asked about, none where it does not answer. -/
def returned_logs (block : Int) : List RpcLog :=
  match fetch_block_logs rpc source block with
  | .ok answer => answer.2
  | .error _ => []

/-- The command as passes over the events that miss metadata, which wait at their blocks. -/
def repair_desk (limit_blocks : Int) : Desk EventRow Int where
  place := EventRow.block_number
  limit := window_blocks limit_blocks
  answers block := (fetch_block_logs rpc source block).isOk
  settles block row := (returned_logs rpc source block).any fun log => row.is_of_log source log

/-- The RPC returns the log of the event for some block. -/
def Repairable (row : EventRow) : Prop :=
  ∃ block, ∃ log ∈ returned_logs rpc source block, row.is_of_log source log = true

theorem repair_desk_answers (limit_blocks block : Int) :
    (repair_desk rpc source limit_blocks).answers block
      = (fetch_block_logs rpc source block).isOk := rfl

variable {rpc source}

/-- An answer has the logs of one block. -/
theorem logs_of_fetch {block : Int} {answer : Timestamp × List RpcLog}
    (h : fetch_block_logs rpc source block = .ok answer) :
    ∃ number, rpc.logs source.contract_address source.token_standard number number
      = .ok answer.2 := by
  unfold fetch_block_logs at h
  simp only [EvmIndexer.bind_eq_ok, context_eq_ok] at h
  obtain ⟨number, -, timestamp, -, logs, hlogs, h⟩ := h
  cases h
  exact ⟨number, hlogs⟩

theorem mem_returned_logs {block : Int} {log : RpcLog} :
    log ∈ returned_logs rpc source block
      ↔ ∃ answer, fetch_block_logs rpc source block = .ok answer ∧ log ∈ answer.2 := by
  unfold returned_logs
  cases fetch_block_logs rpc source block <;> simp

variable (source)

/-- The loop over the blocks repairs what is returned for them, up to the first that the RPC
does not answer for. -/
theorem backfill_blocks_spec (hrpc : rpc.CompleteLogs) (limit_blocks : Int)
    (blocks : List Int) (done : MetadataBackfill) (s : Service) :
    Repairs source
      ((blocks.takeWhile (repair_desk rpc source limit_blocks).answers).flatMap
        (returned_logs rpc source))
      s (left (blocks.foldlM (backfill_block rpc source) done s)) := by
  induction blocks generalizing done s with
  | nil => exact Repairs.refl source s
  | cons block blocks ih =>
    rw [List.foldlM_cons, List.takeWhile_cons, bind_run]
    cases hfetch : fetch_block_logs rpc source block with
    -- the loop stops at the first block the RPC does not answer for
    | error e =>
      have hanswers : (repair_desk rpc source limit_blocks).answers block = false := by
        rw [repair_desk_answers, hfetch]
        rfl
      have hblock : backfill_block rpc source done block s = .error e s :=
        Program.bind_eq_error.2 (Or.inl (ask_eq_error.2 ⟨hfetch, rfl⟩))
      rw [hblock, hanswers]
      exact Repairs.refl source s
    | ok answer =>
      have hanswers : (repair_desk rpc source limit_blocks).answers block = true := by
        rw [repair_desk_answers, hfetch]
        rfl
      have hreturned : returned_logs rpc source block = answer.2 := by
        unfold returned_logs
        rw [hfetch]
      -- the logs of an answer are complete, so each of them is written
      have hcomplete : ∀ log ∈ answer.2, log.Complete := by
        obtain ⟨number, hlogs⟩ := logs_of_fetch hfetch
        exact hrpc _ _ _ _ _ hlogs
      obtain ⟨done', m, hlogs, hm⟩ := backfill_logs_spec hcomplete source answer.1
        { done with rpc_logs_seen := done.rpc_logs_seen + answer.2.length } s
      have hblock : backfill_block rpc source done block s = .ok done' m :=
        Program.bind_eq_ok.2 ⟨answer, s, ask_eq_ok.2 ⟨hfetch, rfl⟩, hlogs⟩
      rw [hblock, hanswers, if_pos rfl, List.flatMap_cons, hreturned]
      exact hm.trans (ih done' m)

end Pass

section Runs

variable {rpc : ChainRpc} {chain_id : Int} {contract : String} {limit_blocks : Int}
  {source : SourceRow}

/-- The arguments of the command are accepted, and name the source. Otherwise the command
ends before it looks at an event, and repeating it changes nothing. -/
def NamesSource (db : Db) (chain_id : Int) (contract : String) (limit_blocks : Int)
    (source : SourceRow) : Prop :=
  ∃ address, backfill_event_metadata_args chain_id contract limit_blocks = .ok address ∧
    backfill_source db chain_id address = .ok source

/-- The command is a pass over the events that miss metadata, and leaves the sources alone. -/
theorem missing_events_backfilled (hrpc : rpc.CompleteLogs) {s : Service}
    (hsource : NamesSource s.db chain_id contract limit_blocks source) :
    let t := left (backfill_event_metadata rpc chain_id contract limit_blocks s)
    missing_events t.db source.id
        = (repair_desk rpc source limit_blocks).pass (missing_events s.db source.id) ∧
      t.db.sources = s.db.sources := by
  obtain ⟨address, hargs, hfound⟩ := hsource
  have hrun := backfill_blocks_spec source hrpc limit_blocks
    (event_blocks_missing_metadata s.db source.id limit_blocks)
    { blocks := (event_blocks_missing_metadata s.db source.id limit_blocks).length
      rpc_logs_seen := 0, events_updated := 0, ledger_entries_updated := 0 } s
  unfold backfill_event_metadata
  rw [hargs, ask_ok_bind, left_get_bind, hfound, ask_ok_bind]
  refine ⟨?_, hrun.sources⟩
  rw [hrun.missing]
  refine List.filter_congr fun row _ => ?_
  rw [List.any_flatMap]
  rfl

/-- Its repetitions are passes. -/
theorem missing_events_iterate (hrpc : rpc.CompleteLogs) {s : Service}
    (hsource : NamesSource s.db chain_id contract limit_blocks source) (n : Nat) :
    missing_events (backfilled rpc chain_id contract limit_blocks n s).db source.id
      = (repair_desk rpc source limit_blocks).pass^[n] (missing_events s.db source.id) := by
  unfold backfilled
  induction n generalizing s with
  | zero => rfl
  | succ n ih =>
    obtain ⟨hmissing, hsources⟩ := missing_events_backfilled hrpc hsource
    have hnext : NamesSource (left (backfill_event_metadata rpc chain_id contract limit_blocks s)).db
        chain_id contract limit_blocks source := by
      obtain ⟨address, hargs, hfound⟩ := hsource
      refine ⟨address, hargs, ?_⟩
      unfold backfill_source source_by_contract at hfound ⊢
      rw [hsources]
      exact hfound
    rw [Function.iterate_succ_apply, Function.iterate_succ_apply, ih hnext, hmissing]

/-! ## Repeating the command

An event that is never repaired keeps its block in the window. With as many of these as the
limit, the window never moves on. The condition is about the first event that could be
repaired, at each point of the repetition, and is exact.
-/

variable (rpc chain_id contract limit_blocks source)

/-- From some repetition on, no event misses metadata that the RPC returns a log for. Events
it returns none for, of a fork perhaps, may stay as they are. -/
def RepairsAll (service : Service) : Prop :=
  ∃ n, ∀ m ≥ n, ∀ row ∈ missing_events (backfilled rpc chain_id contract limit_blocks m service).db
    source.id, ¬ Repairable rpc source row

/-- As long as such an event is left, one of them is repaired next: the RPC returns its log for a
block that has an event without metadata, fewer than the limit of blocks below have one, and
the RPC answers for these and for the block. -/
def Unstarved (db : Db) : Prop :=
  (∃ row ∈ missing_events db source.id, Repairable rpc source row) →
    (repair_desk rpc source limit_blocks).Served (missing_events db source.id)

variable {rpc chain_id contract limit_blocks source}

/-- Repeating the command repairs every event it can just if events that stay without metadata
never keep all others out of its window. -/
theorem repairs_all_iff (hrpc : rpc.CompleteLogs) {service : Service}
    (hsource : NamesSource service.db chain_id contract limit_blocks source) :
    RepairsAll rpc chain_id contract limit_blocks source service ↔
      ∀ n, Unstarved rpc limit_blocks source
        (backfilled rpc chain_id contract limit_blocks n service).db := by
  unfold RepairsAll Unstarved
  simp only [missing_events_iterate hrpc hsource]
  exact Desk.settles_all_iff (Repairable rpc source)

/-! ## Events at the blocks of their logs

Where every event is stored in the block its log is returned for, the condition can be read
off the table once and need not be followed through the repetitions.
-/

/-- No log of an event that misses metadata is returned for another block than the event is
stored in. -/
def LogsAtBlocks (rpc : ChainRpc) (source : SourceRow) (db : Db) : Prop :=
  ∀ row ∈ missing_events db source.id, ∀ block, ∀ log ∈ returned_logs rpc source block,
    row.is_of_log source log = true → block = row.block_number

/-- An event whose log is returned is repaired once its block is asked about. -/
theorem settleable_iff {db : Db} (hplace : LogsAtBlocks rpc source db) {row : EventRow}
    (hrow : row ∈ missing_events db source.id) :
    (repair_desk rpc source limit_blocks).settleable row = true ↔ Repairable rpc source row := by
  unfold Desk.settleable
  rw [Bool.and_eq_true]
  constructor
  · rintro ⟨-, hsettles⟩
    exact ⟨row.block_number, List.any_eq_true.1 hsettles⟩
  · rintro ⟨block, log, hlog, hof⟩
    obtain rfl := hplace row hrow block log hlog hof
    refine ⟨?_, List.any_eq_true.2 ⟨log, hlog, hof⟩⟩
    obtain ⟨answer, hfetch, -⟩ := mem_returned_logs.1 hlog
    show (fetch_block_logs rpc source row.block_number).isOk = true
    rw [hfetch]
    rfl

/-- Where events are stored at the blocks of their logs, repeating the command repairs every
event it can just if each of these has fewer than the limit of blocks below it with an event
that cannot be repaired, and the RPC answers for every block below it. -/
theorem repairs_all_in_place_iff (hrpc : rpc.CompleteLogs) {service : Service}
    (hsource : NamesSource service.db chain_id contract limit_blocks source)
    (hplace : LogsAtBlocks rpc source service.db) :
    RepairsAll rpc chain_id contract limit_blocks source service ↔
      ∀ row ∈ missing_events service.db source.id, Repairable rpc source row →
        (repair_desk rpc source limit_blocks).Clear (missing_events service.db source.id) row := by
  -- a log settles an event only from the block the event is stored at
  have hdesk : (repair_desk rpc source limit_blocks).InPlace (missing_events service.db source.id) := by
    intro row hrow block _ hsettles
    obtain ⟨log, hlog, hof⟩ := List.any_eq_true.1 hsettles
    exact hplace row hrow block log hlog hof
  have hpasses := Desk.settles_all_in_place_iff hdesk
  unfold RepairsAll
  simp only [missing_events_iterate hrpc hsource]
  constructor
  · rintro ⟨n, hdone⟩ row hrow hrepairable
    refine hpasses.1 ⟨n, fun m hm other hother hsettled => ?_⟩ row hrow
      ((settleable_iff hplace hrow).2 hrepairable)
    exact hdone m hm other hother
      ((settleable_iff hplace (Desk.mem_of_mem_iterate hother)).1 hsettled)
  · intro hclear
    obtain ⟨n, hdone⟩ := hpasses.2 fun row hrow hsettled =>
      hclear row hrow ((settleable_iff hplace hrow).1 hsettled)
    exact ⟨n, fun m hm row hrow hrepairable => hdone m hm row hrow
      ((settleable_iff hplace (Desk.mem_of_mem_iterate hrow)).2 hrepairable)⟩

end Runs

/-! ## An orphaned event below a repairable one -/

/-- A mint in block 1 that a reorg has removed, and one in block 2 that the chain has. Both rows
miss their timestamp. -/
def orphan_below : Service :=
  { db := (small_ledger [erc20_transfer "0x1" "0xb1" "0xd1" zero_address alice,
        erc20_transfer "0x2" "0xb2" "0xd2" zero_address bob] ++
      [LedgerOp.orphan_source_range small_source 1 1]).foldl (LedgerOp.commit plain_digits) Db.empty
    chains := []
    transaction_receipts := []
    reorg_events := []
    ingested := [] }

/-- What the chain has. -/
def second_mint_rpc : ChainRpc :=
  small_rpc 50 toString [(erc20_transfer "0x2" "0xb2" "0xd2" zero_address bob).1]

theorem second_mint_rpc_completeLogs : second_mint_rpc.CompleteLogs := by
  intro contract standard «from» «to» logs h log hlog
  rw [← Except.ok.inj h] at hlog
  rw [List.mem_singleton.1 (List.mem_filter.1 hlog).1]
  exact ⟨by decide, ⟨0, by decide⟩, ⟨0, by decide⟩, 2, by decide, by decide⟩

theorem namesSource_orphan_below (limit_blocks : Int) (h : 0 < limit_blocks) :
    NamesSource orphan_below.db 1 small_source.contract_address limit_blocks small_source := by
  refine ⟨small_source.contract_address, ?_, by decide +kernel⟩
  have haddress : normalize_address small_source.contract_address
      = .ok small_source.contract_address := by decide +kernel
  unfold backfill_event_metadata_args
  rw [haddress, ok_bind, if_neg (by decide), if_neg (not_le.2 h)]

/-- The event of such a mint, as it is stored. -/
def mint_row (id : Uuid) (block_number : Int) (block_hash transaction_hash «to» : String)
    (orphaned : Bool) : EventRow :=
  { id
    source_id := small_source.id
    chain_id := 1
    block_number
    block_timestamp := none
    block_hash
    transaction_hash
    transaction_index := some 0
    log_index := 0
    contract_address := small_source.contract_address
    event_name := "Transfer"
    topics := ["0xddf252ad1be2c89b69c2b068fc378daa952ba7f163c4a11628f55a4df523b3ef",
      address_topic zero_address, address_topic «to»]
    data := "0x0000000000000000000000000000000000000000000000000000000000000005"
    args := (erc20_transfer "" "" "" zero_address «to»).2.entries
    finalized := true
    orphaned }

theorem missing_orphan_below : missing_events orphan_below.db small_source.id
    = [mint_row 1 1 "0xb1" "0xd1" alice true, mint_row 4 2 "0xb2" "0xd2" bob false] := by
  decide +kernel

/-- The RPC has no log of the first mint. -/
theorem not_repairable_first :
    ¬ Repairable second_mint_rpc small_source (mint_row 1 1 "0xb1" "0xd1" alice true) := by
  rintro ⟨block, log, hlog, hof⟩
  have hsecond : log = (erc20_transfer "0x2" "0xb2" "0xd2" zero_address bob).1 := by
    obtain ⟨answer, hfetch, hlog⟩ := mem_returned_logs.1 hlog
    obtain ⟨number, hlogs⟩ := logs_of_fetch hfetch
    rw [← Except.ok.inj hlogs] at hlog
    exact List.mem_singleton.1 (List.mem_filter.1 hlog).1
  rw [hsecond] at hof
  revert hof
  decide

/-- It has that of the second. -/
theorem repairable_second :
    Repairable second_mint_rpc small_source (mint_row 4 2 "0xb2" "0xd2" bob false) :=
  ⟨2, by decide +kernel⟩

/-- One block at a time: the orphaned event is asked about again and again. -/
theorem orphaned_event_starves_repairs :
    second_mint_rpc.CompleteLogs ∧
      NamesSource orphan_below.db 1 small_source.contract_address 1 small_source ∧
      (∃ row ∈ missing_events orphan_below.db small_source.id,
        Repairable second_mint_rpc small_source row) ∧
      ¬ RepairsAll second_mint_rpc 1 small_source.contract_address 1 small_source orphan_below := by
  have hsource := namesSource_orphan_below 1 (by decide)
  have hsecond : mint_row 4 2 "0xb2" "0xd2" bob false
      ∈ missing_events orphan_below.db small_source.id := by
    rw [missing_orphan_below]
    exact List.mem_cons_of_mem _ (List.mem_singleton_self _)
  refine ⟨second_mint_rpc_completeLogs, hsource, ⟨_, hsecond, repairable_second⟩, ?_⟩
  rintro ⟨n, hdone⟩
  have hpass : (repair_desk second_mint_rpc small_source 1).pass
      (missing_events orphan_below.db small_source.id)
        = missing_events orphan_below.db small_source.id := by
    rw [missing_orphan_below]
    decide +kernel
  have hsame := missing_events_iterate second_mint_rpc_completeLogs hsource n
  rw [Function.iterate_fixed hpass] at hsame
  exact hdone n le_rfl _ (hsame ▸ hsecond) repairable_second

/-- Two blocks at a time. -/
theorem repairs_all_iff_two_blocks :
    RepairsAll second_mint_rpc 1 small_source.contract_address 2 small_source orphan_below := by
  have hsource := namesSource_orphan_below 2 (by decide)
  refine (repairs_all_iff second_mint_rpc_completeLogs hsource).2 fun n => ?_
  unfold Unstarved
  rw [missing_events_iterate second_mint_rpc_completeLogs hsource, missing_orphan_below]
  cases n with
  | zero =>
    refine fun _ => ⟨2, ?_, ?_, ?_, ?_⟩
    · decide +kernel
    · decide +kernel
    · decide +kernel
    · decide +kernel
  | succ n =>
    -- only the orphaned event is left
    rintro ⟨row, hrow, hrepairable⟩
    have hpass : (repair_desk second_mint_rpc small_source 2).pass
        [mint_row 1 1 "0xb1" "0xd1" alice true, mint_row 4 2 "0xb2" "0xd2" bob false]
          = [mint_row 1 1 "0xb1" "0xd1" alice true] := by
      decide +kernel
    rw [Function.iterate_succ_apply, hpass] at hrow
    rw [List.mem_singleton.1 (Desk.mem_of_mem_iterate hrow)] at hrepairable
    exact absurd hrepairable not_repairable_first

end EvmIndexer
