/-
`application/reorg.rs`: verifying indexed blocks against the chain, and what a replay
repairs of what verification reports.

Verification compares two kinds of hashes with the chain's: those of the non-orphaned
events of the range, and that of the checkpoint where it lies in the range. A replay
writes the first kind anew and never moves a checkpoint. So after a replay, against the
chain it was replayed from, an event is reported only if it kept a block its log is no
longer in, and the checkpoint is reported exactly when its block is one the chain has
replaced.
-/
import EvmIndexer.Attempts

set_option autoImplicit false

namespace EvmIndexer

open Sql Program

/-! ## Verification

The expected hashes are a set, so an event and the checkpoint with one hash are asked about
once. The mismatches come in the order of their blocks, and neighbours are joined to ranges
as they are recorded. A request that fails ends the verification before anything is recorded.
-/

/-- `IndexedBlockHash`. -/
structure IndexedBlockHash where
  block_number : Int
  block_hash : String
  deriving DecidableEq, Repr

/-- The derived order: by block number, then by hash. -/
def IndexedBlockHash.le (a b : IndexedBlockHash) : Prop :=
  a.block_number < b.block_number ∨ (a.block_number = b.block_number ∧ a.block_hash ≤ b.block_hash)

instance : DecidableRel IndexedBlockHash.le := fun _ _ => inferInstanceAs (Decidable (_ ∨ _))

/-- `ReorgVerification`. -/
structure ReorgVerification where
  source_id : Uuid
  checked_blocks : Nat
  mismatches : List ReorgMismatch
  deriving DecidableEq, Repr

/-- `indexed_block_hashes`. -/
def indexed_block_hashes (db : Db) (source_id : Uuid) (from_block to_block : Int) :
    List IndexedBlockHash :=
  btree_set IndexedBlockHash.le ((db.events.rows.filter
    (EventRow.active_in source_id from_block to_block)).map fun e =>
      { block_number := e.block_number, block_hash := e.block_hash })

/-- The checkpoint of a source, where it lies in the range. -/
def checkpoint_block_hash (db : Db) (source_id : Uuid) (from_block to_block : Int) :
    Option IndexedBlockHash :=
  (checkpoint_for_source db source_id).bind fun checkpoint =>
    if from_block ≤ checkpoint.processed_block ∧ checkpoint.processed_block ≤ to_block then
      some
        { block_number := checkpoint.processed_block, block_hash := checkpoint.processed_block_hash }
    else none

/-- The hashes verification expects, each once. -/
def expected_block_hashes (db : Db) (source_id : Uuid) (from_block to_block : Int) :
    List IndexedBlockHash :=
  btree_set IndexedBlockHash.le (indexed_block_hashes db source_id from_block to_block ++
    (checkpoint_block_hash db source_id from_block to_block).toList)

/-- The mismatch of an expected hash and the chain's. -/
def IndexedBlockHash.mismatch (indexed : IndexedBlockHash) (actual : String) : ReorgMismatch :=
  { block_number := indexed.block_number
    expected_block_hash := to_ascii_lowercase indexed.block_hash
    actual_block_hash := to_ascii_lowercase actual }

/-- The loop of `verify_source_reorgs`. -/
def block_mismatches (rpc : ChainRpc) : List IndexedBlockHash → Result (List ReorgMismatch)
  | [] => .ok []
  | indexed :: rest => do
    let actual ← context ("fetch canonical block hash " ++ toString indexed.block_number)
      (rpc.block_hash indexed.block_number.toNat)
    let mismatches ← block_mismatches rpc rest
    if to_ascii_lowercase indexed.block_hash ≠ to_ascii_lowercase actual then
      .ok (indexed.mismatch actual :: mismatches)
    else .ok mismatches

/-- The loop of `record_reorg_ranges`: a range goes on while the next mismatch is of the
next block. -/
def reorg_ranges (range : List ReorgMismatch) (previous : ReorgMismatch) :
    List ReorgMismatch → List (List ReorgMismatch)
  | [] => [range]
  | mismatch :: rest =>
    if mismatch.block_number = previous.block_number + 1 then
      reorg_ranges (range ++ [mismatch]) mismatch rest
    else range :: reorg_ranges [mismatch] mismatch rest

/-- The event a range of mismatches is recorded as. -/
def reorg_event (source : SourceRef) (first last : ReorgMismatch) (range : List ReorgMismatch) :
    ReorgEventInsert :=
  { source_id := source.id
    chain_id := source.chain_id
    from_block := first.block_number
    to_block := last.block_number
    expected_block_hash := some first.expected_block_hash
    actual_block_hash := some first.actual_block_hash
    replay_job_id := none
    mismatches := range }

/-- `record_reorg_range`. -/
def record_reorg_range (source : SourceRef) (range : List ReorgMismatch) : Job Unit :=
  match range.head?, range.getLast? with
  | some first, some last => transaction fun service => context "record reorg event"
      (record_reorg_event service (reorg_event source first last range))
  | _, _ => throw "reorg range cannot be empty"

/-- The records of the ranges, one after the other. -/
def record_each (source : SourceRef) : List (List ReorgMismatch) → Job Unit
  | [] => return ()
  | range :: rest => do
    record_reorg_range source range
    record_each source rest

/-- `record_reorg_ranges`. -/
def record_reorg_ranges (source : SourceRef) : List ReorgMismatch → Job Unit
  | [] => return ()
  | first :: rest => record_each source (reorg_ranges [first] first rest)

/-- `i64::try_from` on a block argument. -/
def block_try_from (argument : String) (block : Nat) : Result Int :=
  if 2 ^ 63 ≤ block then .error (argument ++ " exceeds postgres bigint storage") else .ok (block : Int)

/-- `verify_source_reorgs`. -/
def verify_source_reorgs (rpc : ChainRpc) (source : SourceRef) (from_block to_block : Nat) :
    Job ReorgVerification := do
  if to_block < from_block then
    throw ("from-block " ++ toString from_block ++ " cannot be greater than to-block " ++
      toString to_block)
  else
    let «from» ← ask (block_try_from "from-block" from_block)
    let «to» ← ask (block_try_from "to-block" to_block)
    let service ← get
    let expected := expected_block_hashes service.db source.id «from» «to»
    let mismatches ← ask (block_mismatches rpc expected)
    record_reorg_ranges source mismatches
    return { source_id := source.id, checked_blocks := expected.length, mismatches }

/-! ## Against one chain

Against a chain with one hash for each block, the mismatches are read off the table. Where
the hashes of the events are the chain's, what is left is the checkpoint, if its block is in
the range.
-/

/-- The hash is the chain's, up to letter case. -/
def Canonical (canonical : Nat → String) (indexed : IndexedBlockHash) : Prop :=
  to_ascii_lowercase indexed.block_hash
    = to_ascii_lowercase (canonical indexed.block_number.toNat)

instance (canonical : Nat → String) : DecidablePred (Canonical canonical) :=
  fun _ => inferInstanceAs (Decidable (_ = _))

/-- The chain returned the log, for blocks up to `last`. -/
def ChainRpc.Returns (rpc : ChainRpc) (last : Nat) (log : RpcLog) : Prop :=
  ∃ contract standard «from» «to» logs, «to» ≤ last ∧
    rpc.logs contract standard «from» «to» = .ok logs ∧ log ∈ logs

/-- The RPC serves one chain: every block has its hash, every returned log the hash of
its block, and a log is in one block. -/
structure ChainRpc.ServesChain (rpc : ChainRpc) (canonical : Nat → String) : Prop where
  block_hash : ∀ n, rpc.block_hash n = .ok (canonical n)
  log_hash : ∀ last log n, rpc.Returns last log → parse_hex_u64 log.block_number = .ok n →
    to_ascii_lowercase log.block_hash = to_ascii_lowercase (canonical n)
  one_block : ∀ last a b, rpc.Returns last a → rpc.Returns last b → stored_key a = stored_key b →
    (parse_hex_u64 a.block_number).toOption = (parse_hex_u64 b.block_number).toOption

section Verify

variable {rpc : ChainRpc} {canonical : Nat → String}

/-- Against one chain, the mismatches are the expected hashes that are not the chain's. -/
theorem block_mismatches_eq (hchain : ∀ n, rpc.block_hash n = .ok (canonical n))
    (expected : List IndexedBlockHash) :
    block_mismatches rpc expected = .ok ((expected.filter fun indexed =>
      ¬ Canonical canonical indexed).map fun indexed =>
        indexed.mismatch (canonical indexed.block_number.toNat)) := by
  induction expected with
  | nil => rfl
  | cons indexed rest ih =>
    unfold block_mismatches
    rw [hchain, ih]
    by_cases hcanonical : Canonical canonical indexed
    · have hsame : ¬ to_ascii_lowercase indexed.block_hash
          ≠ to_ascii_lowercase (canonical indexed.block_number.toNat) := not_not.2 hcanonical
      simp only [context, bind, Except.bind, if_neg hsame]
      rw [List.filter_cons_of_neg (by simpa using hcanonical)]
    · have hother : to_ascii_lowercase indexed.block_hash
          ≠ to_ascii_lowercase (canonical indexed.block_number.toNat) := hcanonical
      simp only [context, bind, Except.bind, if_pos hother]
      rw [List.filter_cons_of_pos (by simpa using hcanonical), List.map_cons]

theorem expected_nodup (db : Db) (source_id : Uuid) (from_block to_block : Int) :
    (expected_block_hashes db source_id from_block to_block).Nodup := by
  unfold expected_block_hashes btree_set
  exact (List.perm_insertionSort _ _).nodup_iff.2 (List.nodup_dedup _)

/-- A list without repetitions whose selected items are all one item selects it at most
once. -/
theorem filter_eq_of_unique {α : Type} {items : List α} (hnodup : items.Nodup) {p : α → Bool} {c : α}
    (h : ∀ x ∈ items, p x = true → x = c) : items.filter p = [] ∨ items.filter p = [c] := by
  have hall : ∀ x ∈ items.filter p, x = c := fun x hx =>
    h x (List.mem_filter.1 hx).1 (List.mem_filter.1 hx).2
  have hfilter := hnodup.filter p
  cases hitems : items.filter p with
  | nil => exact Or.inl rfl
  | cons x rest =>
    rw [hitems] at hall hfilter
    have hx : x = c := hall x (List.mem_cons_self ..)
    cases rest with
    | nil => exact Or.inr (by rw [hx])
    | cons y others =>
      have hy : y = c := hall y (List.mem_cons_of_mem _ (List.mem_cons_self ..))
      have hne := (List.nodup_cons.1 hfilter).1
      exact absurd (hy ▸ hx ▸ List.mem_cons_self ..) hne

/-- Verification returns the mismatches, once they are recorded. -/
theorem verify_source_reorgs_returns {source : SourceRef} {from_block to_block : Nat}
    (hordered : from_block ≤ to_block) (hto : to_block < 2 ^ 63) {s t : Service}
    {mismatches : List ReorgMismatch}
    (hmismatches : block_mismatches rpc (expected_block_hashes s.db source.id from_block to_block)
      = .ok mismatches)
    (hrecord : record_reorg_ranges source mismatches s = .ok () t) :
    verify_source_reorgs rpc source from_block to_block s = .ok
      { source_id := source.id
        checked_blocks := (expected_block_hashes s.db source.id from_block to_block).length
        mismatches } t := by
  have hfrom_fits : block_try_from "from-block" from_block = .ok (from_block : Int) := by
    unfold block_try_from
    rw [if_neg (by omega)]
  have hto_fits : block_try_from "to-block" to_block = .ok (to_block : Int) := by
    unfold block_try_from
    rw [if_neg (by omega)]
  unfold verify_source_reorgs
  rw [if_neg (not_lt.2 hordered), hfrom_fits, hto_fits]
  simp only [Program.bind_eq_ok, ask_eq_ok, get_eq_ok, Program.pure_eq_ok]
  exact ⟨_, s, ⟨rfl, rfl⟩, _, s, ⟨rfl, rfl⟩, s, s, ⟨rfl, rfl⟩, mismatches, s, ⟨hmismatches, rfl⟩,
    (), t, hrecord, rfl, rfl⟩

/-- The checkpoint of the source is out of the range, or its hash is the chain's. A replay
rewrites the events and entries of its range and leaves the checkpoint row alone, whose hash
is verified with theirs. -/
def CheckpointCanonical (canonical : Nat → String) (db : Db) (source_id : Uuid)
    (from_block to_block : Int) : Prop :=
  ∀ indexed ∈ checkpoint_block_hash db source_id from_block to_block, Canonical canonical indexed

/-- One mismatch is one range, and goes into the table. -/
theorem record_one_mismatch (source : SourceRef) (mismatch : ReorgMismatch)
    (hblock : 0 ≤ mismatch.block_number) (s : Service) :
    record_reorg_ranges source [mismatch] s = .ok () { s with
      reorg_events := s.reorg_events ++ [(reorg_event source mismatch mismatch [mismatch]).row] } := by
  have hfits : ¬ (mismatch.block_number < 0 ∨ mismatch.block_number < 0 ∨
      mismatch.block_number < mismatch.block_number) := by omega
  have hrecord : record_reorg_range source [mismatch] s = .ok () { s with
      reorg_events := s.reorg_events ++ [(reorg_event source mismatch mismatch [mismatch]).row] } := by
    unfold record_reorg_range
    refine transaction_eq_ok.2 ?_
    rw [context_eq_ok]
    unfold record_reorg_event
    exact if_neg hfits
  unfold record_reorg_ranges reorg_ranges record_each
  rw [Program.bind_eq_ok]
  exact ⟨(), _, hrecord, rfl⟩

/-- Where the events of a range have the hashes of the chain, verification reports the
checkpoint or nothing. -/
theorem verify_of_canonical_events (hchain : ∀ n, rpc.block_hash n = .ok (canonical n))
    (source : SourceRef) {from_block to_block : Nat} (hordered : from_block ≤ to_block)
    (hto : to_block < 2 ^ 63) {s : Service}
    (hevents : ∀ e ∈ s.db.events.rows, e.active_in source.id from_block to_block = true →
      Canonical canonical { block_number := e.block_number, block_hash := e.block_hash }) :
    ∃ verification t, verify_source_reorgs rpc source from_block to_block s = .ok verification t ∧
      (verification.mismatches = [] ∧ t.reorg_events = s.reorg_events ↔
        CheckpointCanonical canonical s.db source.id from_block to_block) ∧
      ∀ mismatch ∈ verification.mismatches,
        ∃ indexed ∈ checkpoint_block_hash s.db source.id from_block to_block,
          mismatch = indexed.mismatch (canonical indexed.block_number.toNat) := by
  -- an expected hash that is not the chain's is not one of the events
  have hbad : ∀ indexed ∈ expected_block_hashes s.db source.id from_block to_block,
      ¬ Canonical canonical indexed →
        indexed ∈ checkpoint_block_hash s.db source.id from_block to_block := by
    intro indexed hindexed hbad
    unfold expected_block_hashes at hindexed
    rw [mem_btree_set, List.mem_append, Option.mem_toList] at hindexed
    refine hindexed.resolve_left fun hindexed => hbad ?_
    unfold indexed_block_hashes at hindexed
    rw [mem_btree_set] at hindexed
    obtain ⟨e, he, rfl⟩ := List.mem_map.1 hindexed
    exact hevents e (List.mem_filter.1 he).1 (List.mem_filter.1 he).2
  have hmismatches := block_mismatches_eq hchain
    (expected_block_hashes s.db source.id from_block to_block)
  cases hcheckpoint : checkpoint_block_hash s.db source.id from_block to_block with
  | none =>
    have hnone : (expected_block_hashes s.db source.id from_block to_block).filter
        (fun indexed => ¬ Canonical canonical indexed) = [] := by
      refine List.filter_eq_nil_iff.2 fun indexed hindexed hindexed_bad => ?_
      have hmem := hbad indexed hindexed (of_decide_eq_true hindexed_bad)
      rw [hcheckpoint] at hmem
      exact absurd hmem (Option.not_mem_none indexed)
    rw [hnone] at hmismatches
    refine ⟨_, s, verify_source_reorgs_returns hordered hto hmismatches rfl, ?_, ?_⟩
    · refine ⟨fun _ indexed hindexed => ?_, fun _ => ⟨rfl, rfl⟩⟩
      rw [hcheckpoint] at hindexed
      exact absurd hindexed (Option.not_mem_none indexed)
    · exact fun mismatch hmem => absurd hmem List.not_mem_nil
  | some checkpoint =>
    have hmem : checkpoint ∈ expected_block_hashes s.db source.id from_block to_block := by
      unfold expected_block_hashes
      rw [mem_btree_set, List.mem_append, hcheckpoint]
      exact Or.inr (Option.mem_toList.2 rfl)
    have hunique := filter_eq_of_unique (expected_nodup s.db source.id from_block to_block)
      (p := fun indexed => ¬ Canonical canonical indexed) (c := checkpoint)
      (fun indexed hindexed hindexed_bad => by
        have hmem := hbad indexed hindexed (of_decide_eq_true hindexed_bad)
        rw [hcheckpoint] at hmem
        exact (Option.some.inj hmem).symm)
    by_cases hcanonical : Canonical canonical checkpoint
    · have hnone := hunique.resolve_right fun hone => by
        have hchecked := List.mem_filter.1 (hone ▸ List.mem_singleton_self checkpoint)
        exact of_decide_eq_true hchecked.2 hcanonical
      rw [hnone] at hmismatches
      refine ⟨_, s, verify_source_reorgs_returns hordered hto hmismatches rfl, ?_, ?_⟩
      · refine ⟨fun _ indexed hindexed => ?_, fun _ => ⟨rfl, rfl⟩⟩
        rw [hcheckpoint] at hindexed
        exact Option.some.inj hindexed ▸ hcanonical
      · exact fun mismatch hmem => absurd hmem List.not_mem_nil
    · have hone := hunique.resolve_left fun hnone => by
        have hchecked := List.filter_eq_nil_iff.1 hnone checkpoint hmem
        exact hchecked (decide_eq_true hcanonical)
      rw [hone] at hmismatches
      -- the one range of the one mismatch goes into the table
      have hblock : (from_block : Int) ≤ checkpoint.block_number := by
        unfold checkpoint_block_hash at hcheckpoint
        obtain ⟨row, -, hrow⟩ := Option.bind_eq_some_iff.1 hcheckpoint
        split at hrow
        · rename_i hin
          cases hrow
          exact hin.1
        · cases hrow
      have hrecord := record_one_mismatch source
        (checkpoint.mismatch (canonical checkpoint.block_number.toNat))
        (show 0 ≤ checkpoint.block_number by omega) s
      have hreorgs : ∀ event, s.reorg_events ++ [event] ≠ s.reorg_events := by
        intro event heq
        exact absurd (congrArg List.length heq) (by simp)
      refine ⟨_, _, verify_source_reorgs_returns hordered hto hmismatches hrecord, ?_, ?_⟩
      · refine ⟨fun hempty => absurd hempty.2 (hreorgs _), fun hcheckpoint_canonical => ?_⟩
        exact absurd (hcheckpoint_canonical checkpoint hcheckpoint) hcanonical
      · intro mismatch hmismatch
        exact ⟨checkpoint, rfl, List.mem_singleton.1 hmismatch⟩

end Verify

/-! ## A replay that succeeds

An attempt that processes its job has committed both transactions and advanced no checkpoint,
as this is only done for the other type of job.
-/

section Replay

variable {keccak256 : String → String} {parse_bytes : List Char → Option Nat}
  {parseAmount : AmountParser} {rpc : ChainRpc} {s t : Service}

/-- Ingesting that returns has persisted the logs of the range. -/
theorem ingest_source_range_returns {source : SourceRef} {«from» «to» chunk_size : Nat}
    {options : IngestOptions} {summary : ScanSummary}
    (h : ingest_source_range keccak256 parse_bytes parseAmount rpc source «from» «to» chunk_size
      options s = .ok summary t) :
    ∃ decoded persisted,
      range_logs keccak256 parse_bytes rpc source «from» «to» chunk_size options.prefetched_logs
        = .ok decoded ∧
      persist_decoded_logs_with_options parseAmount s.db source decoded
        { restore_orphaned_conflicts := options.restore_orphaned_conflicts }
          = .ok (persisted, t.db) := by
  unfold ingest_source_range at h
  rw [Program.bind_eq_ok] at h
  obtain ⟨_, noted, hnoted, h⟩ := h
  rw [transaction_eq_ok] at hnoted
  cases hnoted
  rw [Program.bind_eq_ok] at h
  obtain ⟨decoded, asked, hasked, h⟩ := h
  obtain ⟨hdecoded, rfl⟩ := ask_eq_ok.1 hasked
  rw [Program.bind_eq_ok] at h
  obtain ⟨persisted, stored, hpersisted, h⟩ := h
  obtain ⟨hpersist, -⟩ := ledger_eq_ok.1 hpersisted
  rw [context_eq_ok] at hpersist
  refine ⟨decoded, persisted, hdecoded, ?_⟩
  -- the receipts are in a table of their own
  have hdb : t.db = stored.db := by
    split at h
    · rw [Program.bind_eq_ok] at h
      obtain ⟨receipts, asked, hasked, h⟩ := h
      obtain ⟨-, rfl⟩ := ask_eq_ok.1 hasked
      rw [Program.bind_eq_ok] at h
      obtain ⟨_, with_receipts, hreceipts, h⟩ := h
      obtain ⟨-, rfl⟩ := Program.pure_eq_ok.1 h
      rw [transaction_eq_ok, context_eq_ok] at hreceipts
      unfold persist_transaction_receipts at hreceipts
      simp only [context_eq_ok, EvmIndexer.bind_eq_ok] at hreceipts
      obtain ⟨_, -, hreceipts⟩ := hreceipts
      cases hreceipts
      rfl
    · obtain ⟨-, rfl⟩ := Program.pure_eq_ok.1 h
      rfl
  rw [hdb]
  exact hpersist

/-- What a replay that succeeds has done: both transactions, first the orphaning of its range
and then the persisting of what the chain has returned for it. The checkpoint is in neither.
-/
theorem execute_job_replays {worker : IngestWorker} {job : JobRow} {summary : ScanSummary}
    (hreplay : job.job_type = .ReplayRange)
    (h : execute_job keccak256 parse_bytes parseAmount rpc worker job s = .ok summary t) :
    ∃ source from_block to_block orphaned mid decoded persisted,
      job_source s.db job = .ok (source, from_block, to_block) ∧ to_block < 2 ^ 63 ∧
      orphan_source_range s.db source from_block to_block = .ok (orphaned, mid) ∧
      range_logs keccak256 parse_bytes rpc source.from_source from_block.toNat to_block.toNat
        worker.chunk_size none = .ok decoded ∧
      persist_decoded_logs_with_options parseAmount mid source.from_source decoded
        { restore_orphaned_conflicts := true } = .ok (persisted, t.db) := by
  unfold execute_job at h
  rw [Program.bind_eq_ok] at h
  obtain ⟨service, _, hget, h⟩ := h
  obtain ⟨rfl, rfl⟩ := get_eq_ok.1 hget
  rw [Program.bind_eq_ok] at h
  obtain ⟨⟨source, from_block, to_block⟩, _, hasked, h⟩ := h
  obtain ⟨hsource, rfl⟩ := ask_eq_ok.1 hasked
  dsimp only at h
  rw [Program.bind_eq_ok] at h
  obtain ⟨observed, _, hasked, h⟩ := h
  obtain ⟨hobserved, rfl⟩ := ask_eq_ok.1 hasked
  unfold execute_checked_job at h
  rw [Program.bind_eq_ok] at h
  obtain ⟨_, _, hasked, h⟩ := h
  obtain ⟨hcheck, rfl⟩ := ask_eq_ok.1 hasked
  rw [check_finalized_eq_ok] at hcheck
  rw [Program.bind_eq_ok] at h
  obtain ⟨_, _, hasked, h⟩ := h
  obtain ⟨-, rfl⟩ := ask_eq_ok.1 hasked
  rw [if_pos hreplay, Program.bind_eq_ok] at h
  obtain ⟨orphaned, mid, hmid, h⟩ := h
  obtain ⟨horphan, -⟩ := ledger_eq_ok.1 hmid
  obtain ⟨decoded, persisted, hdecoded, hpersist⟩ := ingest_source_range_returns h
  exact ⟨source, from_block, to_block, orphaned, mid.db, decoded, persisted, hsource,
    lt_of_le_of_lt hcheck (observed_finalized_block_lt hobserved), context_eq_ok.1 horphan, hdecoded,
    hpersist⟩

/-- A job that was processed was executed, and then marked in the queue only. -/
theorem run_job_processes {worker : IngestWorker} {running : JobRow} {shutdown : Bool}
    {now : Timestamp} {job_id : Uuid} {summary : ScanSummary}
    (h : run_job keccak256 parse_bytes parseAmount rpc worker running shutdown now s
      = .ok (.Processed job_id summary) t) :
    ∃ executed, execute_job keccak256 parse_bytes parseAmount rpc worker running s
        = .ok summary executed ∧ t.db.events = executed.db.events ∧
      t.db.checkpoints = executed.db.checkpoints := by
  unfold run_job at h
  split at h
  · rename_i summary' executed hexecute
    rw [Program.bind_eq_ok] at h
    obtain ⟨_, _, hmark, h⟩ := h
    cases h
    obtain ⟨hmark, -⟩ := ledger_eq_ok.1 hmark
    have hframe := mark_job_frame (context_eq_ok.1 hmark)
    exact ⟨executed, hexecute, by rw [hframe], by rw [hframe]⟩
  · split at h
    · rw [Program.bind_eq_ok] at h
      obtain ⟨_, _, -, h⟩ := h
      cases h
    · rw [Program.bind_eq_ok] at h
      obtain ⟨_, _, -, h⟩ := h
      cases h

end Replay

/-! ## What a replay repairs

A replay writes hashes onto the rows it finds, and leaves them in their blocks. So an event
is canonical afterwards if its log is still in the block of its row. If the log has moved,
the row has the hash of one block and the number of another, and whether that is reported is
left open here.
-/

section Repair

variable {canonical : Nat → String} {rpc : ChainRpc} {source : SourceRef} {last : Nat}

/-- A decoded log is a returned one with a timestamp. -/
theorem returned_of_range_logs {keccak256 : String → String} {parse_bytes : List Char → Option Nat}
    {«from» chunk_size : Nat} {decoded : List (RpcLog × DecodedLog)}
    (h : range_logs keccak256 parse_bytes rpc source «from» last chunk_size none = .ok decoded) :
    ∀ log ∈ decoded, ∃ block_timestamp, rpc.Returns last { log.1 with block_timestamp } := by
  refine range_logs_forall
    (P := fun log => ∃ block_timestamp, rpc.Returns last { log with block_timestamp }) ?_ ?_ ?_ h
  · intro contract standard first to_block logs hlast hlogs log hlog
    exact ⟨log.block_timestamp, contract, standard, first, to_block, logs, hlast, hlogs, hlog⟩
  · exact fun log _ hlog => hlog
  · exact fun p hnone => absurd hnone (Option.not_mem_none p)

/-- The event is in the block of every decoded log it is stored under. -/
def InPlace (source : SourceRef) (decoded : List (RpcLog × DecodedLog)) (event : EventRow) : Prop :=
  ∀ log ∈ decoded, event.at_log source log.1 → event.in_block log.1

instance (source : SourceRef) (decoded : List (RpcLog × DecodedLog)) (event : EventRow) :
    Decidable (InPlace source decoded event) :=
  inferInstanceAs (Decidable (∀ log ∈ decoded, event.at_log source log.1 → event.in_block log.1))

/-- Where it is in the range and not orphaned, the event has the hash of the chain. -/
def EventCanonical (canonical : Nat → String) (source : SourceRef) (from_block to_block : Int)
    (event : EventRow) : Prop :=
  event.active_in source.id from_block to_block = true →
    Canonical canonical { block_number := event.block_number, block_hash := event.block_hash }

/-- A block number a column holds is the number of the block, where it is not negative. -/
theorem as_i64_toNat {n : Nat} (hn : n < 2 ^ 64) (h : 0 ≤ as_i64 n) : (as_i64 n).toNat = n := by
  rw [(as_i64_nonneg hn h).1]
  exact Int.toNat_natCast n

/-- The hash of a returned log is the chain's hash of a stored event in its block. -/
theorem canonical_of_log (hchain : rpc.ServesChain canonical) {log : RpcLog}
    {block_timestamp : Option Timestamp} (hreturned : rpc.Returns last { log with block_timestamp })
    {event : EventRow} (hblock : event.in_block log) (hnonneg : 0 ≤ event.block_number) :
    Canonical canonical
      { block_number := event.block_number, block_hash := to_ascii_lowercase log.block_hash } := by
  unfold EventRow.in_block at hblock
  cases hn : parse_hex_u64 log.block_number with
  | error e =>
    rw [hn] at hblock
    cases hblock
  | ok n =>
    rw [hn] at hblock
    have hblock : as_i64 n = event.block_number := Option.some.inj hblock
    have hnumber : event.block_number.toNat = n := by
      rw [← hblock] at hnonneg ⊢
      exact as_i64_toNat (parse_hex_u64_lt hn) hnonneg
    unfold Canonical
    rw [to_ascii_lowercase_idem, hnumber]
    exact hchain.log_hash last { log with block_timestamp } n hreturned hn

/-- Persisting the logs of the chain over an orphaned range gives the events of the range
the hashes of the chain. The loop of the upserts keeps two facts of every event: no
decoded log has moved it, and it is canonical. -/
theorem persisted_events_canonical {parseAmount : AmountParser} (hchain : rpc.ServesChain canonical)
    {from_block to_block : Int} (hfrom : 0 ≤ from_block) {decoded : List (RpcLog × DecodedLog)}
    (hreturned : ∀ log ∈ decoded, ∃ block_timestamp, rpc.Returns last { log.1 with block_timestamp })
    {options : PersistDecodedLogsOptions} {summary : ScanSummary} {db db' : Db}
    (hunmoved : ∀ e ∈ db.events.rows, InPlace source decoded e)
    (hempty : ∀ e ∈ db.events.rows, ¬ e.active_in source.id from_block to_block = true)
    (h : persist_decoded_logs_with_options parseAmount db source decoded options
      = .ok (summary, db')) :
    ∀ e ∈ db'.events.rows, EventCanonical canonical source from_block to_block e := by
  obtain ⟨⟨es, -, hfresh, hstored⟩, -⟩ := persist_decoded_logs_stores h
  -- the rows stay in place with their canonical hashes, through every row that is stored
  have hkept : ∀ e ∈ db'.events.rows, InPlace source decoded e ∧
      EventCanonical canonical source from_block to_block e := by
    rw [hstored]
    refine Upsert.forall_mem_storeAll
      (fun e he => ⟨hunmoved e he, fun hactive => absurd hactive (hempty e he)⟩)
      (fun values hvalues => ?_) fun values hvalues old hsame hold => ?_
    · obtain ⟨log, hlog, hrow⟩ := exists_of_mapM_eq_ok hfresh (List.mem_map_of_mem hvalues)
      obtain ⟨block_timestamp, hlog_returned⟩ := hreturned log hlog
      obtain ⟨-, hhash, -, -, hblock⟩ := new_event_row_shows hrow
      have hkey := stored_key_of_event hrow
      have hkey : (values.transaction_hash, some values.log_index) = stored_key log.1 := hkey
      have hhash : values.block_hash = to_ascii_lowercase log.1.block_hash := hhash
      have hblock : values.in_block log.1 := hblock
      refine ⟨fun other hother hat => ?_, fun hactive => ?_⟩
      · -- another log under the same key is in the same block of the chain
        obtain ⟨other_timestamp, hother_returned⟩ := hreturned other hother
        have hsame_block := hchain.one_block last _ _ hlog_returned hother_returned
          (hkey.symm.trans hat.2)
        unfold EventRow.in_block at hblock ⊢
        rw [← hblock]
        exact congrArg (Option.map as_i64) hsame_block.symm
      · -- the hash is the one the log was returned with
        rw [hhash]
        refine canonical_of_log hchain hlog_returned hblock ?_
        simp only [EventRow.active_in, Bool.and_eq_true, decide_eq_true_eq] at hactive
        exact hfrom.trans hactive.1.1.2
    · obtain ⟨log, hlog, hrow⟩ := exists_of_mapM_eq_ok hfresh (List.mem_map_of_mem hvalues)
      obtain ⟨block_timestamp, hlog_returned⟩ := hreturned log hlog
      obtain ⟨-, hhash, -, hvalues_chain, -⟩ := new_event_row_shows hrow
      have hkey := stored_key_of_event hrow
      have hkey : (values.transaction_hash, some values.log_index) = stored_key log.1 := hkey
      have hhash : values.block_hash = to_ascii_lowercase log.1.block_hash := hhash
      have hvalues_chain : values.chain_id = source.chain_id := hvalues_chain
      obtain ⟨hsame_chain, hsame_hash, hsame_index⟩ := same_log_iff.1 hsame
      obtain ⟨-, -, hkeep_chain, hkeep_hash, hkeep_index, hkeep_block⟩ :=
        EventRow.stored_keeps options values old
      obtain ⟨-, htake_hash, -⟩ := EventRow.stored_takes options values old
      -- the conflicting row is at the key of the log, so it is in the block of the log
      have hold_at : old.at_log source log.1 := by
        refine ⟨hsame_chain.symm.trans hvalues_chain, ?_⟩
        rw [← hsame_hash, ← hsame_index]
        exact hkey
      have hmerge : (event_rule options).merge values old = values.stored options old := rfl
      rw [hmerge]
      refine ⟨fun other hother hat => ?_, fun hactive => ?_⟩
      · unfold EventRow.in_block
        rw [hkeep_block]
        refine hold.1 other hother ?_
        unfold EventRow.at_log at hat ⊢
        rwa [hkeep_chain, hkeep_hash, hkeep_index] at hat
      · -- the merged row keeps its block and takes the hash of the log
        rw [htake_hash, hhash, hkeep_block]
        refine canonical_of_log hchain hlog_returned (hold.1 log hlog hold_at) ?_
        simp only [EventRow.active_in, Bool.and_eq_true, decide_eq_true_eq] at hactive
        exact hkeep_block ▸ hfrom.trans hactive.1.1.2
  exact fun e he => (hkept e he).2

/-- Orphaning marks events and changes nothing else of them. -/
theorem event_before_orphaning {db db' : Db} {row : SourceRow} {from_block to_block : Int}
    {summary : OrphanRangeSummary}
    (h : orphan_source_range db row from_block to_block = .ok (summary, db')) :
    ∀ e ∈ db'.events.rows, ∃ old ∈ db.events.rows, e = old ∨ e = old.set_orphaned true := by
  obtain ⟨_, -, -, -, hevents⟩ := orphan_source_range_spec h
  rw [hevents]
  intro e he
  obtain ⟨old, hold, rfl⟩ := List.mem_map.1 he
  unfold Table.setRow
  split
  · exact ⟨old, hold, Or.inr rfl⟩
  · exact ⟨old, hold, Or.inl rfl⟩

/-- The state a replay attempt reads: under the key of a log of its range, every stored event
is in the block of the log. It is a condition on the events before the replay and on what the
chain returns, and not on what the replay leaves. -/
def NoneMoved (keccak256 : String → String) (parse_bytes : List Char → Option Nat) (rpc : ChainRpc)
    (worker : IngestWorker) (source : SourceRef) (from_block to_block : Int) (db : Db) : Prop :=
  ∀ decoded, range_logs keccak256 parse_bytes rpc source from_block.toNat to_block.toNat
    worker.chunk_size none = .ok decoded → ∀ e ∈ db.events.rows, InPlace source decoded e

variable {keccak256 : String → String} {parse_bytes : List Char → Option Nat}
  {parseAmount : AmountParser} {s t : Service}

/-- After a replay that succeeds, verification reports the checkpoint of the source where
its block is one the chain has replaced, and nothing else. -/
theorem replay_repairs_all_but_checkpoint (hchain : rpc.ServesChain canonical)
    {worker : IngestWorker} {running : JobRow} {shutdown : Bool} {now : Timestamp} {job_id : Uuid}
    {summary : ScanSummary} {row : SourceRow} {from_block to_block : Int}
    (hreplay : running.job_type = .ReplayRange)
    (hsource : job_source s.db running = .ok (row, from_block, to_block))
    (hunmoved : NoneMoved keccak256 parse_bytes rpc worker row.from_source from_block to_block s.db)
    (h : run_job keccak256 parse_bytes parseAmount rpc worker running shutdown now s
      = .ok (.Processed job_id summary) t) :
    ∃ verification u,
      verify_source_reorgs rpc row.from_source from_block.toNat to_block.toNat t
        = .ok verification u ∧
      (verification.mismatches = [] ∧ u.reorg_events = t.reorg_events ↔
        CheckpointCanonical canonical s.db row.id from_block to_block) ∧
      ∀ mismatch ∈ verification.mismatches,
        ∃ indexed ∈ checkpoint_block_hash s.db row.id from_block to_block,
          mismatch = indexed.mismatch (canonical indexed.block_number.toNat) := by
  obtain ⟨executed, hexecute, hevents, hcheckpoints⟩ := run_job_processes h
  obtain ⟨row', from', to', orphaned, mid, decoded, persisted, hsource', hto, horphan, hdecoded,
    hpersist⟩ := execute_job_replays hreplay hexecute
  rw [hsource] at hsource'
  cases hsource'
  obtain ⟨-, -, -, -, -, hfrom_nonneg, hto_nonneg⟩ := job_source_spec hsource
  have hordered : from_block.toNat ≤ to_block.toNat := by
    unfold range_logs at hdecoded
    rw [bail_eq_ok] at hdecoded
    exact not_lt.1 hdecoded.1
  have hfrom : (from_block.toNat : Int) = from_block := Int.toNat_of_nonneg hfrom_nonneg
  have hto_cast : (to_block.toNat : Int) = to_block := Int.toNat_of_nonneg hto_nonneg
  -- neither transaction, nor the mark of the job, moves a checkpoint
  have hcheckpoint : checkpoint_block_hash t.db row.id from_block to_block
      = checkpoint_block_hash s.db row.id from_block to_block := by
    unfold checkpoint_block_hash checkpoint_for_source
    rw [hcheckpoints, (persist_decoded_logs_onlyLedger hpersist).checkpoints,
      (orphan_source_range_onlyLedger horphan).checkpoints]
  have hmid_unmoved : ∀ e ∈ mid.events.rows, InPlace row.from_source decoded e := by
    intro e he
    obtain ⟨old, hold, rfl | rfl⟩ := event_before_orphaning horphan e he
    · exact hunmoved decoded hdecoded e hold
    · exact hunmoved decoded hdecoded old hold
  have hcanonical := persisted_events_canonical hchain hfrom_nonneg
    (returned_of_range_logs hdecoded) hmid_unmoved (events_orphaned horphan) hpersist
  have hverify := verify_of_canonical_events hchain.block_hash row.from_source hordered
    (s := t) (by omega) (by rw [hfrom, hto_cast, hevents]; exact hcanonical)
  rw [hfrom, hto_cast] at hverify
  unfold CheckpointCanonical at hverify ⊢
  rwa [show row.from_source.id = row.id from rfl, hcheckpoint] at hverify

variable (keccak256 parse_bytes parseAmount rpc)

/-- A replay repairs what verification reports: in every state of the system, after a
replay of a range that succeeds, verification of the range reports nothing. -/
def ReplayRepairs : Prop :=
  ∀ (i : Indexer), IndexerReachable parseAmount i → ∀ (slot : Nat) (e : Execution),
    i.executions slot = some e → e.phase = .Running → e.job.job_type = .ReplayRange →
    ∀ (worker : IngestWorker) (shutdown : Bool) (now : Timestamp) (s t : Service) (job_id : Uuid)
      (summary : ScanSummary), s.db = i.db →
      run_job keccak256 parse_bytes parseAmount rpc worker e.job shutdown now s
        = .ok (.Processed job_id summary) t →
      ∀ source from_block to_block, job_source s.db e.job = .ok (source, from_block, to_block) →
        ∃ verification u,
          verify_source_reorgs rpc source.from_source from_block.toNat to_block.toNat t
            = .ok verification u ∧
          verification.mismatches = [] ∧ u.reorg_events = t.reorg_events

end Repair

/-! ## A checkpoint on a fork -/

/-- The chain after a reorganisation of block 1. -/
def forked_chain (n : Nat) : String := if n = 1 then "0xc1" else toString n

/-- It has the mint of block 1 in the block that replaced it. -/
def forked_rpc : ChainRpc :=
  small_rpc 200 forked_chain [(erc20_transfer "0x1" "0xc1" "0xd1" zero_address alice).1]

theorem forked_rpc_servesChain : forked_rpc.ServesChain forked_chain := by
  have hreturned : ∀ last log, forked_rpc.Returns last log →
      log = (erc20_transfer "0x1" "0xc1" "0xd1" zero_address alice).1 := by
    rintro last log ⟨contract, standard, «from», «to», logs, -, hlogs, hlog⟩
    rw [← Except.ok.inj hlogs] at hlog
    exact List.mem_singleton.1 (List.mem_filter.1 hlog).1
  refine ⟨fun n => rfl, fun last log n hlog hn => ?_, fun last a b ha hb _ => ?_⟩
  · rw [hreturned last log hlog] at hn ⊢
    have hblock : parse_hex_u64 "0x1" = .ok 1 := by decide +kernel
    rw [← Except.ok.inj (hblock.symm.trans hn)]
    rfl
  · rw [hreturned last a ha, hreturned last b hb]

/-- The attempt at the replay on the chain after the reorganisation. -/
def forked_attempt (running : JobRow) (s : Service) : EStateM.Result String Service WorkerOutcome :=
  run_job event_digest parse_hex_digits plain_digits forked_rpc
    { chunk_size := 10, include_transaction_receipts := false } running false 0 s

/-- The attempt processes its job, and verification reports a block. -/
theorem forked_attempt_processes :
    ∃ e, (Indexer.after plain_digits replaying).executions 0 = some e ∧ e.phase = .Running ∧
      e.job.job_type = .ReplayRange ∧
      ∃ job_id summary t source from_block to_block,
        forked_attempt e.job (Indexer.after plain_digits replaying).service
          = .ok (.Processed job_id summary) t ∧
        job_source (Indexer.after plain_digits replaying).db e.job
          = .ok (source, from_block, to_block) ∧
        NoneMoved event_digest parse_hex_digits forked_rpc
          { chunk_size := 10, include_transaction_receipts := false } source.from_source from_block
          to_block (Indexer.after plain_digits replaying).db ∧
        ∀ verification u, verify_source_reorgs forked_rpc source.from_source from_block.toNat
          to_block.toNat t = .ok verification u → verification.mismatches ≠ [] := by
  obtain ⟨e, he⟩ := Option.isSome_iff_exists.1
    (show ((Indexer.after plain_digits replaying).executions 0).isSome = true by decide +kernel)
  -- all of it is checked in one run of the attempt
  have hattempt : ((Indexer.after plain_digits replaying).executions 0).any (fun e =>
      e.phase == .Running && e.job.job_type == .ReplayRange &&
      match forked_attempt e.job (Indexer.after plain_digits replaying).service,
        job_source (Indexer.after plain_digits replaying).db e.job with
      | .ok (.Processed _ _) t, .ok (source, from_block, to_block) =>
        (match range_logs event_digest parse_hex_digits forked_rpc source.from_source
            from_block.toNat to_block.toNat 10 none with
        | .ok decoded => decide (∀ e ∈ (Indexer.after plain_digits replaying).db.events.rows,
            InPlace source.from_source decoded e)
        | .error _ => false) &&
        match verify_source_reorgs forked_rpc source.from_source from_block.toNat to_block.toNat t with
        | .ok verification _ => !verification.mismatches.isEmpty
        | .error _ _ => false
      | _, _ => false) = true := by decide +kernel
  rw [he, Option.any_some, Bool.and_eq_true, Bool.and_eq_true] at hattempt
  obtain ⟨⟨hphase, htype⟩, hattempt⟩ := hattempt
  refine ⟨e, he, beq_iff_eq.1 hphase, beq_iff_eq.1 htype, ?_⟩
  split at hattempt
  · rename_i job_id summary t source from_block to_block hprocessed hsource
    rw [Bool.and_eq_true] at hattempt
    obtain ⟨hunmoved, hverify⟩ := hattempt
    refine ⟨job_id, summary, t, source, from_block, to_block, hprocessed, hsource, ?_, ?_⟩
    · intro decoded hdecoded
      rw [hdecoded] at hunmoved
      exact of_decide_eq_true hunmoved
    · intro verification u hverification hempty
      rw [hverification] at hverify
      simp only [hempty, List.isEmpty_nil, Bool.not_true] at hverify
      cases hverify
  · cases hattempt

/-- After the replay on the chain, its checkpoint is of a block the chain has replaced. -/
theorem replay_repairs_all_but_checkpoint_forked :
    ∃ (job_id : Uuid) (summary : ScanSummary) (t : Service) (source : SourceRow)
      (from_block to_block : Int) (verification : ReorgVerification) (u : Service),
      (∃ running, forked_attempt running (Indexer.after plain_digits replaying).service
        = .ok (.Processed job_id summary) t) ∧
      verify_source_reorgs forked_rpc source.from_source from_block.toNat to_block.toNat t
        = .ok verification u ∧
      (verification.mismatches = [] ∧ u.reorg_events = t.reorg_events ↔
        CheckpointCanonical forked_chain (Indexer.after plain_digits replaying).db source.id
          from_block to_block) ∧
      ∀ mismatch ∈ verification.mismatches,
        ∃ indexed ∈ checkpoint_block_hash (Indexer.after plain_digits replaying).db source.id
            from_block to_block,
          mismatch = indexed.mismatch (forked_chain indexed.block_number.toNat) := by
  obtain ⟨e, -, -, htype, job_id, summary, t, source, from_block, to_block, hrun, hsource, hunmoved,
    -⟩ := forked_attempt_processes
  obtain ⟨verification, u, hverify⟩ := replay_repairs_all_but_checkpoint forked_rpc_servesChain htype
    hsource hunmoved hrun
  exact ⟨job_id, summary, t, source, from_block, to_block, verification, u, ⟨e.job, hrun⟩, hverify⟩

/-- Verification reports the checkpoint, which the replay has left on the fork. -/
theorem replay_leaves_the_checkpoint :
    forked_rpc.ServesChain forked_chain ∧
      ¬ ReplayRepairs forked_rpc event_digest parse_hex_digits plain_digits := by
  refine ⟨forked_rpc_servesChain, fun h => ?_⟩
  obtain ⟨e, he, hphase, htype, job_id, summary, t, source, from_block, to_block, hrun, hsource, -,
    hreports⟩ := forked_attempt_processes
  have hreachable : IndexerReachable plain_digits (Indexer.after plain_digits replaying) :=
    reachable_of_possible (by decide +kernel)
  obtain ⟨verification, u, hverify, hempty, -⟩ := h _ hreachable 0 e he hphase htype _ false 0 _ t
    job_id summary rfl hrun source from_block to_block hsource
  exact hreports verification u hverify hempty

end EvmIndexer
