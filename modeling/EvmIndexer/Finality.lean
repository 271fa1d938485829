/-
Only finalized blocks are ingested.

There are two ways into `ingest_source_range`. A job goes through a worker, which
compares the end of its range with the finalized block (`check_finalized`). A scan goes
through `resolve_finalized_range`, which knows the finalized block and uses it only for
an argument that says `latest`: a block written as a number is compared with the other
end of the range and with nothing else.

So a job never ingests past the finalized head, and a scan does exactly when its
`to_block` is a number past it (`AboveFinalized`). What an entry point ingests is read
off the ranges it passes on, and off the events it leaves (`IngestsWithin`).
-/
import EvmIndexer.AbiEvents
import EvmIndexer.Checkpoints
import EvmIndexer.Execute
import EvmIndexer.Stored

set_option autoImplicit false

namespace EvmIndexer

open Sql Program

/-! ## The range of a scan

The arguments of a scan give the end of the range as a number, or as `latest`, which stands for
the finalized block. A number is taken as it is. The range is in order where its
end is at or below the finalized head, and nothing after the resolution looks at that again.
-/

/-- What a resolved range is made of. -/
theorem resolve_finalized_range_spec {rpc : ChainRpc} {from_block : Option String}
    {to_block : String} {lookback : Nat} {finality_confirmations : Int} {range : ResolvedRange}
    (h : resolve_finalized_range rpc from_block to_block lookback finality_confirmations
      = .ok range) :
    0 ≤ finality_confirmations ∧ rpc.block_number = .ok range.head ∧
      range.finalized_head = range.head - finality_confirmations.toNat ∧
      parse_block_arg to_block range.finalized_head = .ok range.«to» ∧
      resolve_from_block from_block lookback range.finalized_head range.«to» = .ok range.«from» ∧
      range.«from» ≤ range.«to» := by
  unfold resolve_finalized_range at h
  simp only [bail_eq_ok, bind_eq_ok, context_eq_ok] at h
  obtain ⟨hconfirmations, head, hhead, «to», hto, «from», hfrom, hordered, h⟩ := h
  cases h
  exact ⟨not_lt.1 hconfirmations, hhead, rfl, hto, hfrom, not_lt.1 hordered⟩

/-- The arguments of a scan resolve to a range past the finalized head: the number in
`to_block` is a later block, and `from_block` is no later than that. -/
def AboveFinalized (rpc : ChainRpc) (args : ScanContractArgs) : Prop :=
  0 ≤ args.finality_confirmations ∧ ∃ head, rpc.block_number = .ok head ∧
    ∃ «to», parse_block_arg args.to_block (head - args.finality_confirmations.toNat) = .ok «to» ∧
      head - args.finality_confirmations.toNat < «to» ∧
      ∃ «from», resolve_from_block args.from_block args.lookback
        (head - args.finality_confirmations.toNat) «to» = .ok «from» ∧ «from» ≤ «to»

/-- A resolved range is in order: first block, last block, finalized head, head. -/
def ResolvedRange.InOrder (range : ResolvedRange) : Prop :=
  range.«from» ≤ range.«to» ∧ range.«to» ≤ range.finalized_head ∧ range.finalized_head ≤ range.head

section Resolve

variable {rpc : ChainRpc} {args : ScanContractArgs}

/-- The range a scan resolves ends at or below the finalized head, or its arguments
resolve past it. -/
theorem resolved_in_order {range : ResolvedRange} (habove : ¬ AboveFinalized rpc args)
    (h : resolve_finalized_range rpc args.from_block args.to_block args.lookback
      args.finality_confirmations = .ok range) : range.InOrder := by
  obtain ⟨hconfirmations, hhead, hfinalized, hto, hfrom, hordered⟩ := resolve_finalized_range_spec h
  refine ⟨hordered, ?_, by omega⟩
  by_contra hpast
  rw [hfinalized] at hto hfrom hpast
  exact habove ⟨hconfirmations, range.head, hhead, range.«to», hto, not_le.1 hpast, range.«from»,
    hfrom, hordered⟩

/-- Arguments that resolve past the finalized head do resolve. -/
theorem resolve_of_above (h : AboveFinalized rpc args) :
    ∃ range, resolve_finalized_range rpc args.from_block args.to_block args.lookback
      args.finality_confirmations = .ok range ∧ range.finalized_head < range.«to» := by
  obtain ⟨hconfirmations, head, hhead, «to», hto, hpast, «from», hfrom, hordered⟩ := h
  refine ⟨{ «from», «to», head, finalized_head := head - args.finality_confirmations.toNat }, ?_,
    hpast⟩
  unfold resolve_finalized_range
  simp only [bail_eq_ok, bind_eq_ok, context_eq_ok]
  exact ⟨not_lt.2 hconfirmations, head, hhead, «to», hto, «from», hfrom, not_lt.2 hordered, rfl⟩

end Resolve

/-! ## What a program ingests

Two things show what was ingested: the ranges that were passed on, and the events that are in
the table. A stored event that is persisted again keeps its block number, so what a program
leaves is an event of before or one of a block it was given.
-/

/-- The chain returns logs of the blocks it is asked for. The repository does not check this,
and a node that answered with later blocks would have them stored. -/
def ChainRpc.LogsInRange (rpc : ChainRpc) : Prop :=
  ∀ contract standard «from» «to» logs, rpc.logs contract standard «from» «to» = .ok logs →
    ∀ log ∈ logs, ∀ n, parse_hex_u64 log.block_number = .ok n → n ≤ «to»

/-- The ranges passed on from `s` to `t` end in finalized blocks, and the events of `t`
are events of `s` or of a finalized block. -/
structure IngestsWithin (finalized : Nat → Prop) (s t : Service) : Prop where
  ranges : ∃ passed, t.ingested = passed ++ s.ingested ∧ ∀ range ∈ passed, finalized range.«to»
  events : ∀ e ∈ t.db.events.rows,
    (∃ old ∈ s.db.events.rows, old.id = e.id ∧ old.block_number = e.block_number) ∨
      ∃ n, finalized n ∧ e.block_number ≤ n

section Within

variable {finalized : Nat → Prop}

theorem IngestsWithin.refl (s : Service) : IngestsWithin finalized s s :=
  ⟨⟨[], rfl, fun _ hmem => absurd hmem List.not_mem_nil⟩, fun e he => Or.inl ⟨e, he, rfl, rfl⟩⟩

theorem IngestsWithin.trans {s t u : Service} (h : IngestsWithin finalized s t)
    (k : IngestsWithin finalized t u) : IngestsWithin finalized s u := by
  obtain ⟨first, hfirst, hfirst_within⟩ := h.ranges
  obtain ⟨second, hsecond, hsecond_within⟩ := k.ranges
  refine ⟨⟨second ++ first, by rw [hsecond, hfirst, List.append_assoc], fun range hrange => ?_⟩,
    fun e he => ?_⟩
  · rcases List.mem_append.1 hrange with hrange | hrange
    · exact hsecond_within range hrange
    · exact hfirst_within range hrange
  · rcases k.events e he with ⟨mid, hmid, hid, hblock⟩ | hwithin
    · rcases h.events mid hmid with ⟨old, hold, hold_id, hold_block⟩ | ⟨n, hn, hle⟩
      · exact Or.inl ⟨old, hold, hold_id.trans hid, hold_block.trans hblock⟩
      · exact Or.inr ⟨n, hn, hblock ▸ hle⟩
    · exact Or.inr hwithin

/-- A transaction that ingests nothing. -/
theorem IngestsWithin.of_events {s t : Service} (hranges : t.ingested = s.ingested)
    (hevents : ∀ e ∈ t.db.events.rows,
      ∃ old ∈ s.db.events.rows, old.id = e.id ∧ old.block_number = e.block_number) :
    IngestsWithin finalized s t :=
  ⟨⟨[], hranges, fun _ hmem => absurd hmem List.not_mem_nil⟩, fun e he => Or.inl (hevents e he)⟩

/-- A block number as the column holds it is no larger than the number. -/
theorem as_i64_le (n : Nat) : as_i64 n ≤ n := by
  unfold as_i64
  have := Int.emod_emod_of_dvd (n : Int) (dvd_refl (2 ^ 64))
  rw [Int.bmod_def]
  split <;> omega

variable {keccak256 : String → String} {parse_bytes : List Char → Option Nat}
  {parseAmount : AmountParser} {rpc : ChainRpc}

/-- Persisting logs of finalized blocks leaves events of finalized blocks: a new event
has the block of its log, a stored one keeps its own. -/
theorem persist_decoded_logs_within {source : SourceRef} {options : PersistDecodedLogsOptions}
    {logs : List (RpcLog × DecodedLog)} {summary : ScanSummary} {db db' : Db}
    (h : persist_decoded_logs_with_options parseAmount db source logs options = .ok (summary, db'))
    (hlogs : ∀ log ∈ logs, ∀ n, parse_hex_u64 log.1.block_number = .ok n → finalized n) :
    ∀ e ∈ db'.events.rows,
      (∃ old ∈ db.events.rows, old.id = e.id ∧ old.block_number = e.block_number) ∨
        ∃ n, finalized n ∧ e.block_number ≤ n := by
  obtain ⟨⟨es, -, hfresh, hstored⟩, -⟩ := persist_decoded_logs_stores h
  rw [hstored]
  refine Upsert.forall_mem_storeAll (fun e he => Or.inl ⟨e, he, rfl, rfl⟩) (fun e he => ?_)
    fun values _ old _ hold => ?_
  · -- a proposed event shows the block of its log, which only wrapping changes
    obtain ⟨log, hlog, hvalues⟩ := exists_of_mapM_eq_ok hfresh (List.mem_map_of_mem he)
    obtain ⟨-, -, -, -, hblock⟩ := new_event_row_shows hvalues
    unfold EventRow.in_block at hblock
    cases hn : parse_hex_u64 log.1.block_number with
    | error _ =>
      rw [hn] at hblock
      cases hblock
    | ok n =>
      rw [hn] at hblock
      have hblock : as_i64 n = e.block_number := Option.some.inj hblock
      exact Or.inr ⟨n, hlogs log hlog n hn, hblock ▸ as_i64_le n⟩
  · -- a conflict keeps the id and the block
    obtain ⟨hid, -, -, -, -, hblock⟩ := EventRow.stored_keeps options values old
    have hid : ((event_rule options).merge values old).id = old.id := hid
    have hblock : ((event_rule options).merge values old).block_number = old.block_number := hblock
    rw [hid, hblock]
    exact hold

/-- Ingesting a range that ends in a finalized block. -/
theorem ingest_source_range_within (hrpc : rpc.LogsInRange) {source : SourceRef}
    {«from» «to» chunk_size : Nat} {options : IngestOptions}
    (hfinalized : ∀ n, n ≤ «to» → finalized n)
    (hprefetched : ∀ p ∈ options.prefetched_logs, ∀ log ∈ p.logs, ∀ n,
      parse_hex_u64 log.block_number = .ok n → n ≤ «to») :
    Keeps (IngestsWithin finalized) (ingest_source_range keccak256 parse_bytes parseAmount rpc
      source «from» «to» chunk_size options) := by
  refine ingest_source_range_keeps IngestsWithin.refl IngestsWithin.trans (fun s => ?_) ?_
    fun s _ => IngestsWithin.of_events rfl fun e he => ⟨e, he, rfl, rfl⟩
  · -- the range is recorded first, and ends in a finalized block
    refine ⟨⟨[_], rfl, fun range hrange => ?_⟩, fun e he => Or.inl ⟨e, he, rfl, rfl⟩⟩
    rw [List.mem_singleton.1 hrange]
    exact hfinalized «to» (le_refl _)
  · intro decoded hdecoded s summary db hpersist
    have hlogs : ∀ log ∈ decoded, ∀ n, parse_hex_u64 log.1.block_number = .ok n → n ≤ «to» :=
      range_logs_forall (P := fun log => ∀ n, parse_hex_u64 log.block_number = .ok n → n ≤ «to»)
        (fun _ _ _ last logs hlast hlogs log hlog n hn =>
          (hrpc _ _ _ last logs hlogs log hlog n hn).trans hlast)
        (fun _ _ hlog => hlog) hprefetched hdecoded
    exact ⟨⟨[], rfl, fun _ hmem => absurd hmem List.not_mem_nil⟩,
      persist_decoded_logs_within hpersist fun log hlog n hn => hfinalized n (hlogs log hlog n hn)⟩

/-! ## Jobs

An attempt compares the end of its job with the finalized block before it ingests, whoever
enqueued the job. That the block it compares with is the head less the confirmations rests on
the chain's row and on what the endpoint answers for the head.
-/

/-- The block an attempt takes for finalized: the confirmations of the chain behind the
head. -/
theorem observed_finalized_block_spec {chains : List ChainRow} {chain_id observed : Int}
    (h : observed_finalized_block rpc chains chain_id = .ok observed) :
    ∃ chain, chain_by_chain_id chains chain_id = some chain ∧ ∃ head,
      rpc.block_number = .ok head ∧ observed = (head - chain.finality_confirmations.toNat : Nat) := by
  unfold observed_finalized_block at h
  split at h
  · cases h
  rename_i chain hchain
  simp only [bail_eq_ok, bind_eq_ok, context_eq_ok] at h
  obtain ⟨-, head, hhead, -, h⟩ := h
  cases h
  exact ⟨chain, hchain, head, hhead, rfl⟩

/-- It fits the columns that hold blocks. -/
theorem observed_finalized_block_lt {chains : List ChainRow} {chain_id observed : Int}
    (h : observed_finalized_block rpc chains chain_id = .ok observed) : observed < 2 ^ 63 := by
  unfold observed_finalized_block at h
  split at h
  · cases h
  simp only [bail_eq_ok, bind_eq_ok, context_eq_ok] at h
  obtain ⟨-, head, -, hfits, h⟩ := h
  cases h
  omega

theorem check_finalized_eq_ok {to_block observed : Int} :
    check_finalized to_block observed = .ok () ↔ to_block ≤ observed := by
  unfold check_finalized
  rw [bail_eq_ok, not_lt]
  simp only [and_true]

/-- A block at or below the finalized head a job has observed. -/
def JobFinalized (rpc : ChainRpc) (chains : List ChainRow) (chain_id : Int) (n : Nat) : Prop :=
  ∃ chain, chain_by_chain_id chains chain_id = some chain ∧ ∃ head,
    rpc.block_number = .ok head ∧ n ≤ head - chain.finality_confirmations.toNat

/-- Moving the checkpoint ingests nothing. -/
theorem advance_source_checkpoint_within {source : SourceRow} {range : Int × Int}
    {observed : Int} :
    Keeps (IngestsWithin finalized) (advance_source_checkpoint rpc source range observed) := by
  unfold advance_source_checkpoint
  refine Keeps.bind (R := IngestsWithin finalized) IngestsWithin.trans
    (Keeps.get IngestsWithin.refl) fun service => ?_
  refine Keeps.ask_bind IngestsWithin.refl fun target _ => ?_
  split
  · exact Keeps.pure IngestsWithin.refl _
  split
  · exact Keeps.pure IngestsWithin.refl _
  refine Keeps.ask_bind IngestsWithin.refl fun hash _ => ?_
  refine Keeps.bind (R := IngestsWithin finalized) IngestsWithin.trans ?_
    fun _ => Keeps.pure IngestsWithin.refl _
  refine Keeps.transaction IngestsWithin.refl fun s _ t h => ?_
  simp only [EvmIndexer.bind_eq_ok, context_eq_ok] at h
  obtain ⟨⟨_, db⟩, hadvance, h⟩ := h
  cases h
  obtain ⟨hframe, -⟩ := advance_checkpoint_spec hadvance
  refine IngestsWithin.of_events rfl fun e he => ⟨e, ?_, rfl, rfl⟩
  have hevents : db.events = s.db.events := by rw [hframe]
  exact hevents ▸ he

/-- An attempt at a job ingests finalized blocks only, whatever the job. -/
theorem execute_job_within (hrpc : rpc.LogsInRange) (worker : IngestWorker) (job : JobRow)
    (s : Service) :
    IngestsWithin (JobFinalized rpc s.chains job.chain_id) s
      (left (execute_job keccak256 parse_bytes parseAmount rpc worker job s)) := by
  unfold execute_job
  rw [left_get_bind]
  refine Keeps.ask_bind (R := IngestsWithin _) IngestsWithin.refl (fun found hsource => ?_) s
  obtain ⟨source, from_block, to_block⟩ := found
  obtain ⟨-, -, -, -, hchain, -, hto⟩ := job_source_spec hsource
  refine Keeps.ask_bind IngestsWithin.refl fun observed hobserved => ?_
  obtain ⟨chain, hfound, head, hhead, rfl⟩ := observed_finalized_block_spec hobserved
  unfold execute_checked_job
  refine Keeps.ask_bind IngestsWithin.refl fun _ hcheck => ?_
  rw [check_finalized_eq_ok] at hcheck
  -- the range ends at or below the finalized head, so all its blocks are
  have hfinalized : ∀ n, n ≤ to_block.toNat → JobFinalized rpc s.chains job.chain_id n := by
    intro n hn
    exact ⟨chain, hchain ▸ hfound, head, hhead, by omega⟩
  refine Keeps.ask_bind IngestsWithin.refl fun _ _ => ?_
  split
  · refine Keeps.bind (R := IngestsWithin _) IngestsWithin.trans ?_ fun _ => ?_
    · refine Keeps.transaction IngestsWithin.refl fun s _ t h => ?_
      simp only [EvmIndexer.bind_eq_ok, context_eq_ok] at h
      obtain ⟨⟨_, db⟩, horphan, h⟩ := h
      cases h
      obtain ⟨-, -, -, -, hevents⟩ := orphan_source_range_spec horphan
      refine IngestsWithin.of_events rfl fun e he => ?_
      rw [hevents] at he
      obtain ⟨old, hold, rfl⟩ := List.mem_map.1 he
      exact ⟨old, hold, (Table.setRow_keeps EventRow.id _ old).symm,
        (Table.setRow_keeps EventRow.block_number _ old).symm⟩
    · exact ingest_source_range_within hrpc hfinalized
        fun p hnone => absurd hnone (Option.not_mem_none p)
  · refine Keeps.bind (R := IngestsWithin _) IngestsWithin.trans
      (ingest_source_range_within hrpc hfinalized
        fun p hnone => absurd hnone (Option.not_mem_none p)) fun summary => ?_
    exact Keeps.bind (R := IngestsWithin _) IngestsWithin.trans advance_source_checkpoint_within
      fun _ => Keeps.pure IngestsWithin.refl _

/-! ## Scans

A scan has no such comparison. Its range is what the arguments resolve to, so everything
depends on the resolution.
-/

/-- A block at or below the finalized head a scan has observed. -/
def ScanFinalized (rpc : ChainRpc) (finality_confirmations : Int) (n : Nat) : Prop :=
  ∃ head, rpc.block_number = .ok head ∧ n ≤ head - finality_confirmations.toNat

/-- The chunk a scan has fetched to detect the standard is of the range. -/
theorem resolve_requested_standard_in_range (hrpc : rpc.LogsInRange) {contract : String}
    {requested standard : TokenStandard} {«from» «to» chunk_size : Nat}
    {prefetched_logs : Option PrefetchedLogChunk}
    (h : resolve_requested_standard_for_scan keccak256 rpc contract requested «from» «to» chunk_size
      = .ok (standard, prefetched_logs)) :
    ∀ p ∈ prefetched_logs, ∀ log ∈ p.logs, ∀ n, parse_hex_u64 log.block_number = .ok n → n ≤ «to» := by
  unfold resolve_requested_standard_for_scan at h
  split at h
  · cases h
    exact fun p hnone => absurd hnone (Option.not_mem_none p)
  · simp only [bind_eq_ok, context_eq_ok] at h
    obtain ⟨detection, hdetection, h⟩ := h
    cases h
    intro p hp
    rw [← Option.some.inj hp]
    exact detect_token_standard_forall (fun _ _ _ last logs hlast hlogs log hlog n hn =>
      (hrpc _ _ _ last logs hlogs log hlog n hn).trans hlast) hdetection

/-- A scan whose arguments do not resolve past the finalized head. -/
theorem scan_contract_within (hrpc : rpc.LogsInRange) {args : ScanContractArgs}
    (habove : ¬ AboveFinalized rpc args) :
    Keeps (IngestsWithin (ScanFinalized rpc args.finality_confirmations))
      (scan_contract keccak256 parse_bytes parseAmount rpc args) := by
  refine scan_contract_keeps IngestsWithin.refl IngestsWithin.trans ?_ ?_ ?_
  · -- the chain and the source are written before any event is
    exact fun s _ => IngestsWithin.of_events rfl fun e he => ⟨e, he, rfl, rfl⟩
  · intro s _ _ _ _ row db hsource
    have hevents : db.events = s.db.events := by rw [ensure_source_frame hsource]
    exact IngestsWithin.of_events rfl fun e he => ⟨e, hevents ▸ he, rfl, rfl⟩
  · intro range contract requested standard prefetched_logs hrange hchosen source
    obtain ⟨-, hhead, hfinalized_head, -⟩ := resolve_finalized_range_spec hrange
    obtain ⟨-, hto, -⟩ := resolved_in_order habove hrange
    exact ingest_source_range_within hrpc
      (fun n hn => ⟨range.head, hhead, hfinalized_head ▸ hn.trans hto⟩)
      (resolve_requested_standard_in_range hrpc hchosen)

/-! ## All entry points

Blocks are ingested by scans and by jobs, and by nothing else. The condition is on the
arguments of the scan alone.
-/

variable (keccak256 parse_bytes parseAmount rpc)

/-- Only finalized blocks are ingested: a range that resolves is in order, and neither a
scan with these arguments nor any job ingests past the finalized head it has observed. -/
structure OnlyFinalized (args : ScanContractArgs) : Prop where
  resolve : ∀ range, resolve_finalized_range rpc args.from_block args.to_block args.lookback
    args.finality_confirmations = .ok range → range.InOrder
  scan : ∀ service, IngestsWithin (ScanFinalized rpc args.finality_confirmations) service
    (left (scan_contract keccak256 parse_bytes parseAmount rpc args service))
  jobs : ∀ worker job service, IngestsWithin (JobFinalized rpc service.chains job.chain_id) service
    (left (execute_job keccak256 parse_bytes parseAmount rpc worker job service))

variable {rpc}

/-- Only finalized blocks are ingested, unless the arguments of the scan resolve past the
finalized head: nothing else on the way compares the two. -/
theorem only_finalized_iff (hrpc : rpc.LogsInRange) (args : ScanContractArgs) :
    OnlyFinalized keccak256 parse_bytes parseAmount rpc args ↔ ¬ AboveFinalized rpc args := by
  constructor
  · intro h habove
    obtain ⟨range, hrange, hpast⟩ := resolve_of_above habove
    exact absurd (h.resolve range hrange).2.1 (not_le.2 hpast)
  · intro habove
    exact
      { resolve := fun range hrange => resolved_in_order habove hrange
        scan := scan_contract_within hrpc habove
        jobs := execute_job_within hrpc }

end Within

/-! ## A scan past the finalized head -/

/-- A chain with the given head, block hashes and logs, and code at every address. -/
def small_rpc (head : Nat) (hash : Nat → String) (logs : List RpcLog) : ChainRpc where
  block_number := .ok head
  code_at _ _ := .ok "0x60"
  block_hash n := .ok (hash n)
  block_timestamp n := .ok n
  logs _ _ «from» «to» := .ok (logs.filter fun log =>
    match parse_hex_u64 log.block_number with
    | .ok n => decide («from» ≤ n ∧ n ≤ «to»)
    | .error _ => false)
  transaction_receipt transaction_hash := .error ("no receipt for " ++ transaction_hash)

theorem small_rpc_logsInRange (head : Nat) (hash : Nat → String) (logs : List RpcLog) :
    (small_rpc head hash logs).LogsInRange := by
  intro contract standard «from» «to» returned h log hlog n hn
  rw [← Except.ok.inj h, List.mem_filter, hn] at hlog
  exact (of_decide_eq_true hlog.2).2

/-- A scan from block 0, ten confirmations behind the head. -/
def small_scan (to_block : String) : ScanContractArgs :=
  { chain_name := "small", chain_id := 1, finality_confirmations := 10
    contract := small_source.contract_address, standard := "erc20", from_block := some "0", to_block
    lookback := 0, chunk_size := 10, include_transaction_receipts := false }

theorem only_finalized_iff_latest :
    OnlyFinalized event_digest parse_hex_digits plain_digits (small_rpc 50 toString [])
      (small_scan "latest") := by
  refine (only_finalized_iff event_digest parse_hex_digits plain_digits
    (small_rpc_logsInRange 50 toString []) (small_scan "latest")).2 ?_
  rintro ⟨-, head, hhead, «to», hto, hpast, -⟩
  cases hhead
  have hlatest : parse_block_arg "latest" (50 - Int.toNat 10) = .ok 40 := by decide +kernel
  rw [← Except.ok.inj (hlatest.symm.trans hto)] at hpast
  exact absurd hpast (by decide)

/-- A scan to block 100, asked for while block 40 is the last finalized one. -/
theorem scan_past_the_finalized_head :
    ¬ OnlyFinalized event_digest parse_hex_digits plain_digits (small_rpc 50 toString [])
      (small_scan "100") := by
  intro h
  have hrange : resolve_finalized_range (small_rpc 50 toString []) (some "0") "100" 0 10
      = .ok { «from» := 0, «to» := 100, head := 50, finalized_head := 40 } := by decide +kernel
  exact absurd (h.resolve _ hrange).2.1 (by decide)

end EvmIndexer
