/-
The ledger inside the system of workers.

A step of the system makes at most one call that writes the ledger, with what the execution in
its slot has read before (`IndexerOp.ledger_op`); every other step leaves the tables of the
ledger as they are. So what holds in every database of the ledger, and does not look at the
queue or at checkpoints, holds in every state of the system (`CommandReachable.ledger_invariant`):
whoever interleaves with whom, the books balance.

Two commands write the ledger without a job, `scan-contract` and `backfill-event-metadata`. They
are steps of their own (`CommandStep`), so the states here are those of the workers, the queue and
every command.
-/
import EvmIndexer.Attempts

set_option autoImplicit false

namespace EvmIndexer

open Sql Transition

/-! ## The queue and the checkpoints

The queue writes jobs and attempts, and none of the tables that a property of the ledger may
look at. The checkpoint is a table of its own; it moves without a call of the ledger.
-/

theorem lease_next_candidate_sameLedger {db db' : Db} {worker_id : String} {lease_for : Int}
    {job_type : Option JobType} {chain_id : Option Int} {locked : Uuid → Bool}
    {selected_at now : Timestamp} {leased : Option JobRow}
    (h : lease_next_candidate db worker_id lease_for job_type chain_id locked selected_at now
      = .ok (leased, db')) : SameLedger db db' := by
  unfold lease_next_candidate at h
  split at h
  · cases h
    exact SameLedger.refl db
  · simp only [bind_eq_ok, db_result_eq_ok] at h
    obtain ⟨mid, hmid, jobs, -, job_attempts, -, h⟩ := h
    cases h
    obtain ⟨hframe, -⟩ := cancel_expired_attempt_spec hmid
    rw [hframe]
    exact ⟨rfl, rfl, rfl⟩

theorem enqueue_sameLedger {db db' : Db} {now : Timestamp} {job : NewJob} {result : EnqueueResult}
    (h : enqueue db now job = .ok (result, db')) : SameLedger db db' := by
  unfold enqueue at h
  split at h
  · split at h
    · cases h
      exact ⟨rfl, rfl, rfl⟩
    · obtain ⟨row, -, hrow⟩ := map_eq_ok.1 h
      cases hrow
      exact SameLedger.refl db
  · cases h

/-! ## The calls of the ledger

Which call a step makes depends on what its execution has read before: the source it has
loaded, and the range of its job. A step without a slot that has come that far makes none,
and neither does a step whose transaction was rolled back.
-/

/-- The call of the ledger a step makes, with what the execution in its slot has read. -/
def IndexerOp.ledger_op (executions : Nat → Option Execution) : IndexerOp → Option LedgerOp
  | .ensure_source chain_id name contract_address standard start_block =>
    some (.ensure_source chain_id name contract_address standard start_block)
  | .orphan_source_range slot => do
    let e ← executions slot
    match e.phase, e.job.range with
    | .Loaded source _, some («from», «to») => some (.orphan_source_range source «from» «to»)
    | _, _ => none
  | .persist_decoded_logs slot logs => do
    let e ← executions slot
    match e.phase with
    | .Loaded source _ => some (.persist_decoded_logs_with_options source.from_source logs
        { restore_orphaned_conflicts := false })
    | .Orphaned source _ => some (.persist_decoded_logs_with_options source.from_source logs
        { restore_orphaned_conflicts := true })
    | _ => none
  | _ => none

/-- What a step makes of the ledger: what its call leaves, or what it found. -/
def LeftLedger (parseAmount : AmountParser) (s : Indexer) (op : IndexerOp) (db : Db) : Prop :=
  match op.ledger_op s.executions with
  | some call => call.apply parseAmount s.db = .ok db
  | none => SameLedger s.db db

section Steps

variable {parseAmount : AmountParser} {s t u : Indexer} {op : IndexerOp}

theorem ledger_op_of_not_calls {executions : Nat → Option Execution}
    (h : op.calls_ledger = false) : op.ledger_op executions = none := by
  cases op with
  | ensure_source | orphan_source_range | persist_decoded_logs => cases h
  | _ => rfl

theorem advance_execution_ledger {slot : Nat} {e : Execution} (hop : op.slot = some slot)
    (hslot : s.executions slot = some e)
    (h : s.advance_execution parseAmount slot e op = some u) :
    LeftLedger parseAmount s op u.db := by
  have hcall := advance_execution_call hop h
  unfold LeftLedger
  generalize u.db = db at hcall ⊢
  cases hcall with
  | none hkeeps =>
    rw [ledger_op_of_not_calls hkeeps]
    exact SameLedger.refl s.db
  | mark_job hkeeps hmark =>
    rw [ledger_op_of_not_calls hkeeps]
    exact mark_job_sameLedger hmark
  | advance_checkpoint hadvance =>
    rw [ledger_op_of_not_calls rfl]
    obtain ⟨hframe, -⟩ := advance_checkpoint_spec hadvance
    show SameLedger s.db db
    rw [hframe]
    exact ⟨rfl, rfl, rfl⟩
  | orphan_source_range hphase hrange horphan =>
    cases hop
    unfold IndexerOp.ledger_op
    simp only [hslot, Option.bind_eq_bind, Option.bind_some, hphase, hrange]
    exact map_snd_eq_ok.2 ⟨_, horphan⟩
  | persist_decoded_logs hphase hpersist =>
    cases hop
    unfold IndexerOp.ledger_op
    rcases hphase with ⟨hphase, rfl⟩ | ⟨hphase, rfl⟩
    · simp only [hslot, Option.bind_eq_bind, Option.bind_some, hphase]
      exact map_snd_eq_ok.2 ⟨_, hpersist⟩
    · simp only [hslot, Option.bind_eq_bind, Option.bind_some, hphase]
      exact map_snd_eq_ok.2 ⟨_, hpersist⟩

/-- What a step makes of the ledger, up to the order of the rows. -/
theorem IndexerStep.ledger (h : IndexerStep parseAmount s op t) :
    ∃ db, db.SameRows t.db ∧ LeftLedger parseAmount s op db := by
  obtain ⟨u, hexec, hsame, -, -⟩ := h
  refine ⟨u.db, hsame, ?_⟩
  unfold Indexer.exec at hexec
  split at hexec
  · simp only [Option.map_eq_some_iff, toOption_eq_some] at hexec
    obtain ⟨⟨row, db⟩, hensure, rfl⟩ := hexec
    exact map_snd_eq_ok.2 ⟨row, hensure⟩
  · simp only [Option.bind_eq_some_iff, Option.map_eq_some_iff, toOption_eq_some] at hexec
    obtain ⟨_, -, ⟨result, db⟩, henqueue, rfl⟩ := hexec
    obtain ⟨hevents, hentries, hbalances⟩ := enqueue_sameLedger henqueue
    exact ⟨hevents, hentries, hbalances⟩
  · split at hexec
    · cases hexec
    · simp only [Option.map_eq_some_iff, toOption_eq_some] at hexec
      obtain ⟨⟨leased, db⟩, hlease, hu⟩ := hexec
      have hdb : SameLedger s.db db := lease_next_candidate_sameLedger hlease
      cases leased with
      | none =>
        subst hu
        exact hdb
      | some job =>
        subst hu
        exact hdb
  · simp only [Option.bind_eq_some_iff] at hexec
    obtain ⟨slot, hop, e, hslot, hadvance⟩ := hexec
    exact advance_execution_ledger hop hslot hadvance

end Steps

/-! ## Commands without a job

`scan-contract` ingests a range itself: its `ensure_source` is a step of the system, and what it
persists then is a call of the ledger that no job was enqueued for. `backfill-event-metadata`
writes what the chain now says of the logs of a source. Neither looks at the queue, and the steps
of `Worker` leave both out; but with them a source can have entries though no job was ever for it,
so what is said of a source without jobs has to say of its entries, too.

The rows are those the command has read before, whatever has become of them since, so any row and
any logs are allowed. -/

/-- A step of the workers and of the commands on the queue, or the transaction of a command that
writes the ledger itself. -/
inductive CommandOp
  | indexer (op : IndexerOp)
  | scan_contract (source : SourceRef) (logs : List (RpcLog × DecodedLog))
  | backfill_event_metadata (source : SourceRow) (log : RpcLog)

/-- A call of the ledger that has returned, and nothing but the database is another. -/
def Indexer.Called (parseAmount : AmountParser) (s : Indexer) (call : LedgerOp) (t : Indexer) :
    Prop :=
  ∃ db, call.apply parseAmount s.db = .ok db ∧ db.SameRows t.db ∧ t.executions = s.executions ∧
    t.ingested = s.ingested

/-- A step of the system with its commands. -/
def CommandStep (parseAmount : AmountParser) (s : Indexer) : CommandOp → Indexer → Prop
  | .indexer op, t => IndexerStep parseAmount s op t
  | .scan_contract source logs, t =>
    s.Called parseAmount (.persist_decoded_logs_with_options source logs
      { restore_orphaned_conflicts := false }) t
  | .backfill_event_metadata source log, t =>
    s.Called parseAmount (.update_log_metadata source log) t

/-- The states the system can reach with its commands. -/
def CommandReachable (parseAmount : AmountParser) : Indexer → Prop :=
  Reachable (CommandStep parseAmount) Indexer.Initial

theorem update_log_metadata_onlyLedger {db db' : Db} {source : SourceRow} {log : RpcLog}
    {summary : LogMetadataUpdate} (h : update_log_metadata db source log = .ok (summary, db')) :
    OnlyLedger db db' := by
  unfold update_log_metadata at h
  simp only [bind_eq_ok, db_result_eq_ok] at h
  obtain ⟨_, -, _, -, _, -, events, -, ledger_entries, -, hdb⟩ := h
  cases hdb
  exact ⟨rfl, rfl, rfl⟩

section Commands

variable {parseAmount : AmountParser} {s t : Indexer}

/-- A step of the system, or a call of the ledger that leaves the queue, the sources, the
checkpoints and the executions as they are. -/
theorem CommandStep.cases {op : CommandOp} (h : CommandStep parseAmount s op t) :
    (∃ op, IndexerStep parseAmount s op t) ∨
      ∃ (call : LedgerOp) (db : Db), call.apply parseAmount s.db = .ok db ∧ OnlyLedger s.db db ∧
        db.SameRows t.db ∧ t.executions = s.executions ∧ t.ingested = s.ingested := by
  cases op with
  | indexer op => exact Or.inl ⟨op, h⟩
  | scan_contract source logs =>
    obtain ⟨db, hcall, hsame⟩ := h
    obtain ⟨summary, hsummary⟩ := map_snd_eq_ok.1 hcall
    exact Or.inr ⟨_, db, hcall, persist_decoded_logs_onlyLedger hsummary, hsame⟩
  | backfill_event_metadata source log =>
    obtain ⟨db, hcall, hsame⟩ := h
    obtain ⟨summary, hsummary⟩ := map_snd_eq_ok.1 hcall
    exact Or.inr ⟨_, db, hcall, update_log_metadata_onlyLedger hsummary, hsame⟩

/-- What the workers and the queue reach, the system reaches with its commands. -/
theorem IndexerReachable.commanded (h : IndexerReachable parseAmount s) :
    CommandReachable parseAmount s := by
  refine Reachable.invariant (I := CommandReachable parseAmount)
    (fun s hs => ⟨s, [], hs, Run.nil⟩) (fun s op t hs hstep => ?_) h
  have hcommand : CommandStep parseAmount s (.indexer op) t := hstep
  exact hs.snoc hcommand

/-- Where no row of the queue, the sources and the checkpoints has moved, and no execution, the
state is as well formed as it was. -/
theorem Indexer.WellFormed.of_sameRows (hs : s.WellFormed)
    (hjobs : ∀ r, r ∈ t.db.jobs.rows ↔ r ∈ s.db.jobs.rows)
    (hsources : ∀ r, r ∈ t.db.sources.rows ↔ r ∈ s.db.sources.rows)
    (hcheckpoints : ∀ c, c ∈ t.db.checkpoints.rows ↔ c ∈ s.db.checkpoints.rows)
    (hexecutions : t.executions = s.executions) (hingested : t.ingested = s.ingested) :
    t.WellFormed := by
  refine ⟨fun slot e he => ?_, ?_, ?_, ?_, ?_, ?_, ?_, fun c hc => ?_⟩
  · rw [hexecutions] at he
    obtain ⟨row, hrow, hsame⟩ := hs.stored slot e he
    exact ⟨row, (hjobs row).2 hrow, hsame⟩
  · rw [hexecutions]
    exact hs.loaded
  · rw [hexecutions, hingested]
    exact hs.noted
  · rw [hexecutions]
    exact hs.ingesting
  · rw [hingested]
    exact fun row hrow => hs.succeeded row ((hjobs row).1 hrow)
  · exact fun row hrow => hs.enqueued row ((hjobs row).1 hrow)
  · intro row hrow source_id hsource
    obtain ⟨source, hstored, hid⟩ := hs.sourced row ((hjobs row).1 hrow) source_id hsource
    exact ⟨source, (hsources source).2 hstored, hid⟩
  · obtain ⟨source, hstored, hid⟩ := hs.checkpointed c ((hcheckpoints c).1 hc)
    exact ⟨source, (hsources source).2 hstored, hid⟩

theorem CommandStep.wellFormed {op : CommandOp} (h : CommandStep parseAmount s op t)
    (hs : s.WellFormed) : t.WellFormed := by
  rcases h.cases with ⟨op, hstep⟩ | ⟨call, db, -, hframe, hsame, hexecutions, hingested⟩
  · exact hstep.effect.wellFormed hs
  · refine hs.of_sameRows (fun r => ?_) (fun r => ?_) (fun c => ?_) hexecutions hingested
    · rw [← hframe.jobs]
      exact hsame.jobs.mem_iff.symm
    · rw [← hframe.sources]
      exact hsame.sources.mem_iff.symm
    · rw [← hframe.checkpoints]
      exact hsame.checkpoints.mem_iff.symm

theorem CommandReachable.wellFormed (h : CommandReachable parseAmount s) : s.WellFormed :=
  Reachable.invariant (fun _ hs => hs.wellFormed) (fun _ _ _ hs hstep => hstep.wellFormed hs) h

end Commands

/-! ## What holds of the ledger in every state

A property of databases that looks at the tables of the ledger alone is kept by the queue and by
the physical order of the rows, so that it is kept by the calls of the ledger is all there is to
show of it. -/

/-- An empty database has it, every call of the ledger preserves it, and neither the queue, nor a
checkpoint, nor the order of the rows breaks it. -/
structure LedgerInvariant (parseAmount : AmountParser) (I : Db → Prop) : Prop where
  empty : I Db.empty
  call : ∀ (db : Db) (call : LedgerOp) (db' : Db), I db → call.apply parseAmount db = .ok db' → I db'
  queue : ∀ db db', I db → SameLedger db db' → I db'
  order : ∀ db db', I db → db.SameRows db' → I db'

/-- The balances are the nets. -/
theorem balanced_ledgerInvariant (parseAmount : AmountParser) :
    LedgerInvariant parseAmount Balanced := by
  refine ⟨fun _ _ => rfl, fun db call db' hdb hcall => ?_, fun db db' hdb hsame => ?_,
    fun db db' hdb hsame => ?_⟩
  · exact hdb.of_keepsBooks (LedgerOp.apply_keepsBooks hcall)
  · exact hdb.of_keepsBooks (KeepsBooks.of_eq hsame.ledger_entries hsame.token_balances)
  · exact hdb.of_keepsBooks hsame.keepsBooks

section States

variable {parseAmount : AmountParser} {I : Db → Prop} {s t : Indexer}

/-- A step of the system makes one call of the ledger or none. -/
theorem IndexerStep.keeps_ledger {op : IndexerOp} (h : IndexerStep parseAmount s op t)
    (hI : LedgerInvariant parseAmount I) (hs : I s.db) : I t.db := by
  obtain ⟨db, hsame, hleft⟩ := h.ledger
  refine hI.order db t.db ?_ hsame
  unfold LeftLedger at hleft
  cases hop : op.ledger_op s.executions with
  | none =>
    rw [hop] at hleft
    exact hI.queue s.db db hs hleft
  | some call =>
    rw [hop] at hleft
    exact hI.call s.db call db hs hleft

/-- It holds in every state the system reaches with its commands. -/
theorem CommandReachable.ledger_invariant (h : CommandReachable parseAmount s)
    (hI : LedgerInvariant parseAmount I) : I s.db := by
  refine Reachable.invariant (I := fun s => I s.db) (fun s hs => hs.1 ▸ hI.empty) ?_ h
  intro s op t hs hstep
  rcases hstep.cases with ⟨op, hstep⟩ | ⟨call, db, happly, -, hsame, -⟩
  · exact hstep.keeps_ledger hI hs
  · exact hI.order db t.db (hI.call s.db call db hs happly) hsame

end States

end EvmIndexer
