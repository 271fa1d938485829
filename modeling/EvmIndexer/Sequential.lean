/-
The worker process as a run of the system.

`Worker` has the steps of any number of workers, cut where the code commits or waits, and most
of what is shown of the indexer is shown of its runs. `Draining` has the loop of one process,
with `execute_job` as the code has it. Here the loop is followed through the steps: whatever
the chain answers and wherever a call fails, there is a run of the system, in one slot, that
leaves the database the process leaves. An error of the repository ends the process, which is
the `crash` of its slot.

The run persists what the chain has answered for the range of its job, and its ranges are
ingested once their logs are persisted, so it is also a run before one chain in the sense of
`ExactlyOnce`.

The two commands that write the ledger without a job are followed in the same way
(`scan_contract_commanded`, `backfill_event_metadata_commanded`).
-/
import EvmIndexer.Attempts
import EvmIndexer.Chunking
import EvmIndexer.Draining
import EvmIndexer.ExactlyOnce
import EvmIndexer.MetadataRepair
import EvmIndexer.Reorg

set_option autoImplicit false

namespace EvmIndexer

open Sql Program Transition

/-! ## The system before any chain

The process asks a chain at every turn, and the chain may answer differently each time. So an
execution persists one of the answers for its job, and only with a history for all of them is
this a run before one chain.
-/

section Answered

variable (parseAmount : AmountParser) (answers : JobRow → List (RpcLog × DecodedLog) → Prop)

/-- What an execution persists is an answer for its job, and `ingest_source_range` returns once
it has persisted one. -/
def Serving.answered (s : Serving) : IndexerOp → Prop
  | .persist_decoded_logs slot logs => ∀ e ∈ s.indexer.executions slot, answers e.job logs
  | .ingest_source_range slot => s.persisted slot = true
  | _ => True

/-- A step of the system before a chain with these answers. -/
def AnsweredStep (s : Serving) (op : IndexerOp) (t : Serving) : Prop :=
  IndexerStep parseAmount s.indexer op t.indexer ∧ s.answered answers op ∧ t.persisted = s.note op

variable {parseAmount answers}

/-- Where the answers are the logs of one history for the jobs that are executed, the chain has
this history. -/
theorem AnsweredStep.serving {source_id : Uuid} {history : List (RpcLog × DecodedLog)}
    {s t : Serving} {op : IndexerOp}
    (hanswers : ∀ slot e logs, s.indexer.executions slot = some e → answers e.job logs →
      e.job.source_id = some source_id → logs.Perm (job_logs history e.job))
    (h : AnsweredStep parseAmount answers s op t) : ServingStep parseAmount source_id history s op t := by
  obtain ⟨hstep, hanswered, hnote⟩ := h
  refine ⟨hstep, ?_, hnote⟩
  cases op with
  | persist_decoded_logs slot logs =>
    exact fun e he => hanswers slot e logs he (hanswered e he)
  | ingest_source_range slot => exact fun _ _ _ => hanswered
  | ensure_source | enqueue | lease | mark_running | load_source | orphan_source_range
  | next_contiguous_checkpoint_target | advance_checkpoint | mark_succeeded | mark_failed
  | mark_interrupted_for_retry | crash => trivial

/-- The notes apart, a run before a chain is a run of the indexer. -/
theorem AnsweredStep.indexer_run {s t : Serving} {ops : List IndexerOp}
    (h : Run (AnsweredStep parseAmount answers) s ops t) :
    Run (IndexerStep parseAmount) s.indexer ops t.indexer :=
  h.map Serving.indexer fun _ _ _ hstep => hstep.1

end Answered

/-! ## One slot

`Leads` says that a run of one slot has come from the start to a database, with an execution
in the slot and the note it has. Each operation of the worker extends such a run by one step,
and there is one lemma for each.
-/

/-- What the worker of a slot does: it leases, and makes the turns of its execution. -/
def IndexerOp.acts_in (slot : Nat) : IndexerOp → Bool
  | .lease slot' .. => slot' == slot
  | op => op.slot == some slot

theorem IndexerOp.acts_in_of_slot {op : IndexerOp} {slot : Nat} (h : op.slot = some slot) :
    op.acts_in slot = true := by
  cases op with
  | ensure_source | enqueue | lease => cases h
  | mark_running | load_source | orphan_source_range | persist_decoded_logs | ingest_source_range
  | next_contiguous_checkpoint_target | advance_checkpoint | mark_succeeded | mark_failed
  | mark_interrupted_for_retry | crash => exact beq_iff_eq.2 h

/-- A worker leaves the sources as they are. -/
theorem IndexerStep.same_sources {parseAmount : AmountParser} {s t : Indexer} {op : IndexerOp}
    {slot : Nat} (h : IndexerStep parseAmount s op t) (hop : op.acts_in slot = true) :
    SameSources s t := by
  cases h.effect with
  | idle _ hsources | enqueued _ _ _ hsources | leased _ _ _ _ hsources | running _ _ _ _ hsources
  | succeeded _ _ _ _ hsources | gave_up _ _ _ _ _ hsources | dropped _ _ _ hsources
  | moved _ _ _ _ hsources | ingested _ _ _ hsources | advanced _ _ _ _ hsources => exact hsources
  | ensured => cases hop

section Slot

variable (parseAmount : AmountParser) (answers : JobRow → List (RpcLog × DecodedLog) → Prop)
  (start : Serving) (slot : Nat)

/-- A run from `start` leads to the database with this execution in the slot, and all else in
the other slots as it was. -/
def Leads (db : Db) (e : Option Execution) (persisted : Bool) : Prop :=
  ∃ ops s, Run (AnsweredStep parseAmount answers) start ops s ∧
    (∀ op ∈ ops, op.acts_in slot = true) ∧ s.indexer.db = db ∧
    s.indexer.executions = Function.update start.indexer.executions slot e ∧
    s.persisted slot = persisted

/-- An operation of an execution is answered. -/
def Execution.answered (e : Execution) (persisted : Bool) : IndexerOp → Prop
  | .persist_decoded_logs _ logs => answers e.job logs
  | .ingest_source_range _ => persisted = true
  | _ => True

/-- The note of a slot after an operation of its execution. -/
def IndexerOp.persisted (persisted : Bool) : IndexerOp → Bool
  | .persist_decoded_logs _ _ => true
  | _ => persisted

variable {parseAmount answers start slot} {db db' : Db} {e : Execution} {persisted : Bool}

/-- Nothing was done yet. -/
theorem Leads.refl (hfree : start.indexer.executions slot = none) :
    Leads parseAmount answers start slot start.indexer.db none (start.persisted slot) :=
  ⟨[], start, .nil, fun _ hop => absurd hop List.not_mem_nil, rfl,
    by rw [← hfree, Function.update_eq_self], rfl⟩

theorem all_acts_in_snoc {ops : List IndexerOp} {op : IndexerOp}
    (hops : ∀ op ∈ ops, op.acts_in slot = true) (hop : op.acts_in slot = true) :
    ∀ op' ∈ ops ++ [op], op'.acts_in slot = true :=
  List.forall_mem_append.2 ⟨hops, List.forall_mem_singleton.2 hop⟩

/-- The sources are those of the start. -/
theorem Leads.sources {next : Option Execution}
    (h : Leads parseAmount answers start slot db next persisted) (r : SourceRow) :
    r ∈ db.sources.rows ↔ r ∈ start.indexer.db.sources.rows := by
  obtain ⟨ops, s, hrun, hops, rfl, -⟩ := h
  exact (hrun.guarded hops).invariant (I := fun t => r ∈ t.indexer.db.sources.rows ↔
      r ∈ start.indexer.db.sources.rows)
    (fun t op u hsame hstep => (hstep.1.1.same_sources hstep.2 r).trans hsame) Iff.rfl

/-- The execution in a slot makes its turn of the operation. -/
theorem exec_of_slot {s : Indexer} {op : IndexerOp} (hop : op.slot = some slot)
    (he : s.executions slot = some e) :
    s.exec parseAmount op = s.advance_execution parseAmount slot e op := by
  cases op with
  | ensure_source | enqueue | lease => cases hop
  | mark_running | load_source | orphan_source_range | persist_decoded_logs | ingest_source_range
  | next_contiguous_checkpoint_target | advance_checkpoint | mark_succeeded | mark_failed
  | mark_interrupted_for_retry | crash =>
    cases hop
    unfold Indexer.exec IndexerOp.slot
    simp only [Option.bind_some, he]

/-- A turn of the execution in the slot. The step is taken from whatever state the run has
come to, of which only the database and the content of the slot are known. -/
theorem Leads.turn (h : Leads parseAmount answers start slot db (some e) persisted) (op : IndexerOp)
    (hop : op.slot = some slot) (hanswered : e.answered answers persisted op)
    {next : Option Execution}
    (hadvance : ∀ s : Indexer, s.db = db → s.executions slot = some e → ∃ u,
      s.advance_execution parseAmount slot e op = some u ∧ u.db = db' ∧
        u.executions = Function.update s.executions slot next) :
    Leads parseAmount answers start slot db' next (op.persisted persisted) := by
  obtain ⟨ops, s, hrun, hops, hdb, hexecutions, hnote⟩ := h
  have he : s.indexer.executions slot = some e := by rw [hexecutions, Function.update_self]
  obtain ⟨u, hu, hu_db, hu_executions⟩ := hadvance s.indexer hdb he
  have hstep : IndexerStep parseAmount s.indexer op u :=
    ⟨u, (exec_of_slot hop he).trans hu, Db.SameRows.refl u.db, rfl, rfl⟩
  refine ⟨ops ++ [op], { indexer := u, persisted := s.note op }, hrun.snoc ⟨hstep, ?_, rfl⟩,
    all_acts_in_snoc hops (IndexerOp.acts_in_of_slot hop), hu_db, ?_, ?_⟩
  · cases op with
    | persist_decoded_logs slot' logs =>
      cases hop
      intro found hfound
      rw [he] at hfound
      cases hfound
      exact hanswered
    | ingest_source_range slot' =>
      cases hop
      exact hnote.trans hanswered
    | ensure_source | enqueue | lease | mark_running | load_source | orphan_source_range
    | next_contiguous_checkpoint_target | advance_checkpoint | mark_succeeded | mark_failed
    | mark_interrupted_for_retry | crash => trivial
  · exact hu_executions.trans (by rw [hexecutions, Function.update_idem])
  · cases op with
    | persist_decoded_logs slot' logs =>
      cases hop
      exact Function.update_self ..
    | ensure_source | enqueue | lease => cases hop
    | mark_running | load_source | orphan_source_range | ingest_source_range
    | next_contiguous_checkpoint_target | advance_checkpoint | mark_succeeded | mark_failed
    | mark_interrupted_for_retry | crash => exact hnote

/-- The worker leases a job, which puts an execution into its empty slot. Nothing has been
persisted for it yet. -/
theorem Leads.lease (h : Leads parseAmount answers start slot db none persisted)
    {worker_id : String} {lease_for : Int} {replay : Bool} {chain_id : Option Int}
    {locked : Uuid → Bool} {selected_at now : Timestamp} {job : JobRow}
    (hlease : lease_next_candidate db worker_id lease_for
      (some (if replay then .ReplayRange else .IngestRange)) chain_id locked selected_at now
        = .ok (some job, db')) :
    Leads parseAmount answers start slot db' (some { worker_id, job, phase := .Leased }) false := by
  obtain ⟨ops, s, hrun, hops, rfl, hexecutions, -⟩ := h
  have hfree : s.indexer.executions slot = none := by rw [hexecutions, Function.update_self]
  have hexec : s.indexer.exec parseAmount
      (.lease slot worker_id lease_for replay chain_id locked selected_at now)
        = some ((s.indexer.with_db db').put slot (some { worker_id, job, phase := .Leased })) := by
    unfold Indexer.exec
    simp only [hfree, hlease]
    rfl
  have hstep : IndexerStep parseAmount s.indexer
      (.lease slot worker_id lease_for replay chain_id locked selected_at now) _ :=
    ⟨_, hexec, Db.SameRows.refl _, rfl, rfl⟩
  refine ⟨_, ⟨_, Function.update s.persisted slot false⟩, hrun.snoc ⟨hstep, trivial, rfl⟩,
    all_acts_in_snoc hops (beq_self_eq_true slot), rfl, ?_, Function.update_self ..⟩
  have hput : (s.indexer.put slot (some { worker_id, job, phase := .Leased })).executions
    = Function.update s.indexer.executions slot (some { worker_id, job, phase := .Leased }) := rfl
  exact hput.trans (by rw [hexecutions, Function.update_idem])

theorem Leads.mark_running (h : Leads parseAmount answers start slot db (some e) persisted)
    (hphase : e.phase = .Leased) {now : Timestamp} {running : JobRow}
    (hmark : mark_running db e.job.id now = .ok (running, db')) :
    Leads parseAmount answers start slot db' (some { e with job := running, phase := .Running })
      persisted := by
  refine h.turn (.mark_running slot now) rfl trivial fun s hdb _ =>
    ⟨(s.with_db db').put slot _, ?_, rfl, rfl⟩
  unfold Indexer.advance_execution
  simp only [hphase, hdb, hmark]
  rfl

theorem Leads.load_source (h : Leads parseAmount answers start slot db (some e) persisted)
    (hphase : e.phase = .Running) {observed : Int} {source : SourceRow}
    (hload : execute_job_source db e.job observed = .ok source) :
    Leads parseAmount answers start slot db (some { e with phase := .Loaded source observed })
      persisted := by
  refine h.turn (.load_source slot observed) rfl trivial fun s hdb _ =>
    ⟨s.put slot _, ?_, hdb, rfl⟩
  unfold Indexer.advance_execution
  simp only [hphase, hdb, hload]
  rfl

theorem Leads.orphan_source_range (h : Leads parseAmount answers start slot db (some e) persisted)
    {source : SourceRow} {observed : Int} (hphase : e.phase = .Loaded source observed)
    (htype : e.job.job_type = .ReplayRange) {from_block to_block : Int}
    (hrange : e.job.range = some (from_block, to_block)) {summary : OrphanRangeSummary}
    (horphan : orphan_source_range db source from_block to_block = .ok (summary, db')) :
    Leads parseAmount answers start slot db' (some { e with phase := .Orphaned source observed })
      persisted := by
  refine h.turn (.orphan_source_range slot) rfl trivial fun s hdb _ =>
    ⟨(s.with_db db').put slot _, ?_, rfl, rfl⟩
  unfold Indexer.advance_execution
  simp only [hphase, htype, hrange, hdb, horphan]
  rfl

/-- An execution that is at its ingest: the conflicts it restores, and where it goes on. -/
inductive Ingesting (source : SourceRow) (observed : Int) (e : Execution) : Bool → Phase → Prop
  | ingest (phase : e.phase = .Loaded source observed) (type : e.job.job_type = .IngestRange) :
      Ingesting source observed e false (.Ingested source observed)
  | replay (phase : e.phase = .Orphaned source observed) (type : e.job.job_type = .ReplayRange) :
      Ingesting source observed e true .Executed

variable {source : SourceRow} {observed : Int} {restore : Bool} {next : Phase}

theorem Leads.persist_decoded_logs (h : Leads parseAmount answers start slot db (some e) persisted)
    (hingesting : Ingesting source observed e restore next) {logs : List (RpcLog × DecodedLog)}
    (hanswer : answers e.job logs) {summary : ScanSummary}
    (hpersist : persist_decoded_logs_with_options parseAmount db source.from_source logs
      { restore_orphaned_conflicts := restore } = .ok (summary, db')) :
    Leads parseAmount answers start slot db' (some e) true := by
  refine h.turn (.persist_decoded_logs slot logs) rfl hanswer fun s hdb he =>
    ⟨s.with_db db', ?_, rfl, ?_⟩
  · unfold Indexer.advance_execution
    cases hingesting with
    | ingest hphase htype =>
      simp only [hphase, htype, hdb, hpersist]
      rfl
    | replay hphase htype =>
      simp only [hphase, htype, hdb, hpersist]
      rfl
  · rw [← he, Function.update_eq_self]
    rfl

theorem Leads.ingest_source_range (h : Leads parseAmount answers start slot db (some e) true)
    (hingesting : Ingesting source observed e restore next) :
    Leads parseAmount answers start slot db (some { e with phase := next }) true := by
  refine h.turn (.ingest_source_range slot) rfl rfl fun s hdb _ =>
    ⟨(s.note_ingested e.job.id).put slot _, ?_, hdb, rfl⟩
  unfold Indexer.advance_execution
  cases hingesting with
  | ingest hphase htype => simp only [hphase, htype]
  | replay hphase htype => simp only [hphase, htype]

theorem Leads.next_contiguous_checkpoint_target
    (h : Leads parseAmount answers start slot db (some e) persisted)
    (hphase : e.phase = .Ingested source observed) {target : Option Int}
    (hnext : next = match target with
      | some target => if observed < target then .Executed else .Targeted source observed target
      | none => .Executed)
    (htarget : next_contiguous_checkpoint_target db source e.job.range = .ok target) :
    Leads parseAmount answers start slot db (some { e with phase := next }) persisted := by
  refine h.turn (.next_contiguous_checkpoint_target slot) rfl trivial fun s hdb _ =>
    ⟨s.put slot _, ?_, hdb, rfl⟩
  unfold Indexer.advance_execution
  simp only [hphase, hdb, htarget, hnext]
  rfl

theorem Leads.advance_checkpoint (h : Leads parseAmount answers start slot db (some e) persisted)
    {target : Int} (hphase : e.phase = .Targeted source observed target)
    {processed_block_hash : String} {row : CheckpointRow}
    (hadvance : advance_checkpoint db source.id target processed_block_hash observed
      = .ok (row, db')) :
    Leads parseAmount answers start slot db' (some { e with phase := .Executed }) persisted := by
  refine h.turn (.advance_checkpoint slot processed_block_hash) rfl trivial fun s hdb _ =>
    ⟨(s.with_db db').put slot _, ?_, rfl, rfl⟩
  unfold Indexer.advance_execution
  simp only [hphase, hdb, hadvance]
  rfl

theorem Leads.mark_succeeded (h : Leads parseAmount answers start slot db (some e) persisted)
    (hphase : e.phase = .Executed) {now : Timestamp} {row : JobRow}
    (hmark : mark_succeeded db e.job.id now = .ok (row, db')) :
    Leads parseAmount answers start slot db' none persisted := by
  refine h.turn (.mark_succeeded slot now) rfl trivial fun s hdb _ =>
    ⟨(s.with_db db').put slot none, ?_, rfl, rfl⟩
  unfold Indexer.advance_execution
  simp only [hphase, hdb, hmark]
  rfl

theorem Leads.mark_failed (h : Leads parseAmount answers start slot db (some e) persisted)
    (hphase : e.phase.executing = true) {message : String} {now : Timestamp} {row : JobRow}
    (hmark : mark_failed db e.job.id "IngestJobError" message now = .ok (row, db')) :
    Leads parseAmount answers start slot db' none persisted := by
  refine h.turn (.mark_failed slot message now) rfl trivial fun s hdb _ =>
    ⟨(s.with_db db').put slot none, ?_, rfl, rfl⟩
  unfold Indexer.advance_execution
  simp only [hphase, hdb, hmark]
  rfl

/-- The process ends before the execution does. -/
theorem Leads.crash (h : Leads parseAmount answers start slot db (some e) persisted) :
    Leads parseAmount answers start slot db none persisted :=
  h.turn (.crash slot) rfl trivial fun s hdb _ => ⟨s.put slot none, rfl, hdb, rfl⟩

end Slot

/-! ## One attempt

The attempt is followed through its program with pre- and postconditions. Wherever it raises
an error, the run has come to the phase before the transaction that failed, which is what the
database shows.
-/

theorem wp_ledger {α : Type} {body : Db → Result (α × Db)} {s : Service} {Q : α → Service → Prop}
    {E : String → Service → Prop} (hok : ∀ a db, body s.db = .ok (a, db) → Q a { s with db })
    (herror : ∀ e, E e s) : Wp (ledger body) Q E s := by
  unfold ledger
  refine Wp.transaction (fun a t h => ?_) fun e _ => herror e
  obtain ⟨⟨a, db⟩, hbody, h⟩ := EvmIndexer.bind_eq_ok.1 h
  cases h
  exact hok a db hbody

section Chain

variable (keccak256 : String → String) (parse_bytes : List Char → Option Nat) (rpc : ChainRpc)

/-- What the chain answers for the range of a job, under one of these sources. -/
def chain_answers (sources : List SourceRow) (chunk_size : Nat) (job : JobRow)
    (logs : List (RpcLog × DecodedLog)) : Prop :=
  ∃ source ∈ sources, ∃ from_block to_block : Int, job.source_id = some source.id ∧
    job.from_block = some from_block ∧ job.to_block = some to_block ∧
    range_logs keccak256 parse_bytes rpc source.from_source from_block.toNat to_block.toNat
      chunk_size none = .ok logs

end Chain

section Attempt

variable {keccak256 : String → String} {parse_bytes : List Char → Option Nat}
  {parseAmount : AmountParser} {rpc : ChainRpc} {answers : JobRow → List (RpcLog × DecodedLog) → Prop}
  {start : Serving} {slot : Nat} {e : Execution} {persisted : Bool} {s : Service}

/-- A run leads to the database with the execution at one of these phases. -/
def Stops (parseAmount : AmountParser) (answers : JobRow → List (RpcLog × DecodedLog) → Prop)
    (start : Serving) (slot : Nat) (e : Execution) (phases : Phase → Prop) (t : Service) : Prop :=
  ∃ phase persisted, phases phase ∧
    Leads parseAmount answers start slot t.db (some { e with phase }) persisted

/-- The execution is where `execute_job` has not returned. -/
abbrev Raised (parseAmount : AmountParser) (answers : JobRow → List (RpcLog × DecodedLog) → Prop)
    (start : Serving) (slot : Nat) (e : Execution) (t : Service) : Prop :=
  Stops parseAmount answers start slot e (fun phase => phase.executing = true) t

theorem Leads.raised (h : Leads parseAmount answers start slot s.db (some e) persisted)
    (hphase : e.phase.executing = true) : Raised parseAmount answers start slot e s :=
  ⟨e.phase, persisted, hphase, h⟩

/-- Ingesting persists the answer of the chain, and then returns or not. -/
theorem ingest_source_range_leads {source : SourceRow} {observed : Int} {restore : Bool}
    (receipts : Bool) {next : Phase} {«from» «to» chunk_size : Nat}
    (h : Leads parseAmount answers start slot s.db (some e) persisted)
    (hingesting : Ingesting source observed e restore next)
    (hanswers : ∀ logs, range_logs keccak256 parse_bytes rpc source.from_source «from» «to» chunk_size
      none = .ok logs → answers e.job logs) :
    Wp (ingest_source_range keccak256 parse_bytes parseAmount rpc source.from_source «from» «to»
        chunk_size { include_transaction_receipts := receipts
                     restore_orphaned_conflicts := restore
                     prefetched_logs := none })
      (fun _ t => Leads parseAmount answers start slot t.db (some { e with phase := next }) true)
      (fun _ t => Raised parseAmount answers start slot e t) s := by
  have hphase : e.phase.executing = true := by
    cases hingesting with
    | ingest hphase => rw [hphase]; rfl
    | replay hphase => rw [hphase]; rfl
  refine Wp.intro (fun summary t hok => ?_) fun message t herror => ?_
  · obtain ⟨decoded, _, hdecoded, hpersist⟩ := ingest_source_range_returns hok
    exact (h.persist_decoded_logs hingesting (hanswers decoded hdecoded)
      hpersist).ingest_source_range hingesting
  · rcases ingest_source_range_stops herror with hdb | ⟨decoded, _, hdecoded, hpersist⟩
    · rw [← hdb] at h
      exact h.raised hphase
    · exact (h.persist_decoded_logs hingesting (hanswers decoded hdecoded) hpersist).raised hphase

/-- The end of an ingest attempt: the target, and the checkpoint if there is one to advance.
A hash that cannot be fetched leaves the execution with its target. -/
theorem advance_source_checkpoint_leads {source : SourceRow} {observed : Int} {range : Int × Int}
    (h : Leads parseAmount answers start slot s.db (some e) persisted)
    (hphase : e.phase = .Ingested source observed) (hrange : e.job.range = some range) :
    Wp (advance_source_checkpoint rpc source range observed)
      (fun _ t => Stops parseAmount answers start slot e (· = .Executed) t)
      (fun _ t => Raised parseAmount answers start slot e t) s := by
  have hraised := h.raised (by rw [hphase]; rfl)
  unfold advance_source_checkpoint
  refine Wp.get_bind (Wp.bind (Wp.ask (fun target htarget => ?_) fun _ _ => hraised))
  rw [context_eq_ok, ← hrange] at htarget
  split
  · exact Wp.pure ⟨.Executed, _, rfl, h.next_contiguous_checkpoint_target hphase rfl htarget⟩
  rename_i target
  have htargeted := h.next_contiguous_checkpoint_target hphase rfl htarget
  dsimp only at htargeted
  by_cases hbelow : observed < target
  · rw [if_pos hbelow] at htargeted ⊢
    exact Wp.pure ⟨.Executed, _, rfl, htargeted⟩
  rw [if_neg hbelow] at htargeted ⊢
  have hraised : Raised parseAmount answers start slot e s := ⟨_, _, rfl, htargeted⟩
  refine Wp.bind (Wp.ask (fun hash _ => ?_) fun _ _ => hraised)
  refine Wp.bind (wp_ledger (fun row db hadvance => ?_) fun _ => hraised)
  rw [context_eq_ok] at hadvance
  exact Wp.pure ⟨.Executed, _, rfl, htargeted.advance_checkpoint rfl hadvance⟩

/-- An attempt, from the job marked running to its summary or its error. -/
theorem execute_job_leads {worker : IngestWorker}
    (h : Leads parseAmount answers start slot s.db (some e) persisted) (hphase : e.phase = .Running)
    (hanswers : ∀ logs, chain_answers keccak256 parse_bytes rpc s.db.sources.rows worker.chunk_size
      e.job logs → answers e.job logs) :
    Wp (execute_job keccak256 parse_bytes parseAmount rpc worker e.job)
      (fun _ t => Stops parseAmount answers start slot e (· = .Executed) t)
      (fun _ t => Raised parseAmount answers start slot e t) s := by
  have hraised := h.raised (by rw [hphase]; rfl)
  unfold execute_job
  refine Wp.get_bind (Wp.bind (Wp.ask (fun found hsource => ?_) fun _ _ => hraised))
  obtain ⟨source, from_block, to_block⟩ := found
  refine Wp.bind (Wp.ask (fun observed _ => ?_) fun _ _ => hraised)
  unfold execute_checked_job
  refine Wp.bind (Wp.ask (fun _ hfinalized => ?_) fun _ _ => hraised)
  -- the checks have passed, and the source is read
  have hload : execute_job_source s.db e.job observed = .ok source := by
    rw [execute_job_source_eq, hsource]
    simp only [bind, Except.bind, hfinalized]
  have hloaded := h.load_source hphase hload
  have hraised : Raised parseAmount answers start slot e s := ⟨_, _, rfl, hloaded⟩
  obtain ⟨hmem, hsource_id, hfrom, hto, -⟩ := job_source_spec hsource
  have hrange : e.job.range = some (from_block, to_block) := by
    unfold JobRow.range
    rw [hfrom, hto]
  have hanswer : ∀ logs, range_logs keccak256 parse_bytes rpc source.from_source from_block.toNat
      to_block.toNat worker.chunk_size none = .ok logs → answers e.job logs := fun logs hlogs =>
    hanswers logs ⟨source, hmem, from_block, to_block, hsource_id, hfrom, hto, hlogs⟩
  refine Wp.bind (Wp.ask (fun _ _ => ?_) fun _ _ => hraised)
  split
  · rename_i htype
    refine Wp.bind (wp_ledger (fun orphaned db horphan => ?_) fun _ => hraised)
    rw [context_eq_ok] at horphan
    have horphaned := hloaded.orphan_source_range rfl htype hrange horphan
    exact (ingest_source_range_leads (s := { s with db }) worker.include_transaction_receipts horphaned
      (.replay rfl htype) hanswer).mono (fun _ _ h => ⟨_, _, rfl, h⟩) fun _ _ h => h
  · rename_i htype
    have htype : e.job.job_type = .IngestRange := by
      unfold job_source at hsource
      rw [bail_eq_ok] at hsource
      by_contra hother
      exact hsource.1 ⟨hother, htype⟩
    refine Wp.bind ((ingest_source_range_leads worker.include_transaction_receipts hloaded
      (.ingest rfl htype) hanswer).mono (fun summary t hingested => ?_) fun _ _ h => h)
    exact Wp.bind ((advance_source_checkpoint_leads hingested rfl hrange).mono
      (fun _ _ h => Wp.pure h) fun _ _ h => h)

end Attempt

/-! ## A turn of the worker

A turn leases, attempts and records. An error of the attempt is recorded as a failure, and
one of the repository ends the process, with the execution left where it is; the run then
crashes its slot.
-/

theorem wp_repository {α : Type} {body : Db → Result (α × Db)} {s : DrainState}
    {Q : α → DrainState → Prop} {E : String → DrainState → Prop}
    (hok : ∀ a db, body s.service.db = .ok (a, db) →
      Q a { s with service := { s.service with db } })
    (herror : ∀ e, E e s) : Wp (repository body) Q E s := by
  unfold repository
  refine Wp.transaction (fun a t h => ?_) fun e _ => herror e
  obtain ⟨⟨a, db⟩, hbody, h⟩ := EvmIndexer.bind_eq_ok.1 h
  cases h
  exact hok a db hbody

section Turn

variable {keccak256 : String → String} {parse_bytes : List Char → Option Nat}
  {parseAmount : AmountParser} {rpc : ChainRpc} {answers : JobRow → List (RpcLog × DecodedLog) → Prop}
  {start : Serving} {slot : Nat} {persisted : Bool} {worker : LeasingWorker} {turn : WorkerTurn}
  {s : DrainState}

/-- A run leads to the database of the worker, with nothing in its slot. -/
def Rests (parseAmount : AmountParser) (answers : JobRow → List (RpcLog × DecodedLog) → Prop)
    (start : Serving) (slot : Nat) (t : DrainState) : Prop :=
  ∃ persisted, Leads parseAmount answers start slot t.service.db none persisted

/-- The loop over the job types: the types that have no job are no steps. -/
theorem lease_first_leads {types : List JobType}
    (htypes : ∀ job_type ∈ types, job_type = .ReplayRange ∨ job_type = .IngestRange)
    (h : Rests parseAmount answers start slot s) :
    Wp (lease_first worker turn types)
      (fun found t => match found with
        | some leased => Leads parseAmount answers start slot t.service.db
            (some { worker_id := worker.worker_id, job := leased, phase := .Leased }) false
        | none => Rests parseAmount answers start slot t)
      (fun _ t => Rests parseAmount answers start slot t) s := by
  induction types generalizing s with
  | nil => exact Wp.pure h
  | cons job_type rest ih =>
    obtain ⟨htype, hrest⟩ := List.forall_mem_cons.1 htypes
    unfold lease_first
    refine Wp.bind (wp_repository (fun found db hlease => ?_) fun _ => h)
    unfold lease_next_supported_type at hlease
    rw [context_eq_ok, context_eq_ok] at hlease
    cases found with
    | none =>
      rcases lease_next_candidate_spec hlease with ⟨-, rfl⟩ | ⟨_, -, hsome, -⟩
      · exact ih hrest h
      · cases hsome
    | some leased =>
      obtain ⟨persisted, h⟩ := h
      have hreplay : job_type = if decide (job_type = .ReplayRange) then .ReplayRange
          else .IngestRange := by
        rcases htype with rfl | rfl <;> rfl
      rw [hreplay] at hlease
      exact Wp.pure (h.lease hlease)

/-- Leasing and marking: the job is running, or the slot is empty. -/
theorem lease_and_mark_running_leads {replay_first : Bool}
    (h : Rests parseAmount answers start slot s) :
    Wp (lease_and_mark_running worker turn replay_first)
      (fun found t => match found with
        | some running => Leads parseAmount answers start slot t.service.db
            (some { worker_id := worker.worker_id, job := running, phase := .Running }) false
        | none => Rests parseAmount answers start slot t)
      (fun _ t => Rests parseAmount answers start slot t) s := by
  unfold lease_and_mark_running
  split
  · exact h
  have htypes : ∀ job_type ∈ job_types replay_first,
      job_type = .ReplayRange ∨ job_type = .IngestRange := by
    cases replay_first <;> decide
  refine Wp.bind ((lease_first_leads htypes h).mono (fun found t hfound => ?_) fun _ _ h => h)
  cases found with
  | none => exact Wp.pure hfound
  | some leased =>
    -- a job that cannot be marked stays leased, with nobody to execute it
    refine Wp.bind (wp_repository (fun running db hmark => ?_) fun _ => ⟨_, hfound.crash⟩)
    rw [context_eq_ok] at hmark
    exact Wp.pure (hfound.mark_running rfl hmark)

/-- Where the execution is once `execute_job` has ended. -/
def Attempted (parseAmount : AmountParser) (answers : JobRow → List (RpcLog × DecodedLog) → Prop)
    (start : Serving) (slot : Nat) (e : Execution) (t : Service) : Result ScanSummary → Prop
  | .ok _ => Stops parseAmount answers start slot e (· = .Executed) t
  | .error _ => Raised parseAmount answers start slot e t

theorem execute_noted_leads {e : Execution} {E : String → DrainState → Prop}
    (h : Wp (turn.execute e.job) (fun _ t => Stops parseAmount answers start slot e (· = .Executed) t)
      (fun _ t => Raised parseAmount answers start slot e t) s.service) :
    Wp (execute_noted turn e.job)
      (fun result t => Attempted parseAmount answers start slot e t.service result) E s := by
  refine Wp.intro (fun result t hok => ?_) fun message t herror => ?_
  · unfold execute_noted at hok
    split at hok
    · cases hok
      exact h.of_ok ‹_›
    · cases hok
      exact h.of_error ‹_›
  · unfold execute_noted at herror
    split at herror
    · cases herror
    · cases herror

/-- Recording how the attempt went empties the slot, and so does a failure to record it. -/
theorem finish_running_job_leads {e : Execution} {result : Result ScanSummary}
    (h : Attempted parseAmount answers start slot e s.service result) :
    Wp (finish_running_job turn e.job result)
      (fun _ t => Rests parseAmount answers start slot t)
      (fun _ t => Rests parseAmount answers start slot t) s := by
  unfold finish_running_job
  cases result with
  | ok summary =>
    obtain ⟨phase, persisted, hphase, h⟩ := h
    refine Wp.bind (wp_repository (fun row db hmark => ?_) fun _ => ⟨_, h.crash⟩)
    rw [context_eq_ok] at hmark
    exact Wp.pure ⟨_, h.mark_succeeded hphase hmark⟩
  | error message =>
    obtain ⟨phase, persisted, hphase, h⟩ := h
    refine Wp.bind (wp_repository (fun row db hmark => ?_) fun _ => ⟨_, h.crash⟩)
    rw [context_eq_ok] at hmark
    exact Wp.pure ⟨_, h.mark_failed hphase hmark⟩

/-- A turn of the worker is a run in its slot, however it ends. -/
theorem run_once_leads
    (hexecute : turn.execute
      = execute_job keccak256 parse_bytes parseAmount rpc worker.toIngestWorker)
    (hanswers : ∀ job logs, chain_answers keccak256 parse_bytes rpc start.indexer.db.sources.rows
      worker.chunk_size job logs → answers job logs)
    (h : Rests parseAmount answers start slot s) :
    Wp (run_once worker turn) (fun _ t => Rests parseAmount answers start slot t)
      (fun _ t => Rests parseAmount answers start slot t) s := by
  unfold run_once
  refine Wp.get_bind (Wp.bind ((lease_and_mark_running_leads h).mono (fun found t hfound => ?_)
    fun _ _ h => h))
  cases found with
  | none => exact Wp.pure hfound
  | some running =>
    dsimp only at hfound
    -- the sources are those the run started with, so the chain answers for them
    have hsame : ∀ job logs, chain_answers keccak256 parse_bytes rpc t.service.db.sources.rows
        worker.chunk_size job logs → answers job logs := by
      rintro job logs ⟨source, hsource, hlogs⟩
      exact hanswers job logs ⟨source, (hfound.sources source).1 hsource, hlogs⟩
    have hattempt := execute_job_leads (s := t.service) hfound rfl (hsame running)
    rw [← hexecute] at hattempt
    refine Wp.bind ((execute_noted_leads hattempt).mono (fun result u hattempted => ?_)
      fun _ _ h => h)
    refine Wp.bind ((finish_running_job_leads hattempted).mono (fun outcome v hrests => ?_)
      fun _ _ h => h)
    obtain ⟨w, hpriority, hservice, -⟩ := update_priority_after_outcome_spec running outcome v
    refine Wp.bind (Wp.intro (fun _ w' hok => ?_) fun _ w' herror => ?_)
    · rw [hpriority] at hok
      cases hok
      unfold Rests at hrests ⊢
      rw [← hservice] at hrests
      exact Wp.pure hrests
    · rw [hpriority] at herror
      cases herror

end Turn

/-! ## The loop

Between two turns the slot is empty, so the runs of the turns follow each other. The
induction is on the fuel of the loop.
-/

section Drains

variable {keccak256 : String → String} {parse_bytes : List Char → Option Nat}
  {parseAmount : AmountParser} {answers : JobRow → List (RpcLog × DecodedLog) → Prop}
  {start : Serving} {slot : Nat} {worker : LeasingWorker} {turns : Nat → WorkerTurn}

/-- Every turn executes its job by the code, before some chain with these answers. -/
def Executes (keccak256 : String → String) (parse_bytes : List Char → Option Nat)
    (parseAmount : AmountParser) (worker : LeasingWorker) (turns : Nat → WorkerTurn)
    (sources : List SourceRow) (answers : JobRow → List (RpcLog × DecodedLog) → Prop) : Prop :=
  ∀ i, ∃ rpc : ChainRpc,
    (turns i).execute = execute_job keccak256 parse_bytes parseAmount rpc worker.toIngestWorker ∧
    ∀ job logs, chain_answers keccak256 parse_bytes rpc sources worker.chunk_size job logs →
      answers job logs

/-- A turn after which the loop goes on has executed a job. -/
theorem run_once_of_next {max_jobs : Option Nat} {i : Nat}
    {progress progress' : WorkerRunSummary × DrainState}
    (h : drain_turn worker turns max_jobs i progress = .next progress') :
    ∃ outcome, run_once worker (turns i) progress.2 = .ok (some outcome) progress'.2 := by
  obtain ⟨summary, s⟩ := progress
  unfold drain_turn at h
  dsimp only at h
  split at h
  · cases h
  split at h
  · cases h
  · cases h
  · cases h
    exact ⟨_, ‹_›⟩
  · cases h
    exact ⟨_, ‹_›⟩
  · cases h

/-- The loop ends at its limit, with an error, or with a turn that has executed no job to its
end. -/
theorem run_once_of_done {max_jobs : Option Nat} {i : Nat} {progress : WorkerRunSummary × DrainState}
    {result : EStateM.Result String DrainState WorkerRunSummary}
    (h : drain_turn worker turns max_jobs i progress = .done result) :
    ((∃ limit ∈ max_jobs, limit ≤ progress.1.attempted_jobs) ∧ left result = progress.2) ∨
    (∃ e t, run_once worker (turns i) progress.2 = .error e t ∧ result = .error e t) ∨
    ∃ ended summary t, run_once worker (turns i) progress.2 = .ok ended t ∧
      result = .ok summary t ∧
      ∀ outcome ∈ ended, ∃ job_id status, outcome = .Interrupted job_id status := by
  obtain ⟨summary, s⟩ := progress
  unfold drain_turn at h
  dsimp only at h
  split at h
  · rename_i hlimit
    cases h
    obtain ⟨limit, hmem, hreached⟩ := (Option.any_eq_true _ _).1 hlimit
    exact Or.inl ⟨⟨limit, hmem, of_decide_eq_true hreached⟩, rfl⟩
  split at h
  · cases h
    exact Or.inr (Or.inl ⟨_, _, ‹_›, rfl⟩)
  · cases h
    exact Or.inr (Or.inr ⟨_, _, _, ‹_›, rfl, fun _ hmem => absurd hmem (Option.not_mem_none _)⟩)
  · cases h
  · cases h
  · cases h
    refine Or.inr (Or.inr ⟨_, _, _, ‹_›, rfl, fun outcome hmem => ?_⟩)
    exact ⟨_, _, (Option.mem_some.1 hmem).symm⟩

/-- A drain is a run in its slot, whichever way it ends. -/
theorem run_until_idle_leads {max_jobs : Option Nat} {fuel : Nat} {s : DrainState}
    {result : EStateM.Result String DrainState WorkerRunSummary}
    (hturns : Executes keccak256 parse_bytes parseAmount worker turns start.indexer.db.sources.rows
      answers)
    (hs : Rests parseAmount answers start slot s)
    (h : run_until_idle worker turns max_jobs fuel s = some result) :
    Rests parseAmount answers start slot (left result) := by
  have honce : ∀ (i : Nat) (s : DrainState), Rests parseAmount answers start slot s →
      Wp (run_once worker (turns i)) (fun _ t => Rests parseAmount answers start slot t)
        (fun _ t => Rests parseAmount answers start slot t) s := by
    intro i s hs
    obtain ⟨rpc, hexecute, hanswers⟩ := hturns i
    exact run_once_leads hexecute hanswers hs
  have hturn : ∀ i (progress progress' : WorkerRunSummary × DrainState),
      Rests parseAmount answers start slot progress.2 →
      drain_turn worker turns max_jobs i progress = .next progress' →
      Rests parseAmount answers start slot progress'.2 := by
    intro i progress progress' hs hnext
    obtain ⟨outcome, hrun⟩ := run_once_of_next hnext
    exact (honce i progress.2 hs).of_ok hrun
  obtain ⟨i, progress, hrests, hlast⟩ := Loop.run_spec
    (I := fun _ (progress : WorkerRunSummary × DrainState) =>
      Rests parseAmount answers start slot progress.2) hturn h hs
  rcases run_once_of_done hlast with ⟨-, hleft⟩ | ⟨e, t, hrun, rfl⟩ | ⟨ended, summary, t, hrun, rfl, -⟩
  · rwa [hleft]
  · exact (honce i progress.2 hrests).of_error hrun
  · exact (honce i progress.2 hrests).of_ok hrun

end Drains

/-- A worker process that drains the queue is a run of the system: from any state with its slot
free, whatever the clock and the chains show at each turn and however the process ends, there is
a run in this slot alone that leaves the database the process leaves and all executions as they
were. -/
theorem draining_worker_is_a_run {keccak256 : String → String}
    {parse_bytes : List Char → Option Nat} {parseAmount : AmountParser} {worker : LeasingWorker}
    {turns : Nat → WorkerTurn}
    (hturns : ∀ i, ∃ rpc, (turns i).execute
      = execute_job keccak256 parse_bytes parseAmount rpc worker.toIngestWorker)
    {s : Indexer} {slot : Nat} (hfree : s.executions slot = none) {service : Service}
    (hdb : service.db = s.db) {replay_first : Bool} {max_jobs : Option Nat} {fuel : Nat}
    {result : EStateM.Result String DrainState WorkerRunSummary}
    (h : run_until_idle worker turns max_jobs fuel (.start service replay_first) = some result) :
    ∃ ops t, Run (IndexerStep parseAmount) s ops t ∧ (∀ op ∈ ops, op.acts_in slot = true) ∧
      t.db = (left result).service.db ∧ t.executions = s.executions := by
  have hexecutes : Executes keccak256 parse_bytes parseAmount worker turns s.db.sources.rows
      (fun _ _ => True) := by
    intro i
    obtain ⟨rpc, hexecute⟩ := hturns i
    exact ⟨rpc, hexecute, fun _ _ _ => trivial⟩
  have hstart : Rests parseAmount (fun _ _ => True) { indexer := s, persisted := fun _ => false } slot
      (.start service replay_first) := by
    refine ⟨false, ?_⟩
    have hservice : (DrainState.start service replay_first).service.db = s.db := hdb
    rw [hservice]
    exact Leads.refl hfree
  obtain ⟨_, ops, t, hrun, hops, ht, hexecutions, -⟩ := run_until_idle_leads hexecutes hstart h
  refine ⟨ops, t.indexer, AnsweredStep.indexer_run hrun, hops, ht, hexecutions.trans ?_⟩
  dsimp only
  rw [← hfree, Function.update_eq_self]

/-! ## Commands that write the ledger

`scan_contract` and `backfill_event_metadata` have no job and no slot. Their transactions are
steps of the system all the same, the source that a scan ensures, what it persists, and each log
that a repair writes, so what such a command leaves, also where it ends in an error, is a state of
the system.
-/

section Commands

variable {keccak256 : String → String} {parse_bytes : List Char → Option Nat}
  {parseAmount : AmountParser} {rpc : ChainRpc}

/-- Steps of the system and its commands lead from the database of the one state to that of the
other, past whatever executions there are. -/
def Commanded (parseAmount : AmountParser) (s t : Service) : Prop :=
  ∀ (executions : Nat → Option Execution) (ingested : List Uuid), ∃ ops,
    Run (CommandStep parseAmount) { db := s.db, executions, ingested } ops
      { db := t.db, executions, ingested }

/-- What does not change the tables is no step. -/
theorem Commanded.of_eq {s t : Service} (h : t.db = s.db) : Commanded parseAmount s t := by
  intro executions ingested
  rw [h]
  exact ⟨[], Run.nil⟩

theorem Commanded.refl (s : Service) : Commanded parseAmount s s := .of_eq rfl

theorem Commanded.trans {s t u : Service} (h : Commanded parseAmount s t)
    (k : Commanded parseAmount t u) : Commanded parseAmount s u := by
  intro executions ingested
  obtain ⟨ops, hops⟩ := h executions ingested
  obtain ⟨more, hmore⟩ := k executions ingested
  exact ⟨ops ++ more, hops.append hmore⟩

/-- A transaction on the tables that is a step. -/
theorem Commanded.step {s : Service} {db : Db} (op : CommandOp)
    (h : ∀ executions ingested, CommandStep parseAmount { db := s.db, executions, ingested } op
      { db, executions, ingested }) : Commanded parseAmount s { s with db } :=
  fun executions ingested => ⟨[op], Run.cons (h executions ingested) Run.nil⟩

/-- What an ingest without a job persists is one step. -/
theorem ingest_source_range_commanded (source : SourceRef) («from» «to» chunk_size : Nat)
    {options : IngestOptions} (hkeep : options.restore_orphaned_conflicts = false) :
    Keeps (Commanded parseAmount) (ingest_source_range keccak256 parse_bytes parseAmount rpc source
      «from» «to» chunk_size options) := by
  refine ingest_source_range_keeps Commanded.refl Commanded.trans (fun _ => .of_eq rfl) ?_
    fun _ _ => .of_eq rfl
  intro decoded _ s summary db hpersist
  rw [hkeep] at hpersist
  exact .step (.scan_contract source decoded) fun _ _ =>
    ⟨db, map_snd_eq_ok.2 ⟨summary, hpersist⟩, Db.SameRows.refl db, rfl, rfl⟩

/-- A scan is a run: the source it ensures is a step of the system, and so is what it persists. -/
theorem scan_contract_commanded (args : ScanContractArgs) : Keeps (Commanded parseAmount)
    (scan_contract keccak256 parse_bytes parseAmount rpc args) := by
  refine scan_contract_keeps Commanded.refl Commanded.trans (fun _ _ => .of_eq rfl) ?_
    fun _ _ _ _ _ _ _ source => ingest_source_range_commanded source _ _ _ rfl
  intro s name contract standard start_block row db hsource
  refine .step (.indexer (.ensure_source args.chain_id name contract standard start_block))
    fun _ _ => ⟨_, ?_, Db.SameRows.refl db, rfl, rfl⟩
  unfold Indexer.exec
  dsimp only
  rw [hsource]
  rfl

/-- A repair is a run, of one step for every log it has looked up. -/
theorem backfill_event_metadata_commanded (chain_id : Int) (contract : String) (limit_blocks : Int) :
    Keeps (Commanded parseAmount) (backfill_event_metadata rpc chain_id contract limit_blocks) := by
  unfold backfill_event_metadata
  refine Keeps.ask_bind Commanded.refl fun address _ => ?_
  refine Keeps.bind (R := Commanded parseAmount) Commanded.trans (Keeps.get Commanded.refl)
    fun service => ?_
  refine Keeps.ask_bind Commanded.refl fun source _ => ?_
  refine Keeps.foldlM Commanded.refl Commanded.trans (fun done block _ => ?_) _
  unfold backfill_block
  refine Keeps.ask_bind Commanded.refl fun fetched _ => ?_
  refine Keeps.foldlM Commanded.refl Commanded.trans (fun done log _ => ?_) _
  unfold backfill_log ledger
  refine Keeps.bind (R := Commanded parseAmount) Commanded.trans
    (Keeps.transaction Commanded.refl fun s _ t h => ?_) fun _ => Keeps.pure Commanded.refl _
  simp only [EvmIndexer.bind_eq_ok, context_eq_ok] at h
  obtain ⟨⟨_, db⟩, hupdate, h⟩ := h
  cases h
  exact .step (.backfill_event_metadata source { log with block_timestamp := some fetched.1 })
    fun _ _ => ⟨db, map_snd_eq_ok.2 ⟨_, hupdate⟩, Db.SameRows.refl db, rfl, rfl⟩

/-- A command run in a state of the system leaves one. -/
theorem CommandReachable.of_commanded {α : Type} {s : Indexer}
    (hs : CommandReachable parseAmount s) {program : Job α}
    (hprogram : Keeps (Commanded parseAmount) program) {service : Service}
    (hdb : service.db = s.db) :
    CommandReachable parseAmount (s.with_db (left (program service)).db) := by
  obtain ⟨start, before, hinit, hbefore⟩ := hs
  obtain ⟨ops, hops⟩ := hprogram service s.executions s.ingested
  rw [hdb] at hops
  exact ⟨start, before ++ ops, hinit, hbefore.append hops⟩

end Commands

/-! ## A worker that drains two jobs -/

/-- The log of a mint in block 1. -/
def minted_log : RpcLog := (erc20_transfer "0x1" "0xb1" "0xd1" zero_address alice).1

/-- A chain with this log, and a block 2. -/
def token_rpc : ChainRpc :=
  { two_log_rpc with
    block_hash := fun block => .ok (if block = 1 then "0x01" else "0x02")
    logs := fun _ standard first last => .ok (history_logs event_digest [minted_log] standard first last) }

def token_worker : LeasingWorker :=
  { chunk_size := 1
    include_transaction_receipts := false
    worker_id := "w"
    lease_for := 60
    chain_id := none }

def token_turns (_ : Nat) : WorkerTurn :=
  worker_turn event_digest parse_hex_digits plain_digits token_rpc token_worker.toIngestWorker 0

/-- The tables with a chain beside them. -/
def token_service (db : Db) : Service :=
  { db
    chains := [{ name := "chain", chain_id := 1, finality_confirmations := 0 }]
    transaction_receipts := []
    reorg_events := []
    ingested := [] }

/-- The token with a job for each of its blocks. -/
def token_queued : Indexer :=
  Indexer.after plain_digits
    [ensure_token 0, .enqueue .Backfill 0 1 1 5 0, .enqueue .Backfill 0 2 2 5 1]

theorem draining_worker_is_a_run_two_jobs :
    ∃ ops t, Run (IndexerStep plain_digits) token_queued ops t ∧
      ∀ job ∈ t.db.jobs.rows, job.status = .Succeeded := by
  have hdrained : (run_until_idle token_worker token_turns none 3
      (.start (token_service token_queued.db) false)).any (fun result =>
        (left result).service.db.jobs.rows.all fun job => job.status == .Succeeded) = true := by
    decide +kernel
  obtain ⟨result, hresult, hsucceeded⟩ := (Option.any_eq_true _ _).1 hdrained
  obtain ⟨ops, t, hrun, -, hdb, -⟩ := draining_worker_is_a_run (fun _ => ⟨token_rpc, rfl⟩)
    (show token_queued.executions 0 = none by rfl) rfl hresult
  refine ⟨ops, t, hrun, fun job hjob => ?_⟩
  rw [hdb] at hjob
  exact beq_iff_eq.1 (List.all_eq_true.1 hsucceeded job hjob)

end EvmIndexer
