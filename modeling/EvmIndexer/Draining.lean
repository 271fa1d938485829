/-
`run_until_idle` of `worker/mod.rs`: a worker that drains the queue.

The loop takes a job of one of two types, executes it, records how it went and starts again;
only the queue running dry ends it. A failed job goes straight back to the queue, and a job
some other worker has left leased is taken once its lease expires, so no list gets shorter.
What does is the number of attempts the jobs have left (`Db.budget`): a job that is queued,
leased or running has at least one, and the turn that executes it uses one up however it
ends.

What a turn reads from outside is its `WorkerTurn`: the times the clock shows, and what
executing a job returns and commits. The worker is alone, so nothing is locked and an execution
leaves the jobs as they are, which is a field of the turn; `worker_turn` makes one from the code
of an execution, whatever the chain answers.
-/
import EvmIndexer.AttemptLog
import EvmIndexer.Execute
import EvmIndexer.Interleaving
import EvmIndexer.Lib.Loop
import Mathlib.Algebra.Order.BigOperators.Group.List

set_option autoImplicit false

namespace EvmIndexer

open Sql Program

/-! ## The worker

The loop is written with what it reads from outside as a parameter, turn by turn, so that
what is proved of it holds whatever the clock shows and the executions return. The one demand
on an execution is a field of the turn: it leaves the jobs as they are.
-/

/-- `IngestWorker`, with what it leases by. -/
structure LeasingWorker extends IngestWorker where
  worker_id : String
  lease_for : Int
  chain_id : Option Int
  deriving DecidableEq, Repr

/-- The same rows in `jobs`. -/
def KeepsJobs (s t : Service) : Prop := s.db.jobs.HeapPerm t.db.jobs

/-- What a turn of the worker reads from outside: the clock, at each statement that reads it,
and what executing a job returns and commits. -/
structure WorkerTurn where
  selected_at : JobType → Timestamp
  leased_at : JobType → Timestamp
  running_at : Timestamp
  execute : JobRow → Job ScanSummary
  finished_at : Timestamp
  keeps_jobs : ∀ job, Keeps KeepsJobs (execute job)

/-- The worker in its loop: the database, its `replay_first`, and the jobs it has executed so
far, which the code does not keep. -/
structure DrainState where
  service : Service
  replay_first : Bool
  executed : List JobRow

/-- A part of the loop. -/
abbrev Drain (α : Type) : Type := EStateM String DrainState α

/-- A call of the repository. -/
def repository {α : Type} (body : Db → Result (α × Db)) : Drain α :=
  transaction fun s => do
    let (a, db) ← body s.service.db
    .ok (a, { s with service := { s.service with db } })

/-- `WorkerRunStopReason`. -/
inductive WorkerRunStopReason
  | Idle
  | MaxJobsReached
  | Interrupted
  deriving DecidableEq, Repr

/-- `WorkerRunSummary`. -/
structure WorkerRunSummary where
  processed_jobs : Nat
  failed_jobs : Nat
  interrupted_jobs : Nat
  stop_reason : WorkerRunStopReason
  deriving DecidableEq, Repr

/-- `WorkerRunSummary::default`. -/
def WorkerRunSummary.default : WorkerRunSummary :=
  { processed_jobs := 0, failed_jobs := 0, interrupted_jobs := 0, stop_reason := .Idle }

/-- `attempted_jobs`. -/
def WorkerRunSummary.attempted_jobs (summary : WorkerRunSummary) : Nat :=
  summary.processed_jobs + summary.failed_jobs + summary.interrupted_jobs

/-- `JobType::as_str`. -/
def JobType.as_str : JobType → String
  | .IngestRange => "INGEST_RANGE"
  | .ReplayRange => "REPLAY_RANGE"
  | .VerifyReorg => "VERIFY_REORG"
  | .RepairCheckpoint => "REPAIR_CHECKPOINT"

section Worker

variable (worker : LeasingWorker) (turn : WorkerTurn)

/-- `lease_next_supported_type`. No other process holds a lock. -/
def lease_next_supported_type (job_type : JobType) (db : Db) : Result (Option JobRow × Db) :=
  context "lease next supported job" (lease_next_candidate db worker.worker_id worker.lease_for
    (some job_type) worker.chain_id (fun _ => false) (turn.selected_at job_type)
    (turn.leased_at job_type))

/-- The loop of `lease_and_mark_running` over the job types. -/
def lease_first : List JobType → Drain (Option JobRow)
  | [] => return none
  | job_type :: rest => do
    match ← repository fun db => context ("lease next " ++ job_type.as_str ++ " job")
        (lease_next_supported_type worker turn job_type db) with
    | some leased => return some leased
    | none => lease_first rest

/-- The two types the worker leases, in their order. -/
def job_types (replay_first : Bool) : List JobType :=
  if replay_first then [.ReplayRange, .IngestRange] else [.IngestRange, .ReplayRange]

/-- `lease_and_mark_running`. -/
def lease_and_mark_running (replay_first : Bool) : Drain (Option JobRow) :=
  if worker.chunk_size = 0 then throw "chunk-size must be greater than zero"
  else do
    match ← lease_first worker turn (job_types replay_first) with
    | none => return none
    | some leased => do
      let running ← repository fun db => context "mark job running"
        (mark_running db leased.id turn.running_at)
      return some running

/-- `self.execute_job(&running).await`, as the value it has, and noted. -/
def execute_noted (running : JobRow) : Drain (Result ScanSummary) := fun s =>
  match turn.execute running s.service with
  | .ok summary service =>
    .ok (.ok summary) { s with service, executed := s.executed ++ [running] }
  | .error message service =>
    .ok (.error message) { s with service, executed := s.executed ++ [running] }

/-- `finish_running_job`. -/
def finish_running_job (running : JobRow) (result : Result ScanSummary) : Drain WorkerOutcome :=
  match result with
  | .ok summary => do
    let succeeded ← repository fun db => context "mark job succeeded"
      (mark_succeeded db running.id turn.finished_at)
    return .Processed succeeded.id summary
  | .error message => do
    let failed ← repository fun db => context "mark job failed"
      (mark_failed db running.id "IngestJobError" message turn.finished_at)
    return .Failed failed.id failed.status message

/-- `update_priority_after_outcome`. -/
def update_priority_after_outcome (running : JobRow) (outcome : WorkerOutcome) : Drain Unit :=
  match outcome with
  | .Processed _ _ => modify fun s => { s with replay_first := true }
  | .Failed _ _ _ =>
    if running.job_type = .ReplayRange then modify fun s => { s with replay_first := false }
    else return ()
  | .Interrupted _ _ => return ()

/-- `run_once`, where `none` is `WorkerOutcome::NoJob`. -/
def run_once : Drain (Option WorkerOutcome) := do
  let s ← get
  match ← lease_and_mark_running worker turn s.replay_first with
  | none => return none
  | some running => do
    let result ← execute_noted turn running
    let outcome ← finish_running_job turn running result
    update_priority_after_outcome running outcome
    return some outcome

end Worker

/-- A turn of the loop of `run_until_idle`. -/
def drain_turn (worker : LeasingWorker) (turns : Nat → WorkerTurn) (max_jobs : Option Nat) (i : Nat)
    (progress : WorkerRunSummary × DrainState) :
    Loop.Turn (WorkerRunSummary × DrainState) (EStateM.Result String DrainState WorkerRunSummary) :=
  let (summary, s) := progress
  if max_jobs.any fun max_jobs => decide (max_jobs ≤ summary.attempted_jobs) then
    .done (.ok { summary with stop_reason := .MaxJobsReached } s)
  else
    match run_once worker (turns i) s with
    | .error e t => .done (.error e t)
    | .ok none t => .done (.ok { summary with stop_reason := .Idle } t)
    | .ok (some (.Processed _ _)) t =>
      .next ({ summary with processed_jobs := summary.processed_jobs + 1 }, t)
    | .ok (some (.Failed _ _ _)) t =>
      .next ({ summary with failed_jobs := summary.failed_jobs + 1 }, t)
    | .ok (some (.Interrupted _ _)) t =>
      .done (.ok { summary with
        interrupted_jobs := summary.interrupted_jobs + 1, stop_reason := .Interrupted } t)

/-- `run_until_idle`, for at most `fuel` turns of its loop. -/
def run_until_idle (worker : LeasingWorker) (turns : Nat → WorkerTurn) (max_jobs : Option Nat)
    (fuel : Nat) (s : DrainState) : Option (EStateM.Result String DrainState WorkerRunSummary) :=
  Loop.run (drain_turn worker turns max_jobs) fuel 0 (.default, s)

/-! ## The turns of a worker

The demand is met by the code of an execution. It writes the ledger, the checkpoint and the
source, and each of these transactions keeps the table of jobs, also where it fails in the
middle.
-/

theorem KeepsJobs.of_eq {s t : Service} (h : t.db.jobs = s.db.jobs) : KeepsJobs s t := by
  unfold KeepsJobs
  rw [h]
  exact List.Perm.refl _

theorem KeepsJobs.refl (s : Service) : KeepsJobs s s := .of_eq rfl

theorem KeepsJobs.trans {s t u : Service} (h : KeepsJobs s t) (k : KeepsJobs t u) : KeepsJobs s u :=
  List.Perm.trans h k

/-- A transaction on other tables. -/
theorem ledger_keepsJobs {α : Type} {body : Db → Result (α × Db)}
    (hbody : ∀ db a db', body db = .ok (a, db') → db'.jobs = db.jobs) :
    Keeps KeepsJobs (ledger body) := by
  unfold ledger
  refine Keeps.transaction KeepsJobs.refl fun s a t h => ?_
  rw [EvmIndexer.bind_eq_ok] at h
  obtain ⟨⟨b, db⟩, hdb, h⟩ := h
  cases h
  exact .of_eq (hbody s.db _ db hdb)

section Executions

variable {keccak256 : String → String} {parse_bytes : List Char → Option Nat}
  {parseAmount : AmountParser} {rpc : ChainRpc}

theorem ingest_source_range_keepsJobs (source : SourceRef) («from» «to» chunk_size : Nat)
    (options : IngestOptions) :
    Keeps KeepsJobs (ingest_source_range keccak256 parse_bytes parseAmount rpc source «from» «to»
      chunk_size options) := by
  refine ingest_source_range_keeps KeepsJobs.refl KeepsJobs.trans (fun _ => .of_eq rfl) ?_
    fun _ _ => .of_eq rfl
  intro decoded _ s summary db hpersist
  exact .of_eq (persist_decoded_logs_onlyLedger hpersist).jobs

theorem advance_source_checkpoint_keepsJobs (source : SourceRow) (range : Int × Int)
    (observed : Int) :
    Keeps KeepsJobs (advance_source_checkpoint rpc source range observed) := by
  unfold advance_source_checkpoint
  refine Keeps.bind (R := KeepsJobs) KeepsJobs.trans (Keeps.get KeepsJobs.refl) fun service => ?_
  refine Keeps.ask_bind KeepsJobs.refl fun target _ => ?_
  split
  · exact Keeps.pure KeepsJobs.refl _
  split
  · exact Keeps.pure KeepsJobs.refl _
  refine Keeps.ask_bind KeepsJobs.refl fun hash _ => ?_
  refine Keeps.bind (R := KeepsJobs) KeepsJobs.trans ?_ fun _ => Keeps.pure KeepsJobs.refl _
  refine ledger_keepsJobs fun db row db' h => ?_
  rw [context_eq_ok] at h
  obtain ⟨hframe, -⟩ := advance_checkpoint_spec h
  rw [hframe]

/-- Executing a job leaves the jobs as they are: it is the queue that moves them. -/
theorem execute_job_keepsJobs (worker : IngestWorker) (job : JobRow) :
    Keeps KeepsJobs (execute_job keccak256 parse_bytes parseAmount rpc worker job) := by
  unfold execute_job
  refine Keeps.bind (R := KeepsJobs) KeepsJobs.trans (Keeps.get KeepsJobs.refl) fun service => ?_
  refine Keeps.ask_bind KeepsJobs.refl fun ⟨source, from_block, to_block⟩ _ => ?_
  refine Keeps.ask_bind KeepsJobs.refl fun observed _ => ?_
  unfold execute_checked_job
  refine Keeps.ask_bind KeepsJobs.refl fun _ _ => ?_
  refine Keeps.ask_bind KeepsJobs.refl fun _ _ => ?_
  split
  · refine Keeps.bind (R := KeepsJobs) KeepsJobs.trans ?_ fun _ =>
      ingest_source_range_keepsJobs _ _ _ _ _
    refine ledger_keepsJobs fun db _ db' h => ?_
    rw [context_eq_ok] at h
    exact (orphan_source_range_onlyLedger h).jobs
  · refine Keeps.bind (R := KeepsJobs) KeepsJobs.trans (ingest_source_range_keepsJobs _ _ _ _ _)
      fun summary => ?_
    exact Keeps.bind (R := KeepsJobs) KeepsJobs.trans (advance_source_checkpoint_keepsJobs _ _ _)
      fun _ => Keeps.pure KeepsJobs.refl _

variable (keccak256 parse_bytes parseAmount rpc)

/-- The turn of a worker that executes its jobs with the given chain, at one time. -/
def worker_turn (worker : IngestWorker) (now : Timestamp) : WorkerTurn where
  selected_at _ := now
  leased_at _ := now
  running_at := now
  execute := execute_job keccak256 parse_bytes parseAmount rpc worker
  finished_at := now
  keeps_jobs := execute_job_keepsJobs worker

variable {keccak256 parse_bytes parseAmount rpc}

/-- Executing a job and recording how it went is `run_job`: no shutdown is requested. -/
theorem finish_running_job_eq_run_job (worker : IngestWorker) (now : Timestamp) (running : JobRow)
    (s : DrainState) :
    (execute_noted (worker_turn keccak256 parse_bytes parseAmount rpc worker now) running >>=
        finish_running_job (worker_turn keccak256 parse_bytes parseAmount rpc worker now) running) s
      = match run_job keccak256 parse_bytes parseAmount rpc worker running false now s.service with
        | .ok outcome service =>
          .ok outcome { s with service, executed := s.executed ++ [running] }
        | .error message service =>
          .error message { s with service, executed := s.executed ++ [running] } := by
  rw [bind_run]
  unfold run_job execute_noted worker_turn
  dsimp only
  cases execute_job keccak256 parse_bytes parseAmount rpc worker running s.service with
  -- both mark the job as the attempt has ended
  | ok summary service =>
    dsimp only [finish_running_job]
    rw [bind_run, bind_run]
    unfold repository ledger transaction
    cases h : context "mark job succeeded" (mark_succeeded service.db running.id now) with
    | ok result => simp [h, bind, Except.bind, pure, EStateM.pure]
    | error e => simp [h, bind, Except.bind]
  | error message service =>
    dsimp only [finish_running_job]
    rw [if_neg Bool.false_ne_true, bind_run, bind_run]
    unfold repository ledger transaction
    cases h : context "mark job failed" (mark_failed service.db running.id "IngestJobError" message
      now) with
    | ok result => simp [h, bind, Except.bind, pure, EStateM.pure]
    | error e => simp [h, bind, Except.bind]

end Executions

/-! ## Attempts left

The budget of a queued, leased or running job is its `max_attempts` less what it has used,
and at least one, since a lease hands out a job whose attempts are used up all the same. Jobs
in other states have none. No turn raises a budget, and the one that executes a job lowers
it.
-/

/-- The attempts a job has left: at least one while a worker may still execute it. -/
def JobRow.budget (row : JobRow) : Int :=
  if row.status = .Queued ∨ row.status = .Leased ∨ row.status = .Running then
    max 1 (row.max_attempts - row.attempts)
  else 0

/-- The attempts left of the jobs with these ids. -/
def Db.budget (db : Db) (p : Uuid → Bool) : Int :=
  (db.jobs.rows.map fun row => if p row.id then row.budget else 0).sum

/-- How often the jobs with these ids were executed. -/
def DrainState.executions (s : DrainState) (p : Uuid → Bool) : Int :=
  (s.executed.filter fun row => p row.id).length

theorem JobRow.budget_nonneg (row : JobRow) : 0 ≤ row.budget := by
  unfold JobRow.budget
  split
  · omega
  · omega

theorem budget_term_nonneg {rows : List JobRow} {p : Uuid → Bool} {x : Int}
    (hx : x ∈ rows.map fun row => if p row.id then row.budget else 0) : 0 ≤ x := by
  obtain ⟨row, -, rfl⟩ := List.mem_map.1 hx
  split
  · exact row.budget_nonneg
  · exact le_refl _

theorem Db.budget_nonneg (db : Db) (p : Uuid → Bool) : 0 ≤ db.budget p :=
  List.sum_nonneg fun _ hx => budget_term_nonneg hx

/-- Replacing a row changes the budget by that of its job. -/
theorem budget_replaceRow {db db' : Db} {old new : JobRow} (hold : old ∈ db.jobs.rows)
    (hrows : db'.jobs.rows = replaceRow old new db.jobs.rows) (hid : new.id = old.id)
    (p : Uuid → Bool) :
    db'.budget p = db.budget p + if p old.id then new.budget - old.budget else 0 := by
  unfold Db.budget
  rw [hrows, sum_replaceRow _ db.jobs.nodup hold, hid]
  split
  · omega
  · omega

/-- Neither does the order of the rows. -/
theorem budget_of_perm {db db' : Db} (h : db.jobs.HeapPerm db'.jobs) (p : Uuid → Bool) :
    db'.budget p = db.budget p := ((h.map _).sum_eq).symm

/-- A job that can be leased has an attempt left. -/
theorem budget_of_candidate {row : JobRow} {now : Timestamp} {job_type : Option JobType}
    {chain_id : Option Int} (h : row.is_candidate now job_type chain_id = true) :
    row.budget = max 1 (row.max_attempts - row.attempts) := by
  unfold JobRow.is_candidate JobRow.lease_expired at h
  simp only [Bool.and_eq_true, Bool.or_eq_true, beq_iff_eq] at h
  unfold JobRow.budget
  rw [if_pos]
  rcases h.2 with hqueued | ⟨hleased | hrunning, -⟩
  · exact Or.inl hqueued
  · exact Or.inr (Or.inl hleased)
  · exact Or.inr (Or.inr hrunning)

/-! ## What a turn does

A turn leases, marks running, executes and records. A call of the repository can fail in the
database at any of these, and the loop ends with its error; `TurnSpec` lists the endings of a
turn with what each leaves of the jobs.
-/

/-- A call of the repository that commits. -/
theorem repository_eq_ok {α : Type} {body : Db → Result (α × Db)} {s t : DrainState} {a : α} :
    repository body s = .ok a t ↔ body s.service.db = .ok (a, t.service.db) ∧
      t = { s with service := { s.service with db := t.service.db } } := by
  unfold repository
  rw [transaction_eq_ok, EvmIndexer.bind_eq_ok]
  constructor
  · rintro ⟨⟨_, db⟩, hbody, h⟩
    cases h
    exact ⟨hbody, rfl⟩
  · rintro ⟨hbody, ht⟩
    exact ⟨(a, t.service.db), hbody, by rw [ht]⟩

/-- One that is rolled back. -/
theorem repository_eq_error {α : Type} {body : Db → Result (α × Db)} {s t : DrainState}
    {e : String} (h : repository body s = .error e t) : body s.service.db = .error e ∧ t = s := by
  unfold repository at h
  obtain ⟨hbody, hs⟩ := transaction_eq_error.1 h
  refine ⟨?_, hs.symm⟩
  cases hok : body s.service.db with
  | ok result =>
    rw [hok] at hbody
    cases hbody
  | error message =>
    rw [hok] at hbody
    cases hbody
    rfl

/-- A call of the repository that failed in the database, on one of its jobs. -/
inductive CallFailed (worker : LeasingWorker) (turn : WorkerTurn) (db : Db) (e : String) : Prop
  | lease (job_type : JobType) (h : context ("lease next " ++ job_type.as_str ++ " job")
      (lease_next_supported_type worker turn job_type db) = .error e)
  | mark_running (job : JobRow) (hjob : job ∈ db.jobs.rows)
      (h : context "mark job running" (mark_running db job.id turn.running_at) = .error e)
  | mark_succeeded (job : JobRow) (hjob : job ∈ db.jobs.rows)
      (h : context "mark job succeeded" (mark_succeeded db job.id turn.finished_at) = .error e)
  | mark_failed (job : JobRow) (hjob : job ∈ db.jobs.rows) (message : String)
      (h : context "mark job failed" (mark_failed db job.id "IngestJobError" message
        turn.finished_at) = .error e)

section Turns

variable {worker : LeasingWorker} {turn : WorkerTurn} {s t : DrainState}

/-- A call that marks a stored job replaces its row. -/
theorem mark_job_of_mem {db db' : Db} {job : JobRow} (hjob : job ∈ db.jobs.rows)
    {set : JobRow → JobRow} {hset : KeepsKeys set} {attempt_status : JobStatus}
    {error_class error_message : Option String} {now : Timestamp} {row : JobRow}
    (h : mark_job db job.id set hset attempt_status error_class error_message now = .ok (row, db')) :
    row = set job ∧ db'.jobs.rows = replaceRow job (set job) db.jobs.rows := by
  obtain ⟨-, found, hfound, hid, hrow, hrows⟩ := mark_job_returns h
  obtain rfl := job_eq_of_id db hfound hjob hid
  exact ⟨hrow, hrows⟩

/-- None of the jobs is a candidate where none is locked. -/
theorem lock_next_candidate_eq_none {db : Db} {now : Timestamp} {job_type : Option JobType}
    {chain_id : Option Int}
    (h : lock_next_candidate db now job_type chain_id (fun _ => false) = none) :
    ∀ row ∈ db.jobs.rows, row.is_candidate now job_type chain_id = false := by
  intro row hrow
  by_contra hcandidate
  have hmem : row ∈ (db.jobs.rows.filter (JobRow.is_candidate now job_type chain_id)).insertionSort
      fun a b => a.created_at ≤ b.created_at :=
    (List.mem_insertionSort _).2 (List.mem_filter.2 ⟨hrow, by simpa using hcandidate⟩)
  exact List.find?_eq_none.1 h row hmem rfl

/-- A worker that finds nothing has looked at each type in turn. -/
theorem lease_first_none {types : List JobType} (h : lease_first worker turn types s = .ok none t) :
    t = s ∧ ∀ job_type ∈ types, ∀ row ∈ s.service.db.jobs.rows,
      row.is_candidate (turn.selected_at job_type) (some job_type) worker.chain_id = false := by
  induction types with
  | nil =>
    unfold lease_first at h
    cases h
    exact ⟨rfl, fun _ hmem => absurd hmem List.not_mem_nil⟩
  | cons job_type rest ih =>
    unfold lease_first lease_next_supported_type at h
    obtain ⟨leased, mid, hlease, hrest⟩ := Program.bind_eq_ok.1 h
    obtain ⟨hbody, hmid⟩ := repository_eq_ok.1 hlease
    rw [context_eq_ok, context_eq_ok] at hbody
    cases leased with
    | some job => cases hrest
    | none =>
      rcases lease_next_candidate_spec hbody with ⟨-, hsame⟩ | ⟨candidate, -, hsome, -⟩
      · have hmid : mid = s := by rw [hmid, hsame]
        obtain ⟨ht, hothers⟩ := ih (hmid ▸ hrest)
        refine ⟨ht, fun ty hty => ?_⟩
        rcases List.mem_cons.1 hty with rfl | hty
        · -- the lease looked for a candidate of this type and found none
          unfold lease_next_candidate at hbody
          split at hbody
          · rename_i hnone
            exact lock_next_candidate_eq_none hnone
          · simp only [bind_eq_ok] at hbody
            obtain ⟨_, -, _, -, _, -, hbody⟩ := hbody
            cases hbody
        · exact hothers ty hty
      · cases hsome

/-- A worker that finds a job has leased a candidate. -/
theorem lease_first_some {types : List JobType} {leased : JobRow}
    (h : lease_first worker turn types s = .ok (some leased) t) :
    ∃ job_type now, ∃ candidate ∈ s.service.db.jobs.rows,
      candidate.is_candidate (turn.selected_at job_type) (some job_type) worker.chain_id = true ∧
      leased = candidate.lease worker.worker_id now ∧
      t.service.db.jobs.rows = replaceRow candidate leased s.service.db.jobs.rows ∧
      t.executed = s.executed := by
  induction types generalizing s with
  | nil =>
    unfold lease_first at h
    cases h
  | cons job_type rest ih =>
    unfold lease_first lease_next_supported_type at h
    obtain ⟨found, mid, hlease, hrest⟩ := Program.bind_eq_ok.1 h
    obtain ⟨hbody, hmid⟩ := repository_eq_ok.1 hlease
    rw [context_eq_ok, context_eq_ok] at hbody
    rcases lease_next_candidate_spec hbody with ⟨rfl, hsame⟩ | ⟨candidate, hnext, rfl, hrows, -⟩
    · have hmid : mid = s := by rw [hmid, hsame]
      exact ih (hmid ▸ hrest)
    · cases hrest
      have hcandidate := lock_next_candidate_spec hnext
      refine ⟨job_type, _, candidate, hcandidate.mem, hcandidate.candidate, rfl, hrows, ?_⟩
      rw [hmid]

/-- A lease that fails leaves the database it failed in. -/
theorem lease_first_error {types : List JobType} {e : String}
    (h : lease_first worker turn types s = .error e t) :
    t = s ∧ CallFailed worker turn t.service.db e := by
  induction types generalizing s with
  | nil =>
    unfold lease_first at h
    cases h
  | cons job_type rest ih =>
    unfold lease_first at h
    rcases Program.bind_eq_error.1 h with hlease | ⟨found, mid, hlease, hrest⟩
    · obtain ⟨hbody, rfl⟩ := repository_eq_error hlease
      exact ⟨rfl, .lease job_type hbody⟩
    · obtain ⟨hbody, hmid⟩ := repository_eq_ok.1 hlease
      unfold lease_next_supported_type at hbody
      rw [context_eq_ok, context_eq_ok] at hbody
      rcases lease_next_candidate_spec hbody with ⟨rfl, hsame⟩ | ⟨candidate, -, rfl, -⟩
      · have hmid : mid = s := by rw [hmid, hsame]
        obtain ⟨ht, hfailed⟩ := ih (hmid ▸ hrest)
        exact ⟨ht, hfailed⟩
      · cases hrest

/-- The job a turn holds once it is marked running, and the row it was leased from. -/
structure Holds (s t : DrainState) (job running : JobRow) : Prop where
  mem : job ∈ s.service.db.jobs.rows
  held : running ∈ t.service.db.jobs.rows
  id : running.id = job.id
  attempts : running.attempts = job.attempts + 1
  max_attempts : running.max_attempts = job.max_attempts
  status : running.status = .Running
  leasable : job.budget = max 1 (job.max_attempts - job.attempts)
  budget : ∀ p, t.service.db.budget p
    = s.service.db.budget p + if p job.id then running.budget - job.budget else 0
  executed : t.executed = s.executed

theorem lease_and_mark_running_some {replay_first : Bool} {running : JobRow}
    (h : lease_and_mark_running worker turn replay_first s = .ok (some running) t) :
    ∃ job, Holds s t job running := by
  unfold lease_and_mark_running at h
  split at h
  · cases h
  obtain ⟨found, mid, hlease, hmark⟩ := Program.bind_eq_ok.1 h
  cases found with
  | none => cases hmark
  -- two writes of one row: the lease, which counts the attempt, and the mark
  | some leased =>
    obtain ⟨job_type, now, job, hjob, hcandidate, rfl, hleased, hexecuted⟩ := lease_first_some hlease
    obtain ⟨row, last, hmark, hreturn⟩ := Program.bind_eq_ok.1 hmark
    obtain ⟨hbody, hlast⟩ := repository_eq_ok.1 hmark
    cases hreturn
    rw [context_eq_ok] at hbody
    have hmem : job.lease worker.worker_id now ∈ mid.service.db.jobs.rows := by
      rw [hleased, mem_replaceRow hjob]
      exact Or.inl rfl
    obtain ⟨rfl, hrows⟩ := mark_job_of_mem hmem hbody
    refine ⟨job, ⟨hjob, ?_, rfl, rfl, rfl, rfl, budget_of_candidate hcandidate, ?_, ?_⟩⟩
    · rw [hrows, mem_replaceRow hmem]
      exact Or.inl rfl
    · -- the lease takes one attempt of its job, the mark takes none
      intro p
      rw [budget_replaceRow hmem hrows rfl p, budget_replaceRow hjob hleased rfl p]
      have hid : (job.lease worker.worker_id now).id = job.id := rfl
      rw [hid]
      split
      · omega
      · omega
    · rw [hlast]
      exact hexecuted

theorem lease_and_mark_running_none {replay_first : Bool}
    (h : lease_and_mark_running worker turn replay_first s = .ok none t) :
    t = s ∧ ∀ job_type ∈ job_types replay_first, ∀ row ∈ s.service.db.jobs.rows,
      row.is_candidate (turn.selected_at job_type) (some job_type) worker.chain_id = false := by
  unfold lease_and_mark_running at h
  split at h
  · cases h
  obtain ⟨found, mid, hlease, hmark⟩ := Program.bind_eq_ok.1 h
  cases found with
  | none =>
    cases hmark
    exact lease_first_none hlease
  | some leased =>
    obtain ⟨row, last, -, hreturn⟩ := Program.bind_eq_ok.1 hmark
    cases hreturn

theorem lease_and_mark_running_error {replay_first : Bool} {e : String}
    (h : lease_and_mark_running worker turn replay_first s = .error e t) :
    t.executed = s.executed ∧ (worker.chunk_size = 0 ∨ CallFailed worker turn t.service.db e) := by
  unfold lease_and_mark_running at h
  split at h
  · rename_i hzero
    cases h
    exact ⟨rfl, Or.inl hzero⟩
  rcases Program.bind_eq_error.1 h with hlease | ⟨found, mid, hlease, hmark⟩
  · obtain ⟨rfl, hfailed⟩ := lease_first_error hlease
    exact ⟨rfl, Or.inr hfailed⟩
  cases found with
  | none => cases hmark
  | some leased =>
    obtain ⟨job_type, now, job, hjob, -, rfl, hleased, hexecuted⟩ := lease_first_some hlease
    have hmem : job.lease worker.worker_id now ∈ mid.service.db.jobs.rows := by
      rw [hleased, mem_replaceRow hjob]
      exact Or.inl rfl
    rcases Program.bind_eq_error.1 hmark with hmark | ⟨row, last, -, hreturn⟩
    · obtain ⟨hbody, rfl⟩ := repository_eq_error hmark
      exact ⟨hexecuted, Or.inr (.mark_running _ hmem hbody)⟩
    · cases hreturn

/-- Executing a job notes it, and leaves the jobs as they are. -/
theorem execute_noted_spec (turn : WorkerTurn) (running : JobRow) (s : DrainState) :
    ∃ result t, execute_noted turn running s = .ok result t ∧ KeepsJobs s.service t.service ∧
      t.executed = s.executed ++ [running] := by
  have hkept := turn.keeps_jobs running s.service
  unfold execute_noted
  cases hexecute : turn.execute running s.service with
  | ok summary service =>
    rw [hexecute] at hkept
    exact ⟨_, _, rfl, hkept, rfl⟩
  | error message service =>
    rw [hexecute] at hkept
    exact ⟨_, _, rfl, hkept, rfl⟩

/-- How a job a turn has executed is left: ended, or queued with the attempts it has left. -/
structure Finished (running row : JobRow) : Prop where
  id : row.id = running.id
  budget : row.budget = 0 ∨
    (running.attempts < running.max_attempts ∧ row.budget = running.max_attempts - running.attempts)

theorem Finished.succeed (running : JobRow) : Finished running running.succeed := by
  refine ⟨rfl, Or.inl ?_⟩
  have hstatus : running.succeed.status = .Succeeded := rfl
  unfold JobRow.budget
  rw [if_neg]
  rw [hstatus]
  decide

theorem Finished.give_up (running : JobRow) (error_class error_message : String) :
    Finished running (running.give_up running.failed_status error_class error_message) := by
  refine ⟨rfl, ?_⟩
  have hstatus : (running.give_up running.failed_status error_class error_message).status
    = running.failed_status := rfl
  have hattempts : (running.give_up running.failed_status error_class error_message).attempts
    = running.attempts := rfl
  have hmax : (running.give_up running.failed_status error_class error_message).max_attempts
    = running.max_attempts := rfl
  unfold JobRow.budget
  rw [hstatus, hattempts, hmax]
  rcases failed_status_cases running with ⟨-, hdead⟩ | ⟨hlt, hqueued⟩
  · left
    rw [hdead, if_neg]
    decide
  · right
    rw [hqueued, if_pos (Or.inl rfl), max_eq_right (by omega)]
    exact ⟨hlt, rfl⟩

/-- Recording how the execution went: one row is replaced by a finished one, whether the
outcome was a success, a retry or a dead letter. Without a shutdown there is no interruption.
-/
theorem finish_running_job_ok {running : JobRow} {result : Result ScanSummary}
    {outcome : WorkerOutcome} (hrunning : running ∈ s.service.db.jobs.rows)
    (h : finish_running_job turn running result s = .ok outcome t) :
    (∀ job_id status, outcome ≠ .Interrupted job_id status) ∧ t.executed = s.executed ∧
      ∃ row, Finished running row ∧
        t.service.db.jobs.rows = replaceRow running row s.service.db.jobs.rows := by
  unfold finish_running_job at h
  split at h
  · obtain ⟨row, mid, hmark, hreturn⟩ := Program.bind_eq_ok.1 h
    obtain ⟨hbody, hmid⟩ := repository_eq_ok.1 hmark
    cases hreturn
    rw [context_eq_ok] at hbody
    obtain ⟨rfl, hrows⟩ := mark_job_of_mem hrunning hbody
    exact ⟨fun _ _ h => (nomatch h), by rw [hmid], _, .succeed running, hrows⟩
  · obtain ⟨row, mid, hmark, hreturn⟩ := Program.bind_eq_ok.1 h
    obtain ⟨hbody, hmid⟩ := repository_eq_ok.1 hmark
    cases hreturn
    rw [context_eq_ok] at hbody
    unfold mark_failed at hbody
    split at hbody
    · cases hbody
    · rename_i found hfind
      obtain ⟨hfound, hid⟩ := find_job _ hfind
      obtain rfl := job_eq_of_id _ hfound hrunning hid
      obtain ⟨rfl, hrows⟩ := mark_job_of_mem hrunning hbody
      exact ⟨fun _ _ h => (nomatch h), by rw [hmid], _, .give_up _ _ _, hrows⟩

theorem finish_running_job_error {running : JobRow} {result : Result ScanSummary} {e : String}
    (hrunning : running ∈ s.service.db.jobs.rows)
    (h : finish_running_job turn running result s = .error e t) :
    t = s ∧ CallFailed worker turn t.service.db e := by
  unfold finish_running_job at h
  split at h
  · rcases Program.bind_eq_error.1 h with hmark | ⟨row, mid, -, hreturn⟩
    · obtain ⟨hbody, rfl⟩ := repository_eq_error hmark
      exact ⟨rfl, .mark_succeeded running hrunning hbody⟩
    · cases hreturn
  · rename_i message
    rcases Program.bind_eq_error.1 h with hmark | ⟨row, mid, -, hreturn⟩
    · obtain ⟨hbody, rfl⟩ := repository_eq_error hmark
      exact ⟨rfl, .mark_failed running hrunning message hbody⟩
    · cases hreturn

/-- The flag is all a priority update changes. -/
theorem update_priority_after_outcome_spec (running : JobRow) (outcome : WorkerOutcome)
    (s : DrainState) : ∃ t, update_priority_after_outcome running outcome s = .ok () t ∧
      t.service = s.service ∧ t.executed = s.executed := by
  unfold update_priority_after_outcome
  split
  · exact ⟨_, rfl, rfl, rfl⟩
  · split
    · exact ⟨_, rfl, rfl, rfl⟩
    · exact ⟨_, rfl, rfl, rfl⟩
  · exact ⟨_, rfl, rfl, rfl⟩

/-- How a turn can end. -/
inductive TurnSpec (worker : LeasingWorker) (turn : WorkerTurn) (s : DrainState) :
    EStateM.Result String DrainState (Option WorkerOutcome) → Prop
  /-- Nothing could be leased. -/
  | idle {t : DrainState} (executed : t.executed = s.executed)
      (none_leasable : ∀ job_type ∈ [JobType.IngestRange, .ReplayRange],
        ∀ row ∈ t.service.db.jobs.rows,
          row.is_candidate (turn.selected_at job_type) (some job_type) worker.chain_id = false) :
      TurnSpec worker turn s (.ok none t)
  /-- A job was executed, and has an attempt less. -/
  | attempted {t : DrainState} {outcome : WorkerOutcome} {running job : JobRow}
      (ended : ∀ job_id status, outcome ≠ .Interrupted job_id status)
      (id : running.id = job.id) (executed : t.executed = s.executed ++ [running])
      (budget : ∀ p, t.service.db.budget p + (if p job.id then 1 else 0) ≤ s.service.db.budget p) :
      TurnSpec worker turn s (.ok (some outcome) t)
  /-- A call failed, perhaps after a job was executed. -/
  | failed {t : DrainState} {e : String}
      (executions : ∀ p, t.executions p ≤ s.executions p + s.service.db.budget p)
      (reason : worker.chunk_size = 0 ∨ CallFailed worker turn t.service.db e) :
      TurnSpec worker turn s (.error e t)

/-- An execution more, of a job. -/
theorem executions_append {running : JobRow} (h : t.executed = s.executed ++ [running])
    (p : Uuid → Bool) : t.executions p = s.executions p + if p running.id then 1 else 0 := by
  unfold DrainState.executions
  rw [h, List.filter_append, List.length_append]
  cases hp : p running.id with
  | true =>
    rw [List.filter_singleton, hp]
    rfl
  | false =>
    rw [List.filter_singleton, hp]
    rfl

/-- The budget pays for the execution of a job that was leased. -/
theorem Holds.budget_le {job running : JobRow} (h : Holds s t job running) (p : Uuid → Bool) :
    t.service.db.budget p ≤ s.service.db.budget p ∧
      (if p job.id then 1 else 0) ≤ s.service.db.budget p := by
  have hpaid : (if p job.id then running.budget else 0) ≤ t.service.db.budget p := by
    have hmem := List.mem_map_of_mem (f := fun row : JobRow => if p row.id then row.budget else 0)
      h.held
    rw [← h.id]
    exact List.single_le_sum (fun x hx => budget_term_nonneg hx) _ hmem
  have hrunning : running.budget = max 1 (job.max_attempts - (job.attempts + 1)) := by
    unfold JobRow.budget
    rw [h.status, if_pos (Or.inr (Or.inr rfl)), h.attempts, h.max_attempts]
  have hjob := h.leasable
  have hchange := h.budget p
  have hnonneg := t.service.db.budget_nonneg p
  by_cases hp : p job.id = true
  · rw [if_pos hp] at hchange hpaid ⊢
    omega
  · rw [if_neg hp] at hchange ⊢
    omega

/-- Executing the job spends one of its attempts, whichever way it is recorded. -/
theorem Holds.spend {job running row : JobRow} (h : Holds s t job running) {executed last : DrainState}
    (hkept : KeepsJobs t.service executed.service)
    (hrows : last.service.db.jobs.rows = replaceRow running row executed.service.db.jobs.rows)
    (hfinished : Finished running row) (p : Uuid → Bool) :
    last.service.db.budget p + (if p job.id then 1 else 0) ≤ s.service.db.budget p := by
  have hrunning : running ∈ executed.service.db.jobs.rows := hkept.mem_iff.1 h.held
  have hlast := budget_replaceRow hrunning hrows hfinished.id p
  rw [budget_of_perm hkept, h.budget, h.id] at hlast
  rw [hlast]
  have hjob := h.leasable
  have hattempts := h.attempts
  have hmax := h.max_attempts
  have hleft := hfinished.budget
  by_cases hp : p job.id = true
  · rw [if_pos hp, if_pos hp, if_pos hp]
    omega
  · rw [if_neg hp, if_neg hp, if_neg hp]
    omega

/-- What one turn does, whichever way it ends. The loop is reasoned about through this alone,
and the body of `run_once` is taken apart here and nowhere else. -/
theorem run_once_spec (worker : LeasingWorker) (turn : WorkerTurn) (s : DrainState) :
    TurnSpec worker turn s (run_once worker turn s) := by
  have hrun : run_once worker turn s = (lease_and_mark_running worker turn s.replay_first >>= fun
      | none => return none
      | some running => do
        let result ← execute_noted turn running
        let outcome ← finish_running_job turn running result
        update_priority_after_outcome running outcome
        return some outcome : Drain (Option WorkerOutcome)) s := rfl
  -- in the order of the turn: lease, execute, finish, choose who goes first
  rw [hrun, Program.bind_run]
  cases hlease : lease_and_mark_running worker turn s.replay_first s with
  | error e t =>
    obtain ⟨hexecuted, hreason⟩ := lease_and_mark_running_error hlease
    refine .failed (fun p => ?_) hreason
    have hbudget := s.service.db.budget_nonneg p
    unfold DrainState.executions
    rw [hexecuted]
    omega
  | ok found t =>
  cases found with
  | none =>
    obtain ⟨rfl, hnone⟩ := lease_and_mark_running_none hlease
    refine .idle rfl fun job_type hmem => hnone job_type ?_
    unfold job_types
    split
    · simpa [or_comm] using hmem
    · exact hmem
  | some running =>
    -- the attempt is paid for when the job is leased, however it ends
    obtain ⟨job, hholds⟩ := lease_and_mark_running_some hlease
    obtain ⟨result, executed, hexecute, hkept, hnoted⟩ := execute_noted_spec turn running t
    have hnoted : executed.executed = s.executed ++ [running] := by rw [hnoted, hholds.executed]
    have hrunning : running ∈ executed.service.db.jobs.rows := hkept.mem_iff.1 hholds.held
    dsimp only
    rw [Program.bind_run, hexecute]
    dsimp only
    rw [Program.bind_run]
    cases hfinish : finish_running_job turn running result executed with
    | error e last =>
      obtain ⟨rfl, hfailed⟩ := finish_running_job_error hrunning hfinish
      refine .failed (fun p => ?_) (Or.inr hfailed)
      rw [executions_append hnoted, hholds.id]
      have hpaid := (hholds.budget_le p).2
      omega
    | ok outcome last =>
      obtain ⟨hended, hlast, row, hfinished, hrows⟩ := finish_running_job_ok hrunning hfinish
      obtain ⟨final, hpriority, hservice, hfinal⟩ :=
        update_priority_after_outcome_spec running outcome last
      dsimp only
      rw [Program.bind_run, hpriority]
      refine .attempted hended hholds.id ((hfinal.trans hlast).trans hnoted) fun p => ?_
      rw [hservice]
      exact hholds.spend hkept hrows hfinished p

end Turns

/-! ## The loop

Enough fuel is the budget of the jobs, and one turn more to find that nothing is left. The
induction is on the fuel and carries the budget, and the counts of the summary are the
executions, one for each turn.
-/

/-- A worker that starts to drain. -/
def DrainState.start (service : Service) (replay_first : Bool) : DrainState :=
  { service, replay_first, executed := [] }

/-- What a drain has executed and what is left fit the attempts there were; one job a turn. -/
structure WithinBudget (db : Db) (i : Nat) (s : DrainState) : Prop where
  turns : s.executed.length = i
  budget : ∀ p, s.executions p + s.service.db.budget p ≤ db.budget p

/-- The attempts all jobs have left. -/
def Db.attempts_left (db : Db) : Nat := (db.budget fun _ => true).toNat

/-- A turn that goes on has executed a job, and fewer attempts are left. -/
theorem drain_turn_next {worker : LeasingWorker} {turns : Nat → WorkerTurn} {db : Db} {i : Nat}
    {progress progress' : WorkerRunSummary × DrainState}
    (hwithin : WithinBudget db i progress.2)
    (h : drain_turn worker turns none i progress = .next progress') :
    WithinBudget db (i + 1) progress'.2 ∧
      progress'.2.service.db.attempts_left < progress.2.service.db.attempts_left := by
  obtain ⟨summary, s⟩ := progress
  have hspec := run_once_spec worker (turns i) s
  unfold drain_turn at h
  dsimp only [Option.any_none] at h
  rw [if_neg Bool.false_ne_true] at h
  -- only a job that was executed to its end goes on
  have hnext : ∃ outcome, run_once worker (turns i) s = .ok (some outcome) progress'.2 := by
    split at h
    · cases h
    · cases h
    · cases h
      exact ⟨_, ‹_›⟩
    · cases h
      exact ⟨_, ‹_›⟩
    · cases h
  obtain ⟨outcome, hrun⟩ := hnext
  rw [hrun] at hspec
  cases hspec with
  | @attempted _ _ running job hended hid hexecuted hbudget =>
    refine ⟨⟨?_, fun p => ?_⟩, ?_⟩
    · rw [hexecuted, List.length_append, List.length_singleton, hwithin.turns]
    · rw [executions_append hexecuted p, hid]
      have hbefore := hwithin.budget p
      have hspent := hbudget p
      dsimp only at hbefore
      omega
    · have hspent := hbudget fun _ => true
      have hnonneg := progress'.2.service.db.budget_nonneg fun _ => true
      rw [if_pos rfl] at hspent
      unfold Db.attempts_left
      dsimp only
      omega

/-- The budget of the job with an id. -/
theorem budget_of_id {db : Db} {job : JobRow} (hjob : job ∈ db.jobs.rows) :
    db.budget (· == job.id) = job.budget := by
  have hclash : ∀ a b : JobRow, (a.id == job.id) = true → (b.id == job.id) = true →
      Schema.Clash a b := by
    intro a b ha hb
    exact Or.inl ((beq_iff_eq.1 ha).trans (beq_iff_eq.1 hb).symm)
  have hfind : db.jobs.rows.find? (fun row => row.id == job.id) = some job :=
    (db.jobs.find?_eq_some_iff fun a _ b _ => hclash a b).2 ⟨hjob, beq_self_eq_true job.id⟩
  unfold Db.budget
  rw [← db.jobs.find?_getD_eq_sum JobRow.budget hclash, hfind]
  rfl

theorem budget_of_no_id {db : Db} {id : Uuid} (hnone : ∀ job ∈ db.jobs.rows, job.id ≠ id) :
    db.budget (· == id) = 0 := by
  have hzero : db.jobs.rows.map (fun row => if (row.id == id) = true then row.budget else 0)
      = db.jobs.rows.map fun _ => 0 := by
    refine List.map_congr_left fun row hrow => if_neg ?_
    rw [beq_iff_eq]
    exact hnone row hrow
  unfold Db.budget
  rw [hzero]
  exact List.sum_eq_zero fun x hx => (List.mem_map.1 hx).choose_spec.2.symm

/-- What was executed within the budget: jobs that were there, each as often as it had
attempts left. -/
theorem executions_within {db : Db} {s : DrainState}
    (h : ∀ p, s.executions p ≤ db.budget p) :
    (∀ running ∈ s.executed, ∃ job ∈ db.jobs.rows, job.id = running.id) ∧
      ∀ job ∈ db.jobs.rows, s.executions (· == job.id) ≤ max 1 (job.max_attempts - job.attempts) := by
  constructor
  · intro running hrunning
    by_contra hnone
    -- no job of this id has a budget, so it was not executed
    have hzero : db.budget (· == running.id) = 0 :=
      budget_of_no_id fun job hjob hid => hnone ⟨job, hjob, hid⟩
    have hbound := h (· == running.id)
    rw [hzero] at hbound
    have hmem : running ∈ s.executed.filter fun row => row.id == running.id :=
      List.mem_filter.2 ⟨hrunning, beq_self_eq_true running.id⟩
    have hpositive := List.length_pos_of_mem hmem
    have hnone : ((s.executed.filter fun row => row.id == running.id).length : Int) ≤ 0 := hbound
    omega
  · intro job hjob
    have hbound := h (· == job.id)
    rw [budget_of_id hjob] at hbound
    refine le_trans hbound ?_
    unfold JobRow.budget
    split
    · exact le_refl _
    · omega

/-- An execution can be leased at a time if it can be leased later. -/
theorem is_candidate_mono {row : JobRow} {now later : Timestamp} {job_type : Option JobType}
    {chain_id : Option Int} (hle : now ≤ later)
    (h : row.is_candidate later job_type chain_id = false) :
    row.is_candidate now job_type chain_id = false := by
  rw [← Bool.not_eq_true] at h ⊢
  intro hnow
  refine h ?_
  unfold JobRow.is_candidate at hnow ⊢
  simp only [Bool.and_eq_true, Bool.or_eq_true] at hnow ⊢
  obtain ⟨hfilter, hstatus⟩ := hnow
  exact ⟨hfilter, hstatus.imp id fun hexpired => JobRow.lease_expired_mono hexpired hle⟩

/-- A drain stops: within the attempts the jobs have left, whatever executing a job returns
and whatever the clock shows. It has executed jobs of the table only, each at most as often as
it had attempts left, and at least once if it ran out of them. It ends idle, with no ingest or
replay job of its chain leasable when the last turn looked; or with the error of a call of the
repository, in the database in which it failed. -/
theorem draining_worker_stops (worker : LeasingWorker) (turns : Nat → WorkerTurn) (service : Service)
    (replay_first : Bool) :
    ∃ result, (∀ fuel, service.db.attempts_left < fuel →
        run_until_idle worker turns none fuel (.start service replay_first) = some result) ∧
      (∀ running ∈ (left result).executed, ∃ job ∈ service.db.jobs.rows, job.id = running.id) ∧
      (∀ job ∈ service.db.jobs.rows,
        (left result).executions (· == job.id) ≤ max 1 (job.max_attempts - job.attempts)) ∧
      match result with
      | .ok summary t => summary.stop_reason = .Idle ∧
          ∀ job_type ∈ [JobType.IngestRange, .ReplayRange],
            ∀ now ≤ (turns t.executed.length).selected_at job_type,
              ∀ row ∈ t.service.db.jobs.rows,
                row.is_candidate now (some job_type) worker.chain_id = false
      | .error e t => worker.chunk_size = 0 ∨ ∃ i, CallFailed worker (turns i) t.service.db e := by
  have hstart : WithinBudget service.db 0
      (WorkerRunSummary.default, DrainState.start service replay_first).2 := by
    refine ⟨rfl, fun p => ?_⟩
    have hnone : (DrainState.start service replay_first).executions p = 0 := rfl
    have hsame : (DrainState.start service replay_first).service.db = service.db := rfl
    rw [hnone, hsame, zero_add]
  have hturn : ∀ i (progress progress' : WorkerRunSummary × DrainState),
      WithinBudget service.db i progress.2 →
      drain_turn worker turns none i progress = .next progress' →
      WithinBudget service.db (i + 1) progress'.2 ∧
        progress'.2.service.db.attempts_left < progress.2.service.db.attempts_left :=
    fun i progress progress' hwithin hnext => drain_turn_next hwithin hnext
  obtain ⟨result, hresult⟩ := Loop.returns
    (I := fun i (progress : WorkerRunSummary × DrainState) => WithinBudget service.db i progress.2)
    (fun progress => progress.2.service.db.attempts_left) hturn hstart
  -- what is returned is what the last turn returned
  obtain ⟨i, ⟨summary, s⟩, hwithin, hlast⟩ := Loop.run_spec
    (I := fun i (progress : WorkerRunSummary × DrainState) => WithinBudget service.db i progress.2)
    (fun i s t hs hnext => (hturn i s t hs hnext).1) hresult hstart
  have hspec := run_once_spec worker (turns i) s
  unfold drain_turn at hlast
  dsimp only [Option.any_none] at hlast
  rw [if_neg Bool.false_ne_true] at hlast
  refine ⟨result, fun fuel hfuel => Loop.run_mono hresult (Nat.succ_le_of_lt hfuel), ?_⟩
  split at hlast
  · rename_i e t hrun
    cases hlast
    rw [hrun] at hspec
    cases hspec with
    | failed hexecutions hreason =>
      have hbudget : ∀ p, t.executions p ≤ service.db.budget p :=
        fun p => le_trans (hexecutions p) (hwithin.budget p)
      obtain ⟨hjobs, hcounts⟩ := executions_within hbudget
      exact ⟨hjobs, hcounts, hreason.imp id fun hfailed => ⟨i, hfailed⟩⟩
  · rename_i t hrun
    cases hlast
    rw [hrun] at hspec
    cases hspec with
    | idle hexecuted hnone =>
      have hbudget : ∀ p, t.executions p ≤ service.db.budget p := by
        intro p
        have hbefore := hwithin.budget p
        have hnonneg := s.service.db.budget_nonneg p
        unfold DrainState.executions at hbefore ⊢
        rw [hexecuted]
        dsimp only at hbefore
        omega
      obtain ⟨hjobs, hcounts⟩ := executions_within hbudget
      have hturns : t.executed.length = i := by
        rw [hexecuted]
        exact hwithin.turns
      refine ⟨hjobs, hcounts, rfl, fun job_type hmem now hnow row hrow => ?_⟩
      rw [hturns] at hnow
      exact is_candidate_mono hnow (hnone job_type hmem row hrow)
  · cases hlast
  · cases hlast
  · rename_i hrun
    rw [hrun] at hspec
    cases hspec with
    | attempted hended => exact absurd rfl (hended _ _)

end EvmIndexer
