/-
A backfill by jobs, against one scan of the range.

`backfill-contract` plans jobs over a range and a worker drains them; `scan-contract` ingests the
range itself. Here both are the programs of the code, before one chain: whatever the range size
of the plan and the chunk sizes of the two, in whatever order the worker takes the jobs, and
however often it has to take one again, a drain that ends with no job of the source given up
leaves of the source what the scan leaves.

A job asks the chain for its own blocks and their timestamps, so its logs are decoded apart from
the others; what it decodes is the part of the whole that is in its blocks (`range_logs_within`).
That the drain settles every job is a property of its turns (`drained_jobs_settle`), and the rest
is the ledger of `ExactlyOnce`, through the run of `Sequential`.
-/
import EvmIndexer.PlanCoverage
import EvmIndexer.Sequential

set_option autoImplicit false

namespace EvmIndexer

open Sql Program Transition

/-! ## Part of a range

A job asks for its own blocks, with a chunk size that need not be the scan's, and fetches the
timestamps of its own blocks only. Decoding is log by log, and a timestamp is a function of
the block, so what a job decodes is the scan's list restricted to the job's blocks. This is
where the explicit standard is needed: a detection could decide differently on a part.
-/

section Parts

variable {keccak256 : String → String} {parse_bytes : List Char → Option Nat} {rpc : ChainRpc}
  {history : String → List RpcLog} {standard : TokenStandard}

/-- The log with the timestamp the chain has for its block. -/
def stamp (rpc : ChainRpc) (log : RpcLog) : RpcLog :=
  { log with block_timestamp := (log_block log).toOption.bind fun block =>
      (rpc.block_timestamp block).toOption }

/-- The block of the log can be read, and the chain has a timestamp for it. -/
def Stamped (rpc : ChainRpc) (log : RpcLog) : Prop :=
  ∃ block timestamp, log_block log = .ok block ∧ rpc.block_timestamp block = .ok timestamp

theorem fetch_block_timestamp_eq_ok {block : Nat} {entry : Nat × Timestamp} :
    fetch_block_timestamp rpc block = .ok entry ↔
      ∃ timestamp, rpc.block_timestamp block = .ok timestamp ∧ entry = (block, timestamp) := by
  unfold fetch_block_timestamp
  simp only [bind_eq_ok, context_eq_ok, Except.ok.injEq]
  exact exists_congr fun timestamp => and_congr_right fun _ => eq_comm

/-- The timestamps are fetched once a block, and looked up for each log. -/
theorem attach_block_timestamps_of_stamped {logs : List RpcLog}
    (hlogs : ∀ log ∈ logs, Stamped rpc log) :
    attach_block_timestamps rpc logs = .ok (logs.map (stamp rpc)) := by
  let block_of (log : RpcLog) : Nat := (log_block log).toOption.getD 0
  let time_of (block : Nat) : Timestamp := (rpc.block_timestamp block).toOption.getD 0
  have hblocks : logs.mapM log_block = .ok (logs.map block_of) := by
    refine mapM_eq_ok_map fun log hlog => ?_
    obtain ⟨block, _, hblock, -⟩ := hlogs log hlog
    simp [block_of, hblock, Except.toOption]
  have htimestamps : (btree_set (· ≤ ·) (logs.map block_of)).mapM (fetch_block_timestamp rpc)
      = .ok ((btree_set (· ≤ ·) (logs.map block_of)).map fun block => (block, time_of block)) := by
    refine mapM_eq_ok_map fun block hmem => ?_
    obtain ⟨log, hlog, rfl⟩ := List.mem_map.1 (mem_btree_set.1 hmem)
    obtain ⟨block, timestamp, hblock, htimestamp⟩ := hlogs log hlog
    refine fetch_block_timestamp_eq_ok.2 ⟨timestamp, ?_, ?_⟩
    · simpa [block_of, hblock, Except.toOption] using htimestamp
    · simp [block_of, time_of, hblock, htimestamp, Except.toOption]
  unfold attach_block_timestamps
  simp only [bind, Except.bind, hblocks, htimestamps]
  refine mapM_eq_ok_map fun log hlog => ?_
  obtain ⟨block, timestamp, hblock, htimestamp⟩ := hlogs log hlog
  have hmem : block ∈ btree_set (· ≤ ·) (logs.map block_of) := by
    refine mem_btree_set.2 (List.mem_map.2 ⟨log, hlog, ?_⟩)
    simp [block_of, hblock, Except.toOption]
  unfold attach_block_timestamp stamp
  simp only [bind, Except.bind, hblock, List.lookup_graph time_of hmem]
  simp [time_of, htimestamp, Except.toOption]

/-- Where it returns, each log has a block with a timestamp. -/
theorem stamped_of_attach_block_timestamps {logs stamped : List RpcLog}
    (h : attach_block_timestamps rpc logs = .ok stamped) : ∀ log ∈ logs, Stamped rpc log := by
  intro log hlog
  unfold attach_block_timestamps at h
  simp only [bind_eq_ok] at h
  obtain ⟨blocks, hblocks, timestamps, htimestamps, -⟩ := h
  obtain ⟨block, hmem, hblock⟩ := exists_result_of_mapM hblocks hlog
  obtain ⟨entry, -, hentry⟩ := exists_result_of_mapM htimestamps (mem_btree_set.2 hmem)
  obtain ⟨timestamp, htimestamp, -⟩ := fetch_block_timestamp_eq_ok.1 hentry
  exact ⟨block, timestamp, hblock, htimestamp⟩

theorem attach_block_timestamps_iff {logs stamped : List RpcLog} :
    attach_block_timestamps rpc logs = .ok stamped ↔
      (∀ log ∈ logs, Stamped rpc log) ∧ stamped = logs.map (stamp rpc) := by
  constructor
  · intro h
    have hlogs := stamped_of_attach_block_timestamps h
    exact ⟨hlogs, Except.ok.inj (h.symm.trans (attach_block_timestamps_of_stamped hlogs))⟩
  · rintro ⟨hlogs, rfl⟩
    exact attach_block_timestamps_of_stamped hlogs

/-- A log is decoded apart from the others, so to decode some of the logs is to decode them
all and keep those. An explicit standard is given here; what is detected from all logs could
differ from what is detected from some. -/
theorem decode_logs_filter {logs : List RpcLog} {decoded : List (RpcLog × DecodedLog)}
    (p : RpcLog → Bool) (h : decode_logs keccak256 parse_bytes standard logs = .ok decoded) :
    decode_logs keccak256 parse_bytes standard (logs.filter p)
      = .ok (decoded.filter fun log => p log.1) := by
  induction logs generalizing decoded with
  | nil =>
    cases h
    rfl
  | cons log rest ih =>
    unfold decode_logs at h
    rw [bind_eq_ok] at h
    obtain ⟨found, hfound, h⟩ := h
    cases found with
    | none =>
      rw [List.filter_cons]
      split
      · unfold decode_logs
        simp only [bind, Except.bind, hfound]
        exact ih h
      · exact ih h
    | some decoded_log =>
      simp only [bind_eq_ok] at h
      obtain ⟨others, hothers, h⟩ := h
      cases h
      rw [List.filter_cons, List.filter_cons]
      split
      · unfold decode_logs
        simp only [bind, Except.bind, hfound, ih hothers]
      · exact ih hothers

theorem in_range_eq_in_blocks (range : BackfillChunk) (log : RpcLog × DecodedLog) :
    in_range range log = log.1.in_blocks range.«from» range.«to» := by
  unfold in_range RpcLog.in_blocks
  cases parse_hex_u64 log.1.block_number with
  | ok block => simp [Except.toOption]
  | error e => rfl

/-- The logs of a history in a part of a range. -/
theorem history_logs_part {logs : List RpcLog} {first last from_block to_block : Nat}
    (hfrom : first ≤ from_block) (hto : to_block ≤ last) :
    history_logs keccak256 logs standard from_block to_block
      = (history_logs keccak256 logs standard first last).filter
          fun log => log.in_blocks from_block to_block := by
  unfold history_logs
  rw [List.filter_filter]
  refine List.filter_congr fun log _ => ?_
  -- a block of the part is one of the whole
  have hwithin : log.in_blocks from_block to_block = true → log.in_blocks first last = true := by
    rw [RpcLog.in_blocks_iff, RpcLog.in_blocks_iff]
    rintro ⟨block, hblock, hfirst, hlast⟩
    exact ⟨block, hblock, hfrom.trans hfirst, hlast.trans hto⟩
  cases hin : log.in_blocks from_block to_block with
  | true => rw [hwithin hin, Bool.true_and, Bool.true_and]
  | false => rw [Bool.false_and, Bool.false_and]

/-- What is persisted for a range under an explicit standard is decoded from its logs in the
history, each with its timestamp. -/
theorem range_logs_decodes (hrpc : ServesHistory keccak256 rpc history) {source : SourceRef}
    (hexplicit : source.token_standard ≠ .Auto) {first last chunk_size : Nat}
    {decoded : List (RpcLog × DecodedLog)} (hlast : last ≤ u64_max)
    (h : range_logs keccak256 parse_bytes rpc source first last chunk_size none = .ok decoded) :
    decode_logs keccak256 parse_bytes source.token_standard
      ((history_logs keccak256 (history source.contract_address) source.token_standard first last).map
        (stamp rpc)) = .ok decoded := by
  have hchecked : first ≤ last ∧ 1 ≤ chunk_size := by
    unfold range_logs at h
    rw [bail_eq_ok, bail_eq_ok] at h
    exact ⟨not_lt.1 h.1, Nat.pos_of_ne_zero h.2.1⟩
  rw [range_logs_explicit hrpc source hexplicit hchecked.1 hlast hchecked.2
    (fun p hp => absurd hp (Option.not_mem_none p))] at h
  obtain ⟨stamped, hstamped, hdecoded⟩ := EvmIndexer.bind_eq_ok.1 h
  rwa [(attach_block_timestamps_iff.1 hstamped).2] at hdecoded

/-- What is persisted for a part of a range is the part of what is persisted for the range,
whatever the two chunk sizes. -/
theorem range_logs_within (hrpc : ServesHistory keccak256 rpc history) {source : SourceRef}
    (hexplicit : source.token_standard ≠ .Auto) {first last chunk_size : Nat}
    {decoded : List (RpcLog × DecodedLog)} (hlast : last ≤ u64_max)
    (h : range_logs keccak256 parse_bytes rpc source first last chunk_size none = .ok decoded)
    {from_block to_block size : Nat} (hfrom : first ≤ from_block) (hto : to_block ≤ last)
    {logs : List (RpcLog × DecodedLog)}
    (hlogs : range_logs keccak256 parse_bytes rpc source from_block to_block size none = .ok logs) :
    logs = logs_in decoded { «from» := from_block, «to» := to_block } := by
  have hwhole := range_logs_decodes hrpc hexplicit hlast h
  have hpart := range_logs_decodes hrpc hexplicit (hto.trans hlast) hlogs
  -- a timestamp does not move a log to another block
  have hstamp : ((history_logs keccak256 (history source.contract_address) source.token_standard
        from_block to_block).map (stamp rpc))
      = ((history_logs keccak256 (history source.contract_address) source.token_standard
          first last).map (stamp rpc)).filter fun log => log.in_blocks from_block to_block := by
    rw [history_logs_part hfrom hto, List.filter_map]
    rfl
  rw [hstamp, decode_logs_filter _ hwhole] at hpart
  rw [← Except.ok.inj hpart]
  unfold logs_in
  exact List.filter_congr fun log _ =>
    (in_range_eq_in_blocks { «from» := from_block, «to» := to_block } log).symm

end Parts

/-! ## Jobs settle

The drain ends idle when no job of the worker can be leased any more, and not when all have
succeeded: one that failed goes back to the queue, and one that has used its attempts does
not. That every turn settles the job it takes is an invariant of the loop, which keeps a job
from being left leased or running.
-/

/-- One row of `jobs` was written, and is of the same job. -/
structure Rewrote (db db' : Db) (job row : JobRow) : Prop where
  before : job ∈ db.jobs.rows
  after : row ∈ db'.jobs.rows
  same : row.SameJob job
  others : ∀ r ∈ db.jobs.rows, r ≠ job → r ∈ db'.jobs.rows

theorem Rewrote.of_rows {db db' : Db} {job row : JobRow} (hjob : job ∈ db.jobs.rows)
    (hsame : row.SameJob job) (hrows : db'.jobs.rows = replaceRow job row db.jobs.rows) :
    Rewrote db db' job row := by
  refine ⟨hjob, ?_, hsame, fun r hr hne => ?_⟩
  · rw [hrows, mem_replaceRow hjob]
    exact Or.inl rfl
  · rw [hrows, mem_replaceRow hjob]
    exact Or.inr ⟨hr, hne⟩

/-- The row that was written is written again. -/
theorem Rewrote.trans {a b c : Db} {job mid row : JobRow} (h : Rewrote a b job mid)
    (k : Rewrote b c mid row) : Rewrote a c job row := by
  refine ⟨h.before, k.after, k.same.trans h.same, fun r hr hne => k.others r (h.others r hr hne) ?_⟩
  rintro rfl
  exact hne (job_eq_of_id a hr h.before h.same.id)

/-- A job is waiting, or is done with: it has succeeded or has used its attempts. -/
def JobRow.Settled (row : JobRow) : Prop :=
  row.status = .Queued ∨ row.status = .Succeeded ∨
    (row.status = .DeadLettered ∧ row.max_attempts ≤ row.attempts)

section Turns

variable {worker : LeasingWorker} {turn : WorkerTurn} {s t : DrainState}

theorem lease_and_mark_running_rewrote {replay_first : Bool} {running : JobRow}
    (h : lease_and_mark_running worker turn replay_first s = .ok (some running) t) :
    ∃ job, Rewrote s.service.db t.service.db job running := by
  unfold lease_and_mark_running at h
  split at h
  · cases h
  obtain ⟨found, mid, hlease, hmark⟩ := Program.bind_eq_ok.1 h
  cases found with
  | none => cases hmark
  | some leased =>
    obtain ⟨_, now, job, hjob, -, rfl, hleased, -⟩ := lease_first_some hlease
    obtain ⟨row, last, hmark, hreturn⟩ := Program.bind_eq_ok.1 hmark
    obtain ⟨hbody, -⟩ := repository_eq_ok.1 hmark
    cases hreturn
    rw [context_eq_ok] at hbody
    have hfirst : Rewrote s.service.db mid.service.db job (job.lease worker.worker_id now) :=
      .of_rows hjob ⟨rfl, rfl, rfl, rfl, rfl, rfl, rfl⟩ hleased
    obtain ⟨rfl, hrows⟩ := mark_job_of_mem hfirst.after hbody
    exact ⟨job, hfirst.trans (.of_rows hfirst.after ⟨rfl, rfl, rfl, rfl, rfl, rfl, rfl⟩ hrows)⟩

theorem finish_running_job_rewrote {running : JobRow} {result : Result ScanSummary}
    {outcome : WorkerOutcome} (hrunning : running ∈ s.service.db.jobs.rows)
    (h : finish_running_job turn running result s = .ok outcome t) :
    ∃ row, Rewrote s.service.db t.service.db running row ∧ row.Settled := by
  unfold finish_running_job at h
  split at h
  · obtain ⟨row, mid, hmark, hreturn⟩ := Program.bind_eq_ok.1 h
    obtain ⟨hbody, -⟩ := repository_eq_ok.1 hmark
    cases hreturn
    rw [context_eq_ok] at hbody
    obtain ⟨rfl, hrows⟩ := mark_job_of_mem hrunning hbody
    exact ⟨running.succeed, .of_rows hrunning ⟨rfl, rfl, rfl, rfl, rfl, rfl, rfl⟩ hrows,
      Or.inr (Or.inl rfl)⟩
  · rename_i message
    obtain ⟨row, mid, hmark, hreturn⟩ := Program.bind_eq_ok.1 h
    obtain ⟨hbody, -⟩ := repository_eq_ok.1 hmark
    cases hreturn
    rw [context_eq_ok] at hbody
    unfold mark_failed at hbody
    split at hbody
    · cases hbody
    · rename_i found hfind
      obtain ⟨hfound, hid⟩ := find_job _ hfind
      obtain rfl := job_eq_of_id _ hfound hrunning hid
      obtain ⟨rfl, hrows⟩ := mark_job_of_mem hrunning hbody
      refine ⟨found.give_up found.failed_status "IngestJobError" message,
        .of_rows hrunning ⟨rfl, rfl, rfl, rfl, rfl, rfl, rfl⟩ hrows, ?_⟩
      -- it is tried again, unless this was its last attempt
      rcases failed_status_cases found with ⟨hused, hdead⟩ | ⟨-, hqueued⟩
      · exact Or.inr (Or.inr ⟨hdead, hused⟩)
      · exact Or.inl hqueued

/-- A turn that executes a job settles it, and touches no other. -/
theorem run_once_settles {outcome : WorkerOutcome}
    (h : run_once worker turn s = .ok (some outcome) t) :
    ∃ job row, Rewrote s.service.db t.service.db job row ∧ row.Settled := by
  unfold run_once at h
  obtain ⟨_, _, hget, h⟩ := Program.bind_eq_ok.1 h
  cases hget
  obtain ⟨found, held, hlease, h⟩ := Program.bind_eq_ok.1 h
  cases found with
  | none => cases h
  | some running =>
    obtain ⟨job, hleased⟩ := lease_and_mark_running_rewrote hlease
    obtain ⟨result, executed, hexecute, hkept, -⟩ := execute_noted_spec turn running held
    obtain ⟨_, _, hsame, h⟩ := Program.bind_eq_ok.1 h
    rw [hexecute] at hsame
    cases hsame
    obtain ⟨outcome, last, hfinish, h⟩ := Program.bind_eq_ok.1 h
    obtain ⟨final, hpriority, hservice, -⟩ :=
      update_priority_after_outcome_spec running outcome last
    obtain ⟨_, _, hupdated, h⟩ := Program.bind_eq_ok.1 h
    rw [hpriority] at hupdated
    cases hupdated
    cases h
    -- executing the job has left the jobs as they were
    have hrunning : running ∈ executed.service.db.jobs.rows := hkept.mem_iff.1 hleased.after
    obtain ⟨row, hfinished, hsettled⟩ := finish_running_job_rewrote hrunning hfinish
    rw [← hservice] at hfinished
    refine ⟨job, row, hleased.trans ⟨hleased.after, hfinished.after, hfinished.same, ?_⟩, hsettled⟩
    exact fun r hr hne => hfinished.others r (hkept.mem_iff.1 hr) hne

/-- A turn that finds nothing leaves what it found, and nothing there can be leased. -/
theorem run_once_idle (h : run_once worker turn s = .ok none t) :
    t = s ∧ ∀ job_type, (job_type = .IngestRange ∨ job_type = .ReplayRange) →
      ∀ row ∈ s.service.db.jobs.rows,
        row.is_candidate (turn.selected_at job_type) (some job_type) worker.chain_id = false := by
  unfold run_once at h
  obtain ⟨_, _, hget, h⟩ := Program.bind_eq_ok.1 h
  cases hget
  obtain ⟨found, held, hlease, h⟩ := Program.bind_eq_ok.1 h
  cases found with
  | none =>
    cases h
    obtain ⟨hsame, hnone⟩ := lease_and_mark_running_none hlease
    refine ⟨hsame, fun job_type htype => hnone job_type ?_⟩
    unfold job_types
    rcases htype with rfl | rfl <;> split <;> simp
  | some running =>
    obtain ⟨_, _, -, h⟩ := Program.bind_eq_ok.1 h
    obtain ⟨_, _, -, h⟩ := Program.bind_eq_ok.1 h
    obtain ⟨_, _, -, h⟩ := Program.bind_eq_ok.1 h
    cases h

theorem is_candidate_of_queued {row : JobRow} (now : Timestamp) {chain_id : Option Int}
    (hstatus : row.status = .Queued) (hchain : ∀ chain ∈ chain_id, row.chain_id = chain) :
    row.is_candidate now (some row.job_type) chain_id = true := by
  have hall : chain_id.all (· == row.chain_id) = true := by
    cases chain_id with
    | none => rfl
    | some chain => exact beq_iff_eq.2 (hchain chain rfl).symm
  have hqueued : (row.status == .Queued) = true := beq_iff_eq.2 hstatus
  unfold JobRow.is_candidate
  rw [hall, hqueued, Option.all_some, beq_self_eq_true]
  rfl

theorem Rewrote.settled {db db' : Db} {job row : JobRow} (h : Rewrote db db' job row)
    (hrow : row.Settled) {first : JobRow} (hbefore : ∃ r ∈ db.jobs.rows, r.SameJob first ∧ r.Settled) :
    ∃ r ∈ db'.jobs.rows, r.SameJob first ∧ r.Settled := by
  obtain ⟨r, hr, hsame, hsettled⟩ := hbefore
  by_cases heq : r = job
  · exact ⟨row, h.after, h.same.trans (heq ▸ hsame), hrow⟩
  · exact ⟨r, h.others r hr heq, hsame, hsettled⟩

/-- A drain that ends idle has settled every job of its worker that was queued: it has succeeded,
or has used its attempts. -/
theorem drained_jobs_settle {turns : Nat → WorkerTurn} {fuel : Nat}
    {summary : WorkerRunSummary}
    (h : run_until_idle worker turns none fuel s = some (.ok summary t)) {job : JobRow}
    (hjob : job ∈ s.service.db.jobs.rows) (hsettled : job.Settled)
    (htype : job.job_type = .IngestRange ∨ job.job_type = .ReplayRange)
    (hchain : ∀ chain_id ∈ worker.chain_id, job.chain_id = chain_id) :
    ∃ r ∈ t.service.db.jobs.rows, r.SameJob job ∧ (r.status = .Succeeded ∨
      (r.status = .DeadLettered ∧ r.max_attempts ≤ r.attempts)) := by
  have hturn : ∀ i (progress progress' : WorkerRunSummary × DrainState),
      (∃ r ∈ progress.2.service.db.jobs.rows, r.SameJob job ∧ r.Settled) →
      drain_turn worker turns none i progress = .next progress' →
      ∃ r ∈ progress'.2.service.db.jobs.rows, r.SameJob job ∧ r.Settled := by
    intro i progress progress' hs hnext
    obtain ⟨outcome, hrun⟩ := run_once_of_next hnext
    obtain ⟨_, _, hrewrote, hrow⟩ := run_once_settles hrun
    exact hrewrote.settled hrow hs
  obtain ⟨i, progress, ⟨r, hr, hsame, hwaiting⟩, hlast⟩ := Loop.run_spec
    (I := fun _ (progress : WorkerRunSummary × DrainState) =>
      ∃ r ∈ progress.2.service.db.jobs.rows, r.SameJob job ∧ r.Settled)
    hturn h ⟨job, hjob, .refl job, hsettled⟩
  rcases run_once_of_done hlast with ⟨⟨_, hlimit, -⟩, -⟩ | ⟨_, _, -, herror⟩ |
    ⟨ended, summary, last, hrun, hok, hended⟩
  · cases hlimit
  · cases herror
  cases hok
  cases ended with
  | none =>
    obtain ⟨hkept, hnone⟩ := run_once_idle hrun
    rw [hkept]
    refine ⟨r, hr, hsame, hwaiting.resolve_left fun hqueued => ?_⟩
    -- a queued job would have been leased
    rw [← hsame.job_type] at htype
    rw [← hsame.chain_id] at hchain
    have hcandidate := is_candidate_of_queued ((turns i).selected_at r.job_type) hqueued hchain
    rw [hnone r.job_type htype r hr] at hcandidate
    cases hcandidate
  | some outcome =>
    obtain ⟨job_id, status, hinterrupted⟩ := hended outcome rfl
    have hspec := run_once_spec worker (turns i) progress.2
    rw [hrun] at hspec
    cases hspec with
    | attempted hattempted => exact absurd hinterrupted (hattempted job_id status)

end Turns

/-! ## Before the plan, the plan and the drain

The state before is any that workers, the queue and the commands lead to, and of the source
it is assumed that it has no job and no ledger entry. Then it has no checkpoint either, the
plan has jobs for the whole range, and what the drain ingests are parts of the range that
together make it up.
-/

section Runs

variable {parseAmount : AmountParser} {source_id : Uuid} {history : List (RpcLog × DecodedLog)}

/-- A checkpoint is of a source that has a job. -/
theorem CommandReachable.checkpoint_job {s : Indexer} (h : CommandReachable parseAmount s) :
    s.WellFormed ∧ ∀ c ∈ s.db.checkpoints.rows, ∃ job ∈ s.db.jobs.rows,
      job.source_id = some c.source_id := by
  refine Reachable.invariant (I := fun s : Indexer => s.WellFormed ∧ ∀ c ∈ s.db.checkpoints.rows,
    ∃ job ∈ s.db.jobs.rows, job.source_id = some c.source_id) ?_ ?_ h
  · intro s hs
    refine ⟨hs.wellFormed, fun c hc => ?_⟩
    rw [hs.1] at hc
    cases hc
  · rintro s op t ⟨hwell, hjobs⟩ hstep
    refine ⟨hstep.wellFormed hwell, fun c hc => ?_⟩
    rcases hstep.cases with ⟨op, hstep⟩ | ⟨call, db, -, hframe, hsame, -⟩
    · have hstays : ∀ source_id, (∃ job ∈ s.db.jobs.rows, job.source_id = some source_id) →
          ∃ job ∈ t.db.jobs.rows, job.source_id = some source_id := by
        rintro source_id ⟨job, hjob, hsource⟩
        obtain ⟨new, hnew, hsame⟩ := hstep.effect.job_stays hjob
        exact ⟨new, hnew, hsame.source_id.trans hsource⟩
      refine hstays c.source_id ?_
      rcases hstep.effect.checkpoint_mem hc with hold | ⟨slot, e, source, _, _, he, -, hphase, hadvanced⟩
      · exact hjobs c hold
      · -- the execution that has written it holds a job of its source
        obtain ⟨row, hrow, hsame⟩ := hwell.stored slot e he
        refine ⟨row, hrow, hsame.source_id.trans ?_⟩
        rw [hadvanced.of_source]
        exact hwell.loaded slot e source he (by rw [hphase]; rfl)
    · rw [← hsame.checkpoints.mem_iff, hframe.checkpoints] at hc
      obtain ⟨job, hjob, hsource⟩ := hjobs c hc
      rw [← hframe.jobs] at hjob
      exact ⟨job, hsame.jobs.mem_iff.1 hjob, hsource⟩

/-- A source without a job has no checkpoint. -/
theorem untouched_has_no_checkpoint {s : Indexer} (h : CommandReachable parseAmount s)
    (huntouched : s.Untouched source_id) : ∀ c ∈ s.db.checkpoints.rows, c.source_id ≠ source_id := by
  rintro c hc rfl
  obtain ⟨job, hjob, hsource⟩ := h.checkpoint_job.2 c hc
  exact huntouched job hjob hsource

section Plan

variable {now : BackfillChunk → Timestamp} {source : SourceRef} {max_attempts : Int}

/-- What enqueueing a chunk preserves, the plan preserves. The plan is that one call for each
chunk, in order, with an identifier drawn before each. -/
theorem plan_backfill_jobs_invariant {P : Db → Prop}
    (hstep : ∀ {db db' : Db} {c : BackfillChunk} {result : EnqueueResult}, P db →
      enqueue { db with next_uuid := db.next_uuid + 1 } (now c)
        (RangeCommand.Backfill.job db.next_uuid source c.«from» c.«to» max_attempts)
          = .ok (result, db') → P db')
    {db db' : Db} {«from» «to» range_size : Nat} {plan : BackfillPlan}
    (h : plan_backfill_jobs db now source «from» «to» range_size max_attempts = .ok (plan, db'))
    (hdb : P db) : P db' := by
  have hloop : ∀ (ranges : List BackfillChunk) (progress progress' : Nat × Nat × Db),
      ranges.foldlM (enqueue_chunk now source max_attempts) progress = .ok progress' →
      P progress.2.2 → P progress'.2.2 := by
    intro ranges
    induction ranges with
    | nil =>
      intro progress progress' hfold hbefore
      rw [List.foldlM_nil, EvmIndexer.pure_eq_ok] at hfold
      exact hfold ▸ hbefore
    | cons c rest ih =>
      intro progress progress' hfold hbefore
      rw [List.foldlM_cons, EvmIndexer.bind_eq_ok] at hfold
      obtain ⟨mid, hc, hrest⟩ := hfold
      obtain ⟨-, -, result, henqueue⟩ := enqueue_chunk_eq_ok hc
      exact ih mid progress' hrest (hstep hbefore henqueue)
  unfold plan_backfill_jobs at h
  rw [bail_eq_ok, bail_eq_ok, bail_eq_ok] at h
  obtain ⟨-, -, -, h⟩ := h
  simp only [EvmIndexer.bind_eq_ok] at h
  obtain ⟨_, -, _, -, ranges, -, ⟨inserted_jobs, existing_jobs, last⟩, hfold, h⟩ := h
  cases h
  exact hloop ranges _ _ hfold hdb

end Plan

/-- A plan is enqueue steps, and these are before any chain. -/
theorem plan_backfill_jobs_sound {x : Serving} {source : SourceRow}
    (hx : x.Sound parseAmount source history) {stored : SourceRow}
    (hstored : stored ∈ x.indexer.db.sources.rows) {now : BackfillChunk → Timestamp}
    {max_attempts : Int} {«from» «to» range_size : Nat} {plan : BackfillPlan} {db : Db}
    (hplan : plan_backfill_jobs x.indexer.db now stored.from_source «from» «to» range_size max_attempts
      = .ok (plan, db)) :
    ({ x with indexer := x.indexer.with_db db } : Serving).Sound parseAmount source history ∧
      stored ∈ db.sources.rows := by
  refine plan_backfill_jobs_invariant (P := fun db =>
    ({ x with indexer := x.indexer.with_db db } : Serving).Sound parseAmount source history ∧
      stored ∈ db.sources.rows) ?_ hplan ⟨hx, hstored⟩
  rintro db db' c result ⟨hsound, hmem⟩ henqueue
  have hsources : db'.sources = db.sources := (enqueue_onlyQueue henqueue).sources
  have hstep : IndexerStep parseAmount (x.indexer.with_db db)
      (.enqueue .Backfill stored.id c.«from» c.«to» max_attempts (now c)) (x.indexer.with_db db') :=
    ⟨x.indexer.with_db db', exec_enqueue (s := x.indexer.with_db db) hmem henqueue,
      Db.SameRows.refl _, rfl, rfl⟩
  have hserving : ServingStep parseAmount source.id history
      { x with indexer := x.indexer.with_db db }
      (.enqueue .Backfill stored.id c.«from» c.«to» max_attempts (now c))
      { x with indexer := x.indexer.with_db db' } := ⟨hstep, trivial, rfl⟩
  exact ⟨hserving.sound hsound, hsources ▸ hmem⟩

/-- The jobs of the source are ingest jobs of ranges in these blocks. -/
def Db.IngestsWithin (source_id : Uuid) (first last : Nat) (db : Db) : Prop :=
  ∀ job ∈ db.jobs.rows, job.source_id = some source_id → job.job_type = .IngestRange ∧
    ∃ c : BackfillChunk, job.range = some c.range ∧ first ≤ c.«from» ∧ c.«to» ≤ last

/-- A worker enqueues nothing: each job was there before it. -/
theorem IndexerStep.job_from {s t : Indexer} {op : IndexerOp} {slot : Nat}
    (h : IndexerStep parseAmount s op t) (hop : op.acts_in slot = true) {row : JobRow}
    (hrow : row ∈ t.db.jobs.rows) : ∃ old ∈ s.db.jobs.rows, row.SameJob old := by
  have hreplaced : ∀ {old new : JobRow}, Replaced s t old new → new.SameJob old →
      ∃ old ∈ s.db.jobs.rows, row.SameJob old := by
    intro old new hjobs hsame
    rcases (hjobs.2 row).1 hrow with rfl | ⟨hbefore, -⟩
    · exact ⟨old, hjobs.1, hsame⟩
    · exact ⟨row, hbefore, .refl row⟩
  cases h.effect with
  | idle _ _ _ hjobs | ensured _ _ hjobs | dropped _ _ hjobs | moved _ _ _ hjobs
  | ingested _ _ hjobs | advanced _ _ _ hjobs => exact ⟨row, (hjobs row).1 hrow, .refl row⟩
  | enqueued => cases hop
  | leased _ _ _ hjobs | running _ _ _ hjobs | succeeded _ _ _ hjobs | gave_up _ _ _ _ hjobs =>
    exact hreplaced hjobs ⟨rfl, rfl, rfl, rfl, rfl, rfl, rfl⟩

theorem Db.IngestsWithin.step {first last : Nat} {s t : Indexer} {op : IndexerOp} {slot : Nat}
    (hs : s.db.IngestsWithin source_id first last) (h : IndexerStep parseAmount s op t)
    (hop : op.acts_in slot = true) : t.db.IngestsWithin source_id first last := by
  intro job hjob hsource
  obtain ⟨old, hold, hsame⟩ := h.job_from hop hjob
  rw [hsame.job_type, hsame.range]
  exact hs old hold (hsame.source_id ▸ hsource)

/-- The jobs a plan has for a source that had none. -/
theorem plan_ingests_within {s : Indexer} (hs : CommandReachable parseAmount s) {source : SourceRef}
    (huntouched : s.Untouched source.id) {now : BackfillChunk → Timestamp} {max_attempts : Int}
    {first last range_size : Nat} {plan : BackfillPlan} {db : Db}
    (hplan : plan_backfill_jobs s.db now source first last range_size max_attempts = .ok (plan, db)) :
    db.IngestsWithin source.id first last ∧
      ∀ b, first ≤ b → b ≤ last → ∃ job ∈ db.jobs.rows, job.ingests source.id ∧
        job.status = .Queued ∧ job.chain_id = source.chain_id ∧
        ∃ c : BackfillChunk, job.range = some c.range ∧ c.«from» ≤ b ∧ b ≤ c.«to» := by
  obtain ⟨hsize, hfits, hplanned⟩ := plan_backfill_jobs_planned hplan hs.wellFormed.enqueued
  -- no block is behind a checkpoint
  have hbegin : planned_from s.db source.id first = first := by
    have hnone : checkpoint_for_source s.db source.id = none := by
      cases hc : checkpoint_for_source s.db source.id with
      | none => rfl
      | some c =>
        obtain ⟨hmem, hid⟩ := checkpoint_for_source_eq_some.1 hc
        exact absurd hid (untouched_has_no_checkpoint hs huntouched c hmem)
    unfold planned_from
    rw [hnone]
  rw [hbegin] at hplanned
  have hlast : last < u64_max := by
    unfold u64_max
    omega
  -- what is enqueued are ingest jobs of the chain
  have hkind : ∀ job ∈ db.jobs.rows, job.source_id = some source.id →
      job.job_type = .IngestRange ∧ job.chain_id = source.chain_id := by
    refine plan_backfill_jobs_invariant (P := fun db => ∀ job ∈ db.jobs.rows,
      job.source_id = some source.id → job.job_type = .IngestRange ∧ job.chain_id = source.chain_id)
      ?_ hplan fun job hjob hsource => absurd hsource (huntouched job hjob)
    intro db db' c result hbefore henqueue job hjob hsource
    rcases enqueue_result henqueue with ⟨-, hrows, -⟩ | ⟨rfl, -⟩
    · rw [hrows, List.mem_append, List.mem_singleton] at hjob
      rcases hjob with hold | rfl
      · exact hbefore job hold hsource
      · exact ⟨rfl, rfl⟩
    · exact hbefore job hjob hsource
  refine ⟨fun job hjob hsource => ⟨(hkind job hjob hsource).1, ?_⟩, fun b hfirst hb => ?_⟩
  · rcases hplanned.adds job hjob with hold | ⟨-, c, hc, hrange, -⟩
    · exact absurd hsource (huntouched job hold)
    · exact ⟨c, hrange, (mem_split_from hlast hsize hc).1, le_of_mem_split_from hc⟩
  · have hchunk := chunk_of_mem_split_from hlast hsize hfirst hb
    obtain ⟨job, hjob, hingests, hrange, hold | hqueued⟩ := hplanned.has _ hchunk
    · exact absurd hingests.2 (huntouched job hold)
    · refine ⟨job, hjob, hingests, hqueued, (hkind job hjob hingests.2).2, _, hrange, ?_⟩
      have hmod := Nat.mod_lt (b - first) hsize
      unfold chunk_of chunk_end u64_saturating_add
      unfold u64_max at *
      dsimp only
      omega

end Runs

section Drain

variable {keccak256 : String → String} {parse_bytes : List Char → Option Nat}
  {parseAmount : AmountParser} {rpc : ChainRpc} {source : SourceRow} {first last : Nat}
  {history : List (RpcLog × DecodedLog)} {worker : LeasingWorker} {turns : Nat → WorkerTurn}

/-- What the chain answers for a job of the source are the logs the history has in its range. -/
theorem job_logs_of_answers {sources : List SourceRow} {job : JobRow}
    {logs : List (RpcLog × DecodedLog)}
    (hpart : ∀ loaded ∈ sources, loaded.id = source.id → ∀ from_block to_block size part,
      first ≤ from_block → to_block ≤ last →
      range_logs keccak256 parse_bytes rpc loaded.from_source from_block to_block size none
        = .ok part → part = logs_in history { «from» := from_block, «to» := to_block })
    {chunk_size : Nat}
    (hanswer : chain_answers keccak256 parse_bytes rpc sources chunk_size job logs)
    (hsource : job.source_id = some source.id)
    (hrange : ∃ c : BackfillChunk, job.range = some c.range ∧ first ≤ c.«from» ∧ c.«to» ≤ last) :
    logs = job_logs history job := by
  obtain ⟨loaded, hloaded, from_block, to_block, hid, hfrom, hto, hlogs⟩ := hanswer
  obtain ⟨c, hc, hfirst, hlast⟩ := hrange
  have hblocks : job.range = some (from_block, to_block) := JobRow.range_eq_some.2 ⟨hfrom, hto⟩
  obtain ⟨rfl, rfl⟩ := Prod.ext_iff.1 (Option.some.inj (hblocks.symm.trans hc))
  unfold job_logs
  rw [hblocks]
  exact hpart loaded hloaded (Option.some.inj (hid.symm.trans hsource)) _ _ _ logs
    (by unfold BackfillChunk.range; omega) (by unfold BackfillChunk.range; omega) hlogs

/-- A drain before the chain leads to a state before the chain. -/
theorem run_until_idle_sound {x : Serving} (hx : x.Sound parseAmount source history)
    (hwithin : x.indexer.db.IngestsWithin source.id first last)
    (hpart : ∀ loaded ∈ x.indexer.db.sources.rows, loaded.id = source.id →
      ∀ from_block to_block size part, first ≤ from_block → to_block ≤ last →
      range_logs keccak256 parse_bytes rpc loaded.from_source from_block to_block size none
        = .ok part → part = logs_in history { «from» := from_block, «to» := to_block })
    (hturns : ∀ i, (turns i).execute
      = execute_job keccak256 parse_bytes parseAmount rpc worker.toIngestWorker)
    {slot : Nat} (hfree : x.indexer.executions slot = none) {service : Service}
    (hdb : service.db = x.indexer.db) {replay_first : Bool} {max_jobs : Option Nat} {fuel : Nat}
    {result : EStateM.Result String DrainState WorkerRunSummary}
    (h : run_until_idle worker turns max_jobs fuel (.start service replay_first) = some result) :
    ∃ y : Serving, y.Sound parseAmount source history ∧
      y.indexer.db = (left result).service.db ∧
      y.indexer.db.IngestsWithin source.id first last ∧
      ∀ r, r ∈ y.indexer.db.sources.rows ↔ r ∈ x.indexer.db.sources.rows := by
  have hstart : Rests parseAmount (chain_answers keccak256 parse_bytes rpc
      x.indexer.db.sources.rows worker.chunk_size) x slot (.start service replay_first) := by
    refine ⟨x.persisted slot, ?_⟩
    have hservice : (DrainState.start service replay_first).service.db = x.indexer.db := hdb
    rw [hservice]
    exact Leads.refl hfree
  obtain ⟨_, hleads⟩ := run_until_idle_leads (fun i => ⟨rpc, hturns i, fun _ _ h => h⟩) hstart h
  have hsources := hleads.sources
  obtain ⟨ops, y, hrun, hops, hy, -⟩ := hleads
  -- the worker executes jobs of the table, and these are in the range
  have hkept : ∀ s op t, s.indexer.WellFormed ∧ s.indexer.db.IngestsWithin source.id first last →
      Guarded (AnsweredStep parseAmount (chain_answers keccak256 parse_bytes rpc
        x.indexer.db.sources.rows worker.chunk_size)) (fun _ op => op.acts_in slot = true) s op t →
      t.indexer.WellFormed ∧ t.indexer.db.IngestsWithin source.id first last :=
    fun s op t hs hstep => ⟨hstep.1.1.effect.wellFormed hs.1, hs.2.step hstep.1.1 hstep.2⟩
  have hserves : ∀ s op t, s.indexer.WellFormed ∧ s.indexer.db.IngestsWithin source.id first last →
      Guarded (AnsweredStep parseAmount (chain_answers keccak256 parse_bytes rpc
        x.indexer.db.sources.rows worker.chunk_size)) (fun _ op => op.acts_in slot = true) s op t →
      ServingStep parseAmount source.id history s op t := by
    intro s op t hs hstep
    refine hstep.1.serving fun slot e logs he hanswer hsource => ?_
    obtain ⟨row, hrow, hsame⟩ := hs.1.stored slot e he
    obtain ⟨-, hrange⟩ := hs.2 row hrow (hsame.source_id.trans hsource)
    rw [hsame.range] at hrange
    rw [job_logs_of_answers hpart hanswer hsource hrange]
  have hserving : Run (ServingStep parseAmount source.id history) x ops y :=
    (hrun.guarded hops).mono_of_invariant hkept hserves ⟨hx.wellFormed, hwithin⟩
  refine ⟨y, hserving.invariant (fun _ _ _ hs hstep => hstep.sound hs) hx, hy,
    ((hrun.guarded hops).invariant hkept ⟨hx.wellFormed, hwithin⟩).2, fun r => ?_⟩
  rw [hy]
  exact hsources r

/-- The blocks of what is persisted for a range are in it. -/
theorem range_logs_blocks {contracts : String → List RpcLog}
    (hrpc : ServesHistory keccak256 rpc contracts) {source : SourceRef}
    (hexplicit : source.token_standard ≠ .Auto) {chunk_size : Nat} (hlast : last ≤ u64_max)
    (h : range_logs keccak256 parse_bytes rpc source first last chunk_size none = .ok history) :
    BlocksWithin first last history := by
  intro log hlog
  have hmem := mem_of_decode_logs (range_logs_decodes hrpc hexplicit hlast h) log hlog
  obtain ⟨raw, hraw, hstamp⟩ := List.mem_map.1 hmem
  obtain ⟨-, hkept⟩ := List.mem_filter.1 hraw
  obtain ⟨hblocks, -⟩ := Bool.and_eq_true_iff.1 hkept
  rw [← hstamp]
  exact RpcLog.in_blocks_iff.1 hblocks

end Drain

/-- A backfill of a source that had neither a job nor an entry, drained by one worker, against a
scan of the range: before a chain with one history, whatever the sizes of the ranges and chunks
and however often a job was tried, if the drain ends idle then a job of the source has used its
attempts, or the source has the entries and balances the scan leaves.

The state before the plan is any the workers, the queue and the commands lead to, those included
that have scanned other sources. The source has an explicit standard, is of a chain the worker
takes jobs of, and what the scan decodes has distinct logs; the scan is of a ledger without
entries of the source. -/
theorem backfill_drained_is_scanned {keccak256 : String → String}
    {parse_bytes : List Char → Option Nat} {parseAmount : AmountParser} {rpc : ChainRpc}
    {contracts : String → List RpcLog} (hrpc : ServesHistory keccak256 rpc contracts)
    {s : Indexer} (hs : CommandReachable parseAmount s) {source : SourceRow}
    (hsource : source ∈ s.db.sources.rows) (hexplicit : source.token_standard ≠ .Auto)
    (huntouched : s.Untouched source.id)
    (hnone : ∀ r ∈ s.db.ledger_entries.rows, r.source_id ≠ source.id)
    {now : BackfillChunk → Timestamp} {first last range_size : Nat} {max_attempts : Int}
    {plan : BackfillPlan} {planned : Db}
    (hplan : plan_backfill_jobs s.db now source.from_source first last range_size max_attempts
      = .ok (plan, planned))
    {worker : LeasingWorker} (hworker : ∀ chain_id ∈ worker.chain_id, source.chain_id = chain_id)
    {turns : Nat → WorkerTurn}
    (hturns : ∀ i, (turns i).execute
      = execute_job keccak256 parse_bytes parseAmount rpc worker.toIngestWorker)
    {slot : Nat} (hfree : s.executions slot = none) {service : Service} (hdb : service.db = planned)
    {replay_first : Bool} {fuel : Nat} {summary : WorkerRunSummary} {t : DrainState}
    (hdrain : run_until_idle worker turns none fuel (.start service replay_first)
      = some (.ok summary t))
    {scan scanned : Service} (hreach : LedgerReachable parseAmount scan.db)
    (hempty : ∀ r ∈ scan.db.ledger_entries.rows, r.source_id ≠ source.id) {chunk_size : Nat}
    {options : IngestOptions} (hprefetched : options.prefetched_logs = none)
    {scan_summary : ScanSummary}
    (hscan : ingest_source_range keccak256 parse_bytes parseAmount rpc source.from_source first last
      chunk_size options scan = .ok scan_summary scanned)
    (hdistinct : ∀ decoded, range_logs keccak256 parse_bytes rpc source.from_source first last
      chunk_size none = .ok decoded → DistinctStored decoded) :
    (∃ job ∈ t.service.db.jobs.rows, job.source_id = some source.id ∧ job.status = .DeadLettered ∧
        job.max_attempts ≤ job.attempts) ∨
      SameIngested source.id scanned.db t.service.db := by
  obtain ⟨decoded, persisted, hdecoded, hpersist⟩ := ingest_source_range_returns hscan
  rw [hprefetched] at hdecoded
  obtain ⟨hwithin, hcovers⟩ := plan_ingests_within hs huntouched hplan
  have hfits : last ≤ u64_max := by
    have hbound := (plan_backfill_jobs_planned hplan hs.wellFormed.enqueued).2.1
    unfold u64_max
    omega
  -- the state after the plan, and the one the drain leaves
  have hsound : ({ indexer := s, persisted := fun _ => false } : Serving).Sound parseAmount source
      decoded := CommandReachable.sound hs huntouched hnone
  obtain ⟨hplanned, hstored⟩ := plan_backfill_jobs_sound hsound hsource hplan
  have hpart : ∀ loaded ∈ planned.sources.rows, loaded.id = source.id →
      ∀ from_block to_block size part, first ≤ from_block → to_block ≤ last →
      range_logs keccak256 parse_bytes rpc loaded.from_source from_block to_block size none
        = .ok part → part = logs_in decoded { «from» := from_block, «to» := to_block } := by
    intro loaded hloaded hid from_block to_block size part hfrom hto hlogs
    obtain rfl := planned.sources.eq_of_clash hloaded hstored (Or.inl hid)
    exact range_logs_within hrpc hexplicit hfits hdecoded hfrom hto hlogs
  obtain ⟨y, hy, hy_db, hy_within, hy_sources⟩ := run_until_idle_sound hplanned hwithin hpart
    hturns hfree hdb hdrain
  rw [left_ok] at hy_db
  by_cases hdead : ∃ job ∈ t.service.db.jobs.rows, job.source_id = some source.id ∧
      job.status = .DeadLettered ∧ job.max_attempts ≤ job.attempts
  · exact Or.inl hdead
  -- every log is in the range of a job that was queued, and this one has succeeded
  have hcovered : ∀ log ∈ decoded, ∃ job ∈ y.indexer.db.jobs.rows, job.status = .Succeeded ∧
      job.source_id = some source.id ∧ log ∈ job_logs decoded job := by
    intro log hlog
    obtain ⟨n, hn, hfirst, hlast⟩ := range_logs_blocks hrpc hexplicit hfits hdecoded log hlog
    obtain ⟨job, hjob, hingests, hqueued, hchain, c, hrange, hfrom, hto⟩ := hcovers n hfirst hlast
    obtain ⟨r, hr, hsame, hended⟩ := drained_jobs_settle hdrain (hdb ▸ hjob) (Or.inl hqueued)
      (Or.inl hingests.1) fun chain_id hmem => hchain.trans (hworker chain_id hmem)
    have hr_source : r.source_id = some source.id := hsame.source_id.trans hingests.2
    refine ⟨r, hy_db ▸ hr, hended.resolve_right fun hgiven => hdead ⟨r, hr, hr_source, hgiven⟩,
      hr_source, ?_⟩
    unfold job_logs
    rw [hsame.range, hrange]
    refine List.mem_filter.2 ⟨hlog, ?_⟩
    rw [in_range_eq_in_blocks]
    refine RpcLog.in_blocks_iff.2 ⟨n, hn, ?_, ?_⟩
    · exact hfrom
    · exact hto
  have hno_replays : ¬ y.indexer.db.has_replays source.id := by
    rintro ⟨job, hjob, hjob_source, htype⟩
    rw [(hy_within job hjob hjob_source).1] at htype
    cases htype
  right
  rw [← hy_db]
  exact hy.same_ingested (hdistinct decoded hdecoded) ((hy_sources source).2 hstored) hreach hempty
    hpersist hcovered (Or.inl hno_replays)

/-! ## Two blocks, a job each -/

theorem token_rpc_serves : ServesHistory event_digest token_rpc fun _ => [minted_log] :=
  ⟨fun _ _ _ _ => rfl, fun _ => List.pairwise_singleton _ _⟩

/-- A chain with a mint to bob in block 1. -/
def second_rpc : ChainRpc :=
  { token_rpc with
    logs := fun _ standard first last => .ok (history_logs event_digest
      [(erc20_transfer "0x1" "0xb1" "0xd2" zero_address bob).1] standard first last) }

/-- A scan of a second contract. -/
def second_scan : ScanContractArgs :=
  { chain_name := "chain"
    chain_id := 1
    finality_confirmations := 0
    contract := "0xd0d0d0d0d0d0d0d0d0d0d0d0d0d0d0d0d0d0d0d0"
    standard := "erc20"
    from_block := some "1"
    to_block := "2"
    lookback := 0
    chunk_size := 2
    include_transaction_receipts := false }

/-- The token, alone. -/
def token_alone : Indexer := Indexer.after plain_digits [ensure_token 0]

/-- The token with no job and no entry, after the second contract was scanned. -/
def token_ensured : Indexer :=
  token_alone.with_db (left (scan_contract event_digest parse_hex_digits plain_digits second_rpc
    second_scan (token_service token_alone.db))).db

theorem token_ensured_reachable : CommandReachable plain_digits token_ensured := by
  have halone : IndexerReachable plain_digits token_alone := reachable_of_possible (by decide +kernel)
  exact halone.commanded.of_commanded (scan_contract_commanded second_scan) rfl

theorem token_ensured_untouched : small_source ∈ token_ensured.db.sources.rows ∧
    token_ensured.Untouched small_source.id ∧
    ∀ r ∈ token_ensured.db.ledger_entries.rows, r.source_id ≠ small_source.id := by
  decide +kernel

/-- The token, planned with a job a block, and drained. -/
def token_backfill : Result ((BackfillPlan × Db) × WorkerRunSummary × DrainState) := do
  let planned ← plan_backfill_jobs token_ensured.db (fun _ => 0) small_source.from_source 1 2 1 5
  match run_until_idle token_worker token_turns none 3 (.start (token_service planned.2) false) with
  | some (.ok summary t) => .ok (planned, summary, t)
  | _ => .error "not drained"

/-- The token, scanned. -/
def token_scan : EStateM.Result String Service ScanSummary :=
  ingest_source_range event_digest parse_hex_digits plain_digits token_rpc small_source.from_source
    1 2 2
    { include_transaction_receipts := false
      restore_orphaned_conflicts := false
      prefetched_logs := none }
    (token_service ((small_ledger []).foldl (LedgerOp.commit plain_digits) Db.empty))

theorem token_logs_distinct : ∀ decoded, range_logs event_digest parse_hex_digits token_rpc
    small_source.from_source 1 2 2 none = .ok decoded → DistinctStored decoded := by
  intro decoded h
  have hchecked : (range_logs event_digest parse_hex_digits token_rpc small_source.from_source 1 2 2
      none).toOption.all (fun logs => decide (logs.map fun log => stored_key log.1).Nodup &&
        decide (∀ log ∈ logs, (log.2.entries.map (·.batch_index)).Nodup)) = true := by
    decide +kernel
  rw [h] at hchecked
  obtain ⟨hkeys, hbatch⟩ := Bool.and_eq_true_iff.1 hchecked
  exact ⟨of_decide_eq_true hkeys, of_decide_eq_true hbatch⟩

theorem backfill_drained_is_scanned_token : ∃ scanned t,
    left token_scan = scanned ∧ token_backfill.toOption.map (·.2.2) = some t ∧
      SameIngested small_source.id scanned.db t.service.db := by
  have hdone : token_backfill.toOption.any (fun r => r.2.2.service.db.jobs.rows.all fun job =>
      job.status != .DeadLettered) = true := by decide +kernel
  obtain ⟨⟨⟨plan, planned⟩, summary, t⟩, hbackfill, hlive⟩ := (Option.any_eq_true _ _).1 hdone
  have hscanned : (returned token_scan).isSome = true := by decide +kernel
  obtain ⟨⟨scan_summary, scanned⟩, hscan⟩ := Option.isSome_iff_exists.1 hscanned
  rw [returned_eq_some] at hscan
  refine ⟨scanned, t, by rw [hscan]; rfl, by rw [hbackfill]; rfl, ?_⟩
  rw [toOption_eq_some] at hbackfill
  unfold token_backfill at hbackfill
  rw [EvmIndexer.bind_eq_ok] at hbackfill
  obtain ⟨_, hplan, hdrain⟩ := hbackfill
  split at hdrain
  · rename_i hreturned
    cases hdrain
    obtain ⟨hsource, huntouched, hnone⟩ := token_ensured_untouched
    have hexecute : ∀ i, (token_turns i).execute = execute_job event_digest parse_hex_digits
        plain_digits token_rpc token_worker.toIngestWorker := fun _ => rfl
    have hempty : ∀ r ∈ ((small_ledger []).foldl (LedgerOp.commit plain_digits)
        Db.empty).ledger_entries.rows, r.source_id ≠ small_source.id := by decide +kernel
    have hworker : ∀ chain_id ∈ token_worker.chain_id, small_source.chain_id = chain_id :=
      fun chain_id hnone => absurd hnone (Option.not_mem_none chain_id)
    have hfree : token_ensured.executions 0 = none := rfl
    rcases backfill_drained_is_scanned token_rpc_serves token_ensured_reachable hsource (by decide)
        huntouched hnone hplan hworker hexecute hfree rfl hreturned
        (LedgerReachable.empty.commits (small_ledger [])) hempty rfl hscan token_logs_distinct with
      ⟨job, hjob, -, hdead, -⟩ | hsame
    · have hnot := List.all_eq_true.1 hlive job hjob
      rw [hdead] at hnot
      cases hnot
    · exact hsame
  · cases hdrain

end EvmIndexer
