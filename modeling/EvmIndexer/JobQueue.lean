/-
The job queue as a system: any calls by any workers, in any order, at any times.

A `JobCall` is one call of the job repository, with the worker making it and the
time it is made at; the repository itself is told neither who calls `mark_*` nor
whether the caller still has the job. `JobStep` is one such call committed or
aborted, after which the clock stands at its time and the rows are in any
physical order.

What a call can do is said once. `RowStep` lists the ways one call can move one
job row, with what it writes to the attempts; `JobChange` says that a call moves
at most one row, and how. Every invariant of the queue is proved from
`JobStep.mem` and `JobStep.stays`, which put the two in terms of the rows before
and after a step.
-/
import EvmIndexer.JobRepository
import EvmIndexer.Lib.Runs

set_option autoImplicit false

namespace EvmIndexer

open Sql Transition

/-! ## Calls

A call has the worker that makes it as a label for the reader; the repository is not told. It
is made at a time, and a lease reads the clock twice, so the two readings and the clock of
the queue are in order.
-/

/-- An operation of the job repository, with its arguments. -/
inductive JobOp
  | enqueue (job : NewJob)
  | lease_next_candidate (lease_for : Int) (job_type : Option JobType) (chain_id : Option Int)
      (locked : Uuid → Bool) (selected_at : Timestamp)
  | mark_running (job_id : Uuid)
  | mark_succeeded (job_id : Uuid)
  | mark_failed (job_id : Uuid) (error_class error_message : String)
  | mark_interrupted_for_retry (job_id : Uuid) (error_message : String)

/-- The job a `mark_*` call is about. -/
def JobOp.target : JobOp → Option Uuid
  | .enqueue _ => none
  | .lease_next_candidate .. => none
  | .mark_running job_id => some job_id
  | .mark_succeeded job_id => some job_id
  | .mark_failed job_id _ _ => some job_id
  | .mark_interrupted_for_retry job_id _ => some job_id

/-- A call: who makes it, when, and what. -/
structure JobCall where
  worker : String
  now : Timestamp
  op : JobOp

/-- What a call computes: the database it leaves, or its error. -/
def JobCall.apply (db : Db) (c : JobCall) : Result Db :=
  match c.op with
  | .enqueue job => (EvmIndexer.enqueue db c.now job).map (·.2)
  | .lease_next_candidate lease_for job_type chain_id locked selected_at =>
    (EvmIndexer.lease_next_candidate db c.worker lease_for job_type chain_id locked selected_at
      c.now).map (·.2)
  | .mark_running job_id => (EvmIndexer.mark_running db job_id c.now).map (·.2)
  | .mark_succeeded job_id => (EvmIndexer.mark_succeeded db job_id c.now).map (·.2)
  | .mark_failed job_id error_class error_message =>
    (EvmIndexer.mark_failed db job_id error_class error_message c.now).map (·.2)
  | .mark_interrupted_for_retry job_id error_message =>
    (EvmIndexer.mark_interrupted_for_retry db job_id error_message c.now).map (·.2)

/-- The call as a transaction: committed, or rolled back on its error. -/
def JobCall.commit (db : Db) (c : JobCall) : Db :=
  match c.apply db with
  | .ok db' => db'
  | .error _ => db

/-- The queue: the database and the clock. -/
structure JobState where
  db : Db
  now : Timestamp

/-- A queue no job was enqueued to yet. -/
def JobState.Initial (s : JobState) : Prop :=
  s.db.jobs = Table.empty ∧ s.db.job_attempts = Table.empty

/-- The clock readings of a call follow the clock. -/
def JobCall.InTime (now : Timestamp) (c : JobCall) : Prop :=
  match c.op with
  | .lease_next_candidate _ _ _ _ selected_at => now ≤ selected_at ∧ selected_at ≤ c.now
  | _ => now ≤ c.now

instance (now : Timestamp) (c : JobCall) : Decidable (c.InTime now) := by
  unfold JobCall.InTime
  cases c.op <;> infer_instance

/-- One call, committed or aborted. Its clock is not before that of the call before it, and
the rows may be in another physical order after it, whether it committed or not. -/
def JobStep (s : JobState) (c : JobCall) (t : JobState) : Prop :=
  c.InTime s.now ∧ t.now = c.now ∧ ((c.commit s.db).SameRows t.db ∨ s.db.SameRows t.db)

theorem JobCall.InTime.le {now : Timestamp} {c : JobCall} (h : c.InTime now) : now ≤ c.now := by
  unfold JobCall.InTime at h
  split at h
  · exact h.1.trans h.2
  · exact h

/-- The state after a committed call, in the order the call left the rows. -/
def JobState.exec (s : JobState) (c : JobCall) : JobState := { db := c.commit s.db, now := c.now }

theorem JobStep.exec {s : JobState} {c : JobCall} (h : c.InTime s.now) : JobStep s c (s.exec c) :=
  ⟨h, rfl, Or.inl (Db.SameRows.refl _)⟩

/-! ## What the repository functions do

Each function reads a row, writes it back by its id and writes the row of an attempt. Ids are
unique, so the row that is written is the row that was read, whatever the physical order. An
attempt row that is not there is an error, and the call is rolled back.
-/

theorem find_job (db : Db) {job_id : Uuid} {row : JobRow}
    (h : db.jobs.rows.find? (fun r => r.id == job_id) = some row) :
    row ∈ db.jobs.rows ∧ row.id = job_id :=
  ⟨List.mem_of_find?_eq_some h, by simpa using List.find?_some h⟩

/-- Two rows with one id are one row. -/
theorem job_eq_of_id (db : Db) {a b : JobRow} (ha : a ∈ db.jobs.rows) (hb : b ∈ db.jobs.rows)
    (h : a.id = b.id) : a = b := db.jobs.eq_of_clash ha hb (Or.inl h)

/-- An update by id replaces the row with that id. -/
theorem update_job_rows {db : Db} {row : JobRow} (hrow : row ∈ db.jobs.rows) {set : JobRow → JobRow}
    {hset : KeepsKeys set} {jobs : Table JobRow}
    (h : db.jobs.update (fun r => r.id == row.id) set hset = some jobs) :
    jobs.rows = replaceRow row (set row) db.jobs.rows :=
  Table.update_eq_replace h (beq_self_eq_true row.id)
    (fun r hr hid => job_eq_of_id db hr hrow (by simpa using hid))

/-- The attempts after the outcome of the attempt `row` is at was recorded. -/
def recorded_attempts (row : JobRow) (status : JobStatus) (error_class error_message : Option String)
    (now : Timestamp) (attempts : List JobAttemptRow) : List JobAttemptRow :=
  attempts.map (Table.setRow (JobAttemptRow.of_attempt row.id row.attempts)
    (JobAttemptRow.record status error_class error_message now))

theorem update_attempt_status_spec {db db' : Db} {job_id : Uuid} {attempt_number : Int}
    {status : JobStatus} {error_class error_message : Option String} {now : Timestamp}
    (h : update_attempt_status db job_id attempt_number status error_class error_message now
      = .ok db') :
    db' = { db with job_attempts := db'.job_attempts } ∧
      db'.job_attempts.rows = db.job_attempts.rows.map (Table.setRow
        (JobAttemptRow.of_attempt job_id attempt_number)
        (JobAttemptRow.record status error_class error_message now)) := by
  unfold update_attempt_status at h
  simp only [bind_eq_ok, db_result_eq_ok] at h
  obtain ⟨job_attempts, hupdate, h⟩ := h
  cases h
  exact ⟨rfl, (Table.update_eq_some.1 hupdate).2⟩

/-- A `mark_*` call replaces one row and records the outcome of its attempt. -/
theorem mark_job_spec {db db' : Db} {job_id : Uuid} {set : JobRow → JobRow} {hset : KeepsKeys set}
    {attempt_status : JobStatus} {error_class error_message : Option String} {now : Timestamp}
    {row' : JobRow}
    (h : mark_job db job_id set hset attempt_status error_class error_message now = .ok (row', db'))
    (hkeep : ∀ r, (set r).id = r.id ∧ (set r).attempts = r.attempts) :
    ∃ row ∈ db.jobs.rows, row.id = job_id ∧
      db'.jobs.rows = replaceRow row (set row) db.jobs.rows ∧
      db'.job_attempts.rows = recorded_attempts row attempt_status error_class error_message now
        db.job_attempts.rows := by
  unfold mark_job at h
  split at h
  · cases h
  · rename_i row hfind
    obtain ⟨hrow, hid⟩ := find_job db hfind
    subst hid
    simp only [bind_eq_ok, db_result_eq_ok] at h
    obtain ⟨jobs, hupdate, mid, hattempt, h⟩ := h
    cases h
    obtain ⟨hmid, hattempts⟩ := update_attempt_status_spec hattempt
    rw [(hkeep row).1, (hkeep row).2] at hattempts
    refine ⟨row, hrow, rfl, ?_, hattempts⟩
    rw [hmid]
    exact update_job_rows hrow hupdate

/-- The row is an unlocked candidate, and none was created before it. -/
structure NextCandidate (db : Db) (now : Timestamp) (job_type : Option JobType)
    (chain_id : Option Int) (locked : Uuid → Bool) (row : JobRow) : Prop where
  mem : row ∈ db.jobs.rows
  candidate : row.is_candidate now job_type chain_id = true
  free : locked row.id = false
  oldest : ∀ other ∈ db.jobs.rows, other.is_candidate now job_type chain_id = true →
    locked other.id = false → row.created_at ≤ other.created_at

/-- What is locked is the next candidate. -/
theorem lock_next_candidate_spec {db : Db} {now : Timestamp} {job_type : Option JobType}
    {chain_id : Option Int} {locked : Uuid → Bool} {row : JobRow}
    (h : lock_next_candidate db now job_type chain_id locked = some row) :
    NextCandidate db now job_type chain_id locked row := by
  have hmem := (List.mem_insertionSort _).1 (List.mem_of_find?_eq_some h)
  obtain ⟨hrow, hcandidate⟩ := List.mem_filter.1 hmem
  refine ⟨hrow, hcandidate, by simpa using List.find?_some h, fun other hother hok hfree => ?_⟩
  exact le_of_find?_insertionSort JobRow.created_at h (List.mem_filter.2 ⟨hother, hok⟩)
    (by rw [hfree]; rfl)

/-- The attempts after the attempt of an expired `candidate` was cancelled. -/
def cancelled_attempts (candidate : JobRow) (now : Timestamp) (attempts : List JobAttemptRow) :
    List JobAttemptRow :=
  if candidate.lease_expired now then
    recorded_attempts candidate .Cancelled (some "LeaseExpired")
      (some "job lease expired before worker completed") now attempts
  else attempts

theorem cancel_expired_attempt_spec {db db' : Db} {candidate : JobRow} {now : Timestamp}
    (h : cancel_expired_attempt db candidate now = .ok db') :
    db' = { db with job_attempts := db'.job_attempts } ∧
      db'.job_attempts.rows = cancelled_attempts candidate now db.job_attempts.rows := by
  unfold cancel_expired_attempt at h
  unfold cancelled_attempts
  split at h
  · rename_i hexpired
    rw [if_pos hexpired]
    exact update_attempt_status_spec h
  · rename_i hexpired
    cases h
    rw [if_neg hexpired]
    exact ⟨rfl, rfl⟩

/-- A lease finds nothing, or leases the candidate it locked. -/
theorem lease_next_candidate_spec {db db' : Db} {worker_id : String} {lease_for : Int}
    {job_type : Option JobType} {chain_id : Option Int} {locked : Uuid → Bool}
    {selected_at now : Timestamp} {leased : Option JobRow}
    (h : lease_next_candidate db worker_id lease_for job_type chain_id locked selected_at now
      = .ok (leased, db')) :
    (leased = none ∧ db' = db) ∨
      ∃ candidate, lock_next_candidate db selected_at job_type chain_id locked = some candidate ∧
        leased = some (candidate.lease worker_id (now + lease_for)) ∧
        db'.jobs.rows
          = replaceRow candidate (candidate.lease worker_id (now + lease_for)) db.jobs.rows ∧
        db'.job_attempts.rows = cancelled_attempts candidate now db.job_attempts.rows ++
          [(candidate.lease worker_id (now + lease_for)).new_attempt db.next_uuid worker_id] := by
  unfold lease_next_candidate at h
  split at h
  · cases h
    exact Or.inl ⟨rfl, rfl⟩
  · rename_i candidate hlock
    have hrow := (lock_next_candidate_spec hlock).mem
    simp only [bind_eq_ok, db_result_eq_ok] at h
    obtain ⟨mid, hmid, jobs, hupdate, job_attempts, hinsert, h⟩ := h
    cases h
    -- cancelling the old attempt leaves the jobs and the counter
    obtain ⟨hframe, hattempts⟩ := cancel_expired_attempt_spec hmid
    rw [hframe] at hupdate
    refine Or.inr ⟨candidate, hlock, rfl, update_job_rows hrow hupdate, ?_⟩
    have huuid : mid.next_uuid = db.next_uuid := by rw [hframe]
    rw [(Table.insert_eq_some.1 hinsert).2, hattempts, huuid]

/-- An enqueue inserts its row or changes nothing. -/
theorem enqueue_spec {db db' : Db} {now : Timestamp} {job : NewJob} {result : EnqueueResult}
    (h : enqueue db now job = .ok (result, db')) :
    (db'.jobs.rows = db.jobs.rows ++ [job.to_row now] ∧
        db'.job_attempts = db.job_attempts) ∨ db' = db := by
  unfold enqueue at h
  split at h
  · split at h
    · rename_i jobs hinsert
      cases h
      exact Or.inl ⟨(Table.insert_eq_some.1 hinsert).2, rfl⟩
    · obtain ⟨row, -, hrow⟩ := map_eq_ok.1 h
      cases hrow
      exact Or.inr rfl
  · cases h

/-! ## What a call can do

`RowStep` has a case for every way a row moves, with the guard of the code in it: leased from
the queue or from under an expired lease, running, succeeded, failed with or without attempts
left, interrupted. Of the `mark_*` calls only the last has a guard. A call that returned has
moved one row in one of these ways, or inserted one, or changed nothing.
-/

/-- The ways a call moves a job row, with what it writes to the attempts. -/
inductive RowStep (db : Db) (c : JobCall) (old : JobRow) :
    JobRow → (List JobAttemptRow → List JobAttemptRow) → Prop
  | leased {lease_for : Int} {job_type : Option JobType} {chain_id : Option Int}
      {locked : Uuid → Bool} {selected_at : Timestamp} (id : Uuid)
      (hop : c.op = .lease_next_candidate lease_for job_type chain_id locked selected_at)
      (hnext : NextCandidate db selected_at job_type chain_id locked old) :
      RowStep db c old (old.lease c.worker (c.now + lease_for)) fun attempts =>
        cancelled_attempts old c.now attempts ++
          [(old.lease c.worker (c.now + lease_for)).new_attempt id c.worker]
  | running (hop : c.op = .mark_running old.id) :
      RowStep db c old old.run (recorded_attempts old .Running none none c.now)
  | succeeded (hop : c.op = .mark_succeeded old.id) :
      RowStep db c old old.succeed (recorded_attempts old .Succeeded none none c.now)
  | failed {error_class error_message : String}
      (hop : c.op = .mark_failed old.id error_class error_message) :
      RowStep db c old (old.give_up old.failed_status error_class error_message)
        (recorded_attempts old (if old.failed_status = .DeadLettered then .DeadLettered else .Failed)
          (some error_class) (some error_message) c.now)
  | interrupted {error_message : String}
      (hop : c.op = .mark_interrupted_for_retry old.id error_message)
      (hstatus : old.status = .Leased ∨ old.status = .Running) :
      RowStep db c old (old.give_up .Queued "WorkerInterrupted" error_message)
        (recorded_attempts old .Cancelled (some "WorkerInterrupted") (some error_message) c.now)

theorem RowStep.keeps {db : Db} {c : JobCall} {old new : JobRow}
    {f : List JobAttemptRow → List JobAttemptRow} (h : RowStep db c old new f) :
    new.id = old.id ∧ new.max_attempts = old.max_attempts := by
  cases h <;> exact ⟨rfl, rfl⟩

/-- What a call does to the queue: nothing, a new job, or a move of one job. -/
inductive JobChange (c : JobCall) (db db' : Db) : Prop
  | same (hjobs : db'.jobs.rows = db.jobs.rows)
      (hattempts : db'.job_attempts.rows = db.job_attempts.rows)
  | enqueued {job : NewJob} (hop : c.op = .enqueue job)
      (hjobs : db'.jobs.rows = db.jobs.rows ++ [job.to_row c.now])
      (hattempts : db'.job_attempts.rows = db.job_attempts.rows)
  | moved {old new : JobRow} {f : List JobAttemptRow → List JobAttemptRow}
      (hold : old ∈ db.jobs.rows) (hstep : RowStep db c old new f)
      (hjobs : db'.jobs.rows = replaceRow old new db.jobs.rows)
      (hattempts : db'.job_attempts.rows = f db.job_attempts.rows)

/-- Every call that succeeds is one of these changes: it enqueues a row, moves one, or finds
nothing to do. Each operation is unfolded once, here. -/
theorem JobCall.apply_change {db db' : Db} {c : JobCall} (h : c.apply db = .ok db') :
    JobChange c db db' := by
  unfold JobCall.apply at h
  cases hop : c.op with
  | enqueue job =>
    rw [hop] at h
    obtain ⟨⟨result, d⟩, hd, rfl⟩ := map_eq_ok.1 h
    -- a new row, or the row already under the idempotency key
    rcases enqueue_spec hd with ⟨hjobs, hattempts⟩ | rfl
    · exact .enqueued hop hjobs (congrArg Table.rows hattempts)
    · exact .same rfl rfl
  | lease_next_candidate lease_for job_type chain_id locked selected_at =>
    rw [hop] at h
    obtain ⟨⟨leased, d⟩, hd, rfl⟩ := map_eq_ok.1 h
    rcases lease_next_candidate_spec hd with ⟨-, rfl⟩ | ⟨candidate, hlock, -, hjobs, hattempts⟩
    · exact .same rfl rfl
    · have hnext := lock_next_candidate_spec hlock
      exact .moved hnext.mem (.leased db.next_uuid hop hnext) hjobs hattempts
  | mark_running job_id =>
    rw [hop] at h
    obtain ⟨⟨row', d⟩, hd, rfl⟩ := map_eq_ok.1 h
    unfold EvmIndexer.mark_running at hd
    obtain ⟨row, hrow, rfl, hjobs, hattempts⟩ := mark_job_spec hd (fun _ => ⟨rfl, rfl⟩)
    exact .moved hrow (.running hop) hjobs hattempts
  | mark_succeeded job_id =>
    rw [hop] at h
    obtain ⟨⟨row', d⟩, hd, rfl⟩ := map_eq_ok.1 h
    unfold EvmIndexer.mark_succeeded at hd
    obtain ⟨row, hrow, rfl, hjobs, hattempts⟩ := mark_job_spec hd (fun _ => ⟨rfl, rfl⟩)
    exact .moved hrow (.succeeded hop) hjobs hattempts
  | mark_failed job_id error_class error_message =>
    rw [hop] at h
    obtain ⟨⟨row', d⟩, hd, rfl⟩ := map_eq_ok.1 h
    unfold EvmIndexer.mark_failed at hd
    -- the job is looked up first
    split at hd
    · cases hd
    · rename_i found hfind
      obtain ⟨hfound, rfl⟩ := find_job db hfind
      obtain ⟨row, hrow, hid, hjobs, hattempts⟩ := mark_job_spec hd (fun _ => ⟨rfl, rfl⟩)
      obtain rfl := job_eq_of_id db hrow hfound hid
      exact .moved hrow (.failed hop) hjobs hattempts
  | mark_interrupted_for_retry job_id error_message =>
    rw [hop] at h
    obtain ⟨⟨row', d⟩, hd, rfl⟩ := map_eq_ok.1 h
    unfold EvmIndexer.mark_interrupted_for_retry at hd
    split at hd
    · cases hd
    · rename_i found hfind
      obtain ⟨hfound, rfl⟩ := find_job db hfind
      split at hd
      · rename_i hstatus
        obtain ⟨row, hrow, hid, hjobs, hattempts⟩ := mark_job_spec hd (fun _ => ⟨rfl, rfl⟩)
        obtain rfl := job_eq_of_id db hrow hfound hid
        exact .moved hrow (.interrupted hop hstatus) hjobs hattempts
      · cases hd
        exact .same rfl rfl

theorem JobCall.commit_change (db : Db) (c : JobCall) : JobChange c db (c.commit db) := by
  unfold JobCall.commit
  split
  · rename_i db' h
    exact c.apply_change h
  · exact .same rfl rfl

/-- A move writes no attempt of another job: the update of an attempt names its job and
number, and a new one is of the job that was leased. -/
theorem RowStep.attempts_other {db : Db} {c : JobCall} {old new : JobRow}
    {f : List JobAttemptRow → List JobAttemptRow} (h : RowStep db c old new f) {a : JobAttemptRow}
    (ha : a.job_id ≠ old.id) (attempts : List JobAttemptRow) : a ∈ f attempts ↔ a ∈ attempts := by
  -- the attempt that is closed is one of the job of the step
  have hrecorded : ∀ status ec em now, a ∈ recorded_attempts old status ec em now attempts ↔
      a ∈ attempts := by
    intro status ec em now
    unfold recorded_attempts
    constructor
    · intro hmem
      obtain ⟨b, hb, rfl⟩ := List.mem_map.1 hmem
      unfold Table.setRow at ha ⊢
      split at ha
      · rename_i hof
        have hjob : b.job_id = old.id := by
          simp only [JobAttemptRow.of_attempt, Bool.and_eq_true, beq_iff_eq] at hof
          exact hof.1
        exact absurd hjob ha
      · rename_i hof
        rw [if_neg hof]
        exact hb
    · intro hmem
      refine List.mem_map.2 ⟨a, hmem, ?_⟩
      unfold Table.setRow
      rw [if_neg]
      intro hof
      simp only [JobAttemptRow.of_attempt, Bool.and_eq_true, beq_iff_eq] at hof
      exact ha hof.1
  cases h with
  | leased id hop hnext =>
    have hcancelled : a ∈ cancelled_attempts old c.now attempts ↔ a ∈ attempts := by
      unfold cancelled_attempts
      split
      · exact hrecorded _ _ _ _
      · exact Iff.rfl
    rw [List.mem_append, hcancelled, List.mem_singleton]
    constructor
    · rintro (hmem | rfl)
      · exact hmem
      · exact absurd rfl ha
    · exact Or.inl
  | running => exact hrecorded _ _ _ _
  | succeeded => exact hrecorded _ _ _ _
  | failed => exact hrecorded _ _ _ _
  | interrupted => exact hrecorded _ _ _ _

/-! ## The rows before and after a step

A step also leaves the rows in any order, and it may be aborted. So a property of job rows is
followed by membership: where a row of the state after the step comes from, and what has
become of one before it.
-/

/-- A step changes the queue as its call does, or not at all. -/
theorem JobStep.change {s t : JobState} {c : JobCall} (h : JobStep s c t) :
    ∃ d : Db, JobChange c s.db d ∧ d.SameRows t.db := by
  obtain ⟨-, -, hcommit | habort⟩ := h
  · exact ⟨_, c.commit_change s.db, hcommit⟩
  · exact ⟨s.db, .same rfl rfl, habort⟩

/-- A job row after a step was there before, with the attempts of the job, or was
enqueued by it, or was moved by it. -/
theorem JobStep.mem {s t : JobState} {c : JobCall} (h : JobStep s c t) {job : JobRow}
    (hjob : job ∈ t.db.jobs.rows) :
    (job ∈ s.db.jobs.rows ∧ ∀ a : JobAttemptRow, a.job_id = job.id →
        (a ∈ t.db.job_attempts.rows ↔ a ∈ s.db.job_attempts.rows)) ∨
      (∃ new, c.op = .enqueue new ∧ job = new.to_row c.now) ∨
      ∃ old ∈ s.db.jobs.rows, ∃ f, RowStep s.db c old job f ∧
        ∀ a, a ∈ t.db.job_attempts.rows ↔ a ∈ f s.db.job_attempts.rows := by
  obtain ⟨d, hchange, hsame⟩ := h.change
  rw [← hsame.jobs.mem_iff] at hjob
  simp only [← hsame.job_attempts.mem_iff]
  cases hchange with
  | same hjobs hattempts =>
    rw [hjobs] at hjob
    rw [hattempts]
    exact Or.inl ⟨hjob, fun _ _ => Iff.rfl⟩
  | enqueued hop hjobs hattempts =>
    rw [hjobs, List.mem_append, List.mem_singleton] at hjob
    rw [hattempts]
    exact hjob.imp (fun h => ⟨h, fun _ _ => Iff.rfl⟩) (fun e => Or.inl ⟨_, hop, e⟩)
  -- the row is the moved one, or another whose attempts are left alone
  | moved hold hstep hjobs hattempts =>
    rw [hjobs, mem_replaceRow hold] at hjob
    rw [hattempts]
    rcases hjob with rfl | ⟨hjob, hne⟩
    · exact Or.inr (Or.inr ⟨_, hold, _, hstep, fun _ => Iff.rfl⟩)
    · refine Or.inl ⟨hjob, fun a ha => hstep.attempts_other ?_ _⟩
      rw [ha]
      intro hid
      exact hne (job_eq_of_id s.db hjob hold hid)

/-- A job row before a step is there after it, with the attempts of the job, or
was moved by it. -/
theorem JobStep.stays {s t : JobState} {c : JobCall} (h : JobStep s c t) {job : JobRow}
    (hjob : job ∈ s.db.jobs.rows) :
    (job ∈ t.db.jobs.rows ∧ ∀ a : JobAttemptRow, a.job_id = job.id →
        (a ∈ t.db.job_attempts.rows ↔ a ∈ s.db.job_attempts.rows)) ∨
      ∃ new ∈ t.db.jobs.rows, ∃ f, RowStep s.db c job new f ∧
        ∀ a, a ∈ t.db.job_attempts.rows ↔ a ∈ f s.db.job_attempts.rows := by
  obtain ⟨d, hchange, hsame⟩ := h.change
  simp only [← hsame.jobs.mem_iff, ← hsame.job_attempts.mem_iff]
  cases hchange with
  | same hjobs hattempts =>
    rw [hjobs, hattempts]
    exact Or.inl ⟨hjob, fun _ _ => Iff.rfl⟩
  | enqueued hop hjobs hattempts =>
    rw [hjobs, hattempts]
    exact Or.inl ⟨List.mem_append_left _ hjob, fun _ _ => Iff.rfl⟩
  | moved hold hstep hjobs hattempts =>
    rename_i old new f
    rw [hjobs, hattempts]
    simp only [mem_replaceRow hold]
    by_cases he : job = old
    · subst he
      exact Or.inr ⟨new, Or.inl rfl, f, hstep, fun _ => Iff.rfl⟩
    · -- the move is of another job, whose id its attempts carry
      refine Or.inl ⟨Or.inr ⟨hjob, he⟩, fun a ha => ?_⟩
      refine hstep.attempts_other ?_ _
      rw [ha]
      intro hid
      exact he (job_eq_of_id s.db hjob hold hid)

/-- A property of job rows survives a step if new jobs have it and the step's
move keeps it. -/
theorem JobStep.jobs {P : JobRow → Prop} {s t : JobState} {c : JobCall} (h : JobStep s c t)
    (hnew : ∀ (new : NewJob) (now : Timestamp), Schema.Check (new.to_row now) → P (new.to_row now))
    (hmove : ∀ {old new : JobRow} {f : List JobAttemptRow → List JobAttemptRow},
      old ∈ s.db.jobs.rows → RowStep s.db c old new f → P old → P new)
    (hs : ∀ job ∈ s.db.jobs.rows, P job) : ∀ job ∈ t.db.jobs.rows, P job := by
  intro job hjob
  rcases h.mem hjob with ⟨hjob, -⟩ | ⟨new, -, rfl⟩ | ⟨old, hold, f, hstep, -⟩
  · exact hs job hjob
  · exact hnew new c.now (t.db.jobs.checked _ hjob)
  · exact hmove hold hstep (hs old hold)

theorem JobState.Initial.no_jobs {s : JobState} (h : s.Initial) (job : JobRow) :
    job ∉ s.db.jobs.rows := by
  rw [h.1]
  exact List.not_mem_nil

/-- A property of job rows holds in every state reached if new jobs have it and
the moves of the calls allowed keep it. -/
theorem jobs_of_reachable {ok : JobState → JobCall → Prop} {P : JobRow → Prop}
    (hnew : ∀ (new : NewJob) (now : Timestamp), Schema.Check (new.to_row now) → P (new.to_row now))
    (hmove : ∀ {s : JobState} {c : JobCall} {old new : JobRow}
      {f : List JobAttemptRow → List JobAttemptRow}, ok s c → old ∈ s.db.jobs.rows →
      RowStep s.db c old new f → P old → P new)
    {s : JobState} (h : Reachable (Guarded JobStep ok) JobState.Initial s) :
    ∀ job ∈ s.db.jobs.rows, P job := by
  refine Reachable.invariant (I := fun s => ∀ job ∈ s.db.jobs.rows, P job) ?_ ?_ h
  · intro s hs job hjob
    exact absurd hjob (hs.no_jobs job)
  · intro s c t hs hstep
    exact hstep.1.jobs hnew (hmove hstep.2) hs

/-! ## A small queue -/

/-- A queue on an empty database, at time 0. -/
def idle : JobState := { db := Db.empty, now := 0 }

/-- A job to ingest blocks 100 to 110 of a source. -/
def ingest_job (max_attempts : Int) : NewJob :=
  (((NewJob.new 0 .IngestRange 1 "ingest:0:100:110").with_range 100 110).with_source
    0).with_max_attempts max_attempts

/-- A worker asking for any job, for a lease of 10. -/
def lease_at (worker : String) (now : Timestamp) : JobCall :=
  { worker, now, op := .lease_next_candidate 10 none none (fun _ => false) now }

/-- A job is enqueued, `a` leases it until 10, and `b` reclaims it at 20. -/
def reclaimed (max_attempts : Int) : List JobCall :=
  [{ worker := "cli", now := 0, op := .enqueue (ingest_job max_attempts) },
   lease_at "a" 0, lease_at "b" 20]

/-- Calls made in the order of the clock are a run of the queue. -/
theorem run_of_inTime {calls : List JobCall}
    (h : Allowed JobState.exec (fun s c => decide (c.InTime s.now)) idle calls = true) :
    Run JobStep idle calls (calls.foldl JobState.exec idle) :=
  Run.of_allowed (fun _ _ hc => JobStep.exec (of_decide_eq_true hc)) h

theorem idle_initial : idle.Initial := ⟨rfl, rfl⟩

end EvmIndexer
