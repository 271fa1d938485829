/-
What a lease is worth.

A lease is three columns of a job row: a status of leased or running, the worker,
and the time it expires at. Two properties of the queue rest on them. A job that
is leased or running can be taken over once its lease has expired, which needs
the columns to be there (`LeaseKept`); and until then nobody else touches it
(`HoldsLease`).

Neither holds of every run, because a `mark_*` call is told the job id alone. A
worker whose lease expired can still mark the job running after it went back to
the queue, which sets the status without a lease (`stranded_by_late_running`), and
it can finish the job under the worker that reclaimed it
(`reclaimed_job_finished_by_late_call`). The theorems are about the runs without
such calls.
-/
import EvmIndexer.JobQueue

set_option autoImplicit false

namespace EvmIndexer

open Sql Transition

/-! ## Leases are kept

The status and the two lease columns are written by different calls. A lease writes all
three, and the calls that end an attempt clear the lease with the status. `mark_running`
writes the status alone, so it is the one call that can bring a job to a status without the
lease that goes with it.
-/

/-- The lease columns are what the status says: a leased or running job names its worker and
when the lease ends, and a queued one has neither. Of a job that has ended nothing is said.
-/
def LeaseKept (job : JobRow) : Prop :=
  ((job.status = .Leased ∨ job.status = .Running) →
    job.lease_expires_at ≠ none ∧ job.leased_by ≠ none) ∧
  (job.status = .Queued → job.lease_expires_at = none ∧ job.leased_by = none)

/-- No `mark_running` finds its job other than leased or running. Anything else would put a
job that has no lease, because it was given up or has ended, into a status that only a lease
can lead out of. -/
def RunsOnlyLeased (s : JobState) (c : JobCall) : Prop :=
  ∀ job ∈ s.db.jobs.rows, c.op = .mark_running job.id → job.status = .Leased ∨ job.status = .Running

theorem LeaseKept.to_row (new : NewJob) (now : Timestamp) : LeaseKept (new.to_row now) := by
  refine ⟨?_, fun _ => ⟨rfl, rfl⟩⟩
  rintro (h | h) <;> cases h

/-- A job given up has no lease, and is not leased. -/
theorem LeaseKept.give_up {job : JobRow} {status : JobStatus} {error_class error_message : String}
    (hstatus : ¬ (status = .Leased ∨ status = .Running)) :
    LeaseKept (job.give_up status error_class error_message) :=
  ⟨fun h => absurd h hstatus, fun _ => ⟨rfl, rfl⟩⟩

theorem failed_status_cases (job : JobRow) :
    (job.max_attempts ≤ job.attempts ∧ job.failed_status = .DeadLettered) ∨
      (job.attempts < job.max_attempts ∧ job.failed_status = .Queued) := by
  unfold JobRow.failed_status
  by_cases h : job.max_attempts ≤ job.attempts
  · exact Or.inl ⟨h, if_pos h⟩
  · exact Or.inr ⟨not_le.1 h, if_neg h⟩

/-- A move keeps the lease columns in step with the status, unless it runs a job
that was not leased. -/
theorem RowStep.leaseKept {db : Db} {c : JobCall} {old new : JobRow}
    {f : List JobAttemptRow → List JobAttemptRow} (h : RowStep db c old new f) (hold : LeaseKept old)
    (hruns : c.op = .mark_running old.id → old.status = .Leased ∨ old.status = .Running) :
    LeaseKept new := by
  cases h with
  | leased id hop hnext =>
    refine ⟨fun _ => ⟨by simp [JobRow.lease], by simp [JobRow.lease]⟩, ?_⟩
    intro hqueued
    cases hqueued
  | running hop =>
    have hlease := hold.1 (hruns hop)
    refine ⟨fun _ => hlease, ?_⟩
    intro hqueued
    cases hqueued
  | succeeded hop =>
    refine ⟨?_, fun _ => ⟨rfl, rfl⟩⟩
    rintro (h | h) <;> cases h
  | failed hop =>
    apply LeaseKept.give_up
    rcases failed_status_cases old with ⟨-, h⟩ | ⟨-, h⟩ <;> rw [h] <;> simp
  | interrupted hop hstatus =>
    apply LeaseKept.give_up
    simp

/-- A candidate that is the only unlocked row is the one that is locked. -/
theorem lock_next_candidate_alone {db : Db} {now : Timestamp} {job_type : Option JobType}
    {chain_id : Option Int} {job : JobRow} (hjob : job ∈ db.jobs.rows)
    (hcandidate : job.is_candidate now job_type chain_id = true) :
    lock_next_candidate db now job_type chain_id (fun id => id != job.id) = some job := by
  have hmem : job ∈ (db.jobs.rows.filter (JobRow.is_candidate now job_type chain_id)).insertionSort
      fun a b => a.created_at ≤ b.created_at :=
    (List.mem_insertionSort _).2 (List.mem_filter.2 ⟨hjob, hcandidate⟩)
  have hsome : (lock_next_candidate db now job_type chain_id (fun id => id != job.id)).isSome := by
    unfold lock_next_candidate
    rw [List.find?_isSome]
    exact ⟨job, hmem, by simp⟩
  obtain ⟨found, hfound⟩ := Option.isSome_iff_exists.1 hsome
  have hnext := lock_next_candidate_spec hfound
  have hid : found.id = job.id := by simpa using hnext.free
  rw [hfound, job_eq_of_id db hnext.mem hjob hid]

/-- The job can be leased at `now`, by a worker asking for its type and chain
while the older candidates are taken. -/
def Leasable (db : Db) (job : JobRow) (now : Timestamp) : Prop :=
  job.is_candidate now none none = true ∧
    ∃ locked, lock_next_candidate db now (some job.job_type) (some job.chain_id) locked = some job

/-- Where no job is marked running that is not leased, a leased or running job
has its lease, a queued one has none, and a lease that has expired can be taken
over. -/
theorem leases_are_kept {s : JobState}
    (h : Reachable (Guarded JobStep RunsOnlyLeased) JobState.Initial s) :
    ∀ job ∈ s.db.jobs.rows, LeaseKept job ∧
      ((job.status = .Leased ∨ job.status = .Running) →
        ∃ expires_at, job.lease_expires_at = some expires_at ∧
          ∀ now, expires_at < now → Leasable s.db job now) := by
  have hkept : ∀ job ∈ s.db.jobs.rows, LeaseKept job := by
    refine jobs_of_reachable (fun new now _ => LeaseKept.to_row new now) ?_ h
    intro s c old new f hruns hold hmove hkept
    exact hmove.leaseKept hkept (hruns old hold)
  intro job hjob
  refine ⟨hkept job hjob, fun hstatus => ?_⟩
  obtain ⟨expires_at, hexpires⟩ := Option.ne_none_iff_exists'.1 ((hkept job hjob).1 hstatus).1
  refine ⟨expires_at, hexpires, fun now hnow => ?_⟩
  have hexpired : job.lease_expired now = true := by
    rcases hstatus with h | h <;> simp [JobRow.lease_expired, h, hexpires, hnow]
  refine ⟨by simp [JobRow.is_candidate, hexpired], _, lock_next_candidate_alone hjob ?_⟩
  simp [JobRow.is_candidate, hexpired]

theorem leases_are_kept_reclaimed :
    let s := (reclaimed 5).foldl JobState.exec idle
    ∀ job ∈ s.db.jobs.rows, LeaseKept job ∧
      ((job.status = .Leased ∨ job.status = .Running) →
        ∃ expires_at, job.lease_expires_at = some expires_at ∧
          ∀ now, expires_at < now → Leasable s.db job now) := by
  refine leases_are_kept ⟨idle, reclaimed 5, idle_initial, ?_⟩
  refine Run.cons ⟨JobStep.exec (by decide), ?_⟩ (Run.cons ⟨JobStep.exec (by decide), ?_⟩
    (Run.cons ⟨JobStep.exec (by decide), ?_⟩ Run.nil))
  all_goals
    intro job hjob hop
    cases hop

/-- A worker makes `mark_*` calls only for jobs it leased at some point, as the worker's loop
does. It may have lost the lease since, and not know. -/
def CalledByLessee (s : JobState) (c : JobCall) : Prop :=
  ∀ job_id ∈ c.op.target, ∃ a ∈ s.db.job_attempts.rows, a.job_id = job_id ∧ a.worker_id = c.worker

instance (s : JobState) (c : JobCall) : Decidable (CalledByLessee s c) := by
  unfold CalledByLessee
  infer_instance

/-- Calls made in the order of the clock by workers that leased the job. -/
theorem run_of_called_by_lessee {calls : List JobCall}
    (h : Allowed JobState.exec (fun s c => decide (c.InTime s.now ∧ CalledByLessee s c)) idle calls
      = true) :
    Run (Guarded JobStep CalledByLessee) idle calls (calls.foldl JobState.exec idle) :=
  Run.of_allowed (fun _ _ hc =>
    ⟨JobStep.exec (of_decide_eq_true hc).1, (of_decide_eq_true hc).2⟩) h

/-- `b` reclaims the job of `a` and fails it; then `a` marks it running. -/
def late_running : List JobCall :=
  reclaimed 5 ++ [{ worker := "b", now := 21, op := .mark_failed 0 "Worker" "rpc error" },
    { worker := "a", now := 22, op := .mark_running 0 }]

/-- The job is left running without a lease, which nobody can reclaim. -/
theorem stranded_by_late_running :
    ¬ ∀ s, Reachable (Guarded JobStep CalledByLessee) JobState.Initial s →
      ∀ job ∈ s.db.jobs.rows, LeaseKept job := by
  intro h
  have hkept := h _ ⟨idle, late_running, idle_initial, run_of_called_by_lessee (by decide +kernel)⟩
  have hstranded : ∃ job ∈ (late_running.foldl JobState.exec idle).db.jobs.rows,
      job.status = .Running ∧ job.lease_expires_at = none := by decide +kernel
  obtain ⟨job, hjob, hrunning, hnone⟩ := hstranded
  exact ((hkept job hjob).1 (Or.inr hrunning)).1 hnone

/-! ## Leases are exclusive

While a lease has not expired its job is no candidate, so no other worker leases it. What can
still reach it is a `mark_*` call by its id. The stretch begins where the worker has the job,
and ends where it finishes the job, releases it or lets the lease run out; the clock decides
which of these is first.
-/

/-- `worker` has the job leased until `expires_at`. Whether that is before or after now is
not said here, since a lease that has expired is still held until somebody takes the job. -/
structure HoldsLease (s : JobState) (job : JobRow) (worker : String) (expires_at : Timestamp) :
    Prop where
  mem : job ∈ s.db.jobs.rows
  status : job.status = .Leased ∨ job.status = .Running
  leased_by : job.leased_by = some worker
  lease_expires_at : job.lease_expires_at = some expires_at

/-- A `mark_*` call on a job that someone has leased, and whose lease has not expired, is
made by that worker, or marks running what is running already. The last is harmless: it
writes the status the row has, and the attempt is recorded as running before it. -/
def OwnedCall (s : JobState) (c : JobCall) : Prop :=
  ∀ job worker expires_at, HoldsLease s job worker expires_at → c.op.target = some job.id →
    c.now ≤ expires_at →
      c.worker = worker ∨ (c.op = .mark_running job.id ∧ job.status = .Running)

/-- The worker finishes the job or releases it, with one of the three calls that end a lease.
-/
def JobCall.Finishes (c : JobCall) (worker : String) (job_id : Uuid) : Prop :=
  c.worker = worker ∧ (c.op = .mark_succeeded job_id ∨
    (∃ error_class error_message, c.op = .mark_failed job_id error_class error_message) ∨
    ∃ error_message, c.op = .mark_interrupted_for_retry job_id error_message)

/-- The current attempt of a running job is recorded as running. -/
def RunningRecorded (s : JobState) : Prop :=
  ∀ job ∈ s.db.jobs.rows, job.status = .Running → ∀ a ∈ s.db.job_attempts.rows,
    a.of_attempt job.id job.attempts = true → ∀ now, a.record .Running none none now = a

theorem of_attempt_iff {job_id : Uuid} {attempt_number : Int} {a : JobAttemptRow} :
    a.of_attempt job_id attempt_number = true ↔
      a.job_id = job_id ∧ a.attempt_number = attempt_number := by
  simp [JobAttemptRow.of_attempt]

/-- Recording twice is recording once. -/
theorem record_of_mem_recorded {row : JobRow} {attempts : List JobAttemptRow} {now : Timestamp}
    {a : JobAttemptRow} (ha : a ∈ recorded_attempts row .Running none none now attempts)
    (hof : a.of_attempt row.id row.attempts = true) (later : Timestamp) :
    a.record .Running none none later = a := by
  obtain ⟨b, -, rfl⟩ := List.mem_map.1 ha
  have hb : b.of_attempt row.id row.attempts = true := by
    unfold Table.setRow at hof
    split at hof
    · assumption
    · exact hof
  unfold Table.setRow
  rw [if_pos hb]
  rfl

/-- Recording as running what is recorded as running changes nothing. -/
theorem recorded_attempts_of_running {row : JobRow} {attempts : List JobAttemptRow}
    {now : Timestamp}
    (h : ∀ a ∈ attempts, a.of_attempt row.id row.attempts = true →
      ∀ now, a.record .Running none none now = a) :
    recorded_attempts row .Running none none now attempts = attempts := by
  unfold recorded_attempts
  conv_rhs => rw [← List.map_id attempts]
  refine List.map_congr_left fun a ha => ?_
  unfold Table.setRow
  split
  · exact h a ha ‹_› now
  · rfl

theorem JobStep.runningRecorded {s t : JobState} {c : JobCall} (h : JobStep s c t)
    (hs : RunningRecorded s) : RunningRecorded t := by
  intro job hjob hrunning a ha hof now
  rcases h.mem hjob with ⟨hjob, hsame⟩ | ⟨new, -, rfl⟩ | ⟨old, hold, f, hmove, hattempts⟩
  · exact hs job hjob hrunning a ((hsame a (of_attempt_iff.1 hof).1).1 ha) hof now
  · cases hrunning
  · rw [hattempts] at ha
    cases hmove with
    | leased id hop hnext => cases hrunning
    | running hop => exact record_of_mem_recorded ha hof now
    | succeeded hop => cases hrunning
    | failed hop =>
      rcases failed_status_cases old with ⟨-, hfailed⟩ | ⟨-, hfailed⟩ <;>
        rw [JobRow.give_up, hfailed] at hrunning <;> cases hrunning
    | interrupted hop hstatus => cases hrunning

theorem runningRecorded_of_reachable {ok : JobState → JobCall → Prop} {s : JobState}
    (h : Reachable (Guarded JobStep ok) JobState.Initial s) : RunningRecorded s := by
  refine Reachable.invariant (I := RunningRecorded) ?_ ?_ h
  · intro s hs job hjob
    exact absurd hjob (hs.no_jobs job)
  · intro s c t hs hstep
    exact hstep.1.runningRecorded hs

/-- A job whose lease has not expired is no candidate. -/
theorem HoldsLease.not_candidate {s : JobState} {job : JobRow} {worker : String}
    {expires_at selected_at : Timestamp} (h : HoldsLease s job worker expires_at)
    (htime : selected_at ≤ expires_at) {job_type : Option JobType} {chain_id : Option Int} :
    job.is_candidate selected_at job_type chain_id = false := by
  have hqueued : (job.status == JobStatus.Queued) = false := by
    rcases h.status with hs | hs <;> rw [hs] <;> rfl
  have hexpired : job.lease_expired selected_at = false := by
    simp only [JobRow.lease_expired, h.lease_expires_at, Option.any_some]
    have hnot : ¬ expires_at < selected_at := not_lt.2 htime
    simp [hnot]
  simp [JobRow.is_candidate, hqueued, hexpired]

/-- One step under a lease that has not expired: the lease stays, and a step of
another worker leaves the row and its current attempt as they are. -/
theorem HoldsLease.step {s t : JobState} {c : JobCall} {job : JobRow} {worker : String}
    {expires_at : Timestamp} (hlease : HoldsLease s job worker expires_at)
    (hrecorded : RunningRecorded s) (h : JobStep s c t) (hown : OwnedCall s c)
    (htime : c.now ≤ expires_at) (hfinish : ¬ c.Finishes worker job.id) :
    (∃ job', job'.id = job.id ∧ HoldsLease t job' worker expires_at) ∧
      (c.worker ≠ worker → job ∈ t.db.jobs.rows ∧ ∀ a : JobAttemptRow, a.job_id = job.id →
        (a ∈ t.db.job_attempts.rows ↔ a ∈ s.db.job_attempts.rows)) := by
  rcases h.stays hlease.mem with ⟨hmem, hsame⟩ | ⟨new, hnew, f, hmove, hattempts⟩
  · exact ⟨⟨job, rfl, hmem, hlease.status, hlease.leased_by, hlease.lease_expires_at⟩,
      fun _ => ⟨hmem, hsame⟩⟩
  · -- a call that ends the attempt is the worker's own, and finishes the job
    have hends : ∀ {op}, c.op = op → op.target = some job.id → op ≠ .mark_running job.id →
        (op = .mark_succeeded job.id ∨
          (∃ ec em, op = .mark_failed job.id ec em) ∨
          ∃ em, op = .mark_interrupted_for_retry job.id em) → False := by
      intro op hop htarget hnot hkind
      rcases hown job worker expires_at hlease (hop ▸ htarget) htime with hw | ⟨hr, -⟩
      · exact hfinish ⟨hw, hop ▸ hkind⟩
      · exact hnot (hop ▸ hr)
    cases hmove with
    | leased id hop hnext =>
      have hin := h.1
      unfold JobCall.InTime at hin
      rw [hop] at hin
      have hcandidate := hnext.candidate
      rw [hlease.not_candidate (hin.2.trans htime)] at hcandidate
      cases hcandidate
    | running hop =>
      refine ⟨⟨job.run, rfl, hnew, Or.inr rfl, hlease.leased_by, hlease.lease_expires_at⟩, ?_⟩
      intro hother
      rcases hown job worker expires_at hlease (by rw [hop]; rfl) htime with hw | ⟨-, hrunning⟩
      · exact absurd hw hother
      · have hrun : job.run = job := by
          cases job
          cases hrunning
          rfl
        rw [hrun] at hnew
        refine ⟨hnew, fun a _ => ?_⟩
        rw [hattempts, recorded_attempts_of_running (hrecorded job hlease.mem hrunning)]
    | succeeded hop => exact (hends hop rfl (by simp) (Or.inl rfl)).elim
    | failed hop => exact (hends hop rfl (by simp) (Or.inr (Or.inl ⟨_, _, rfl⟩))).elim
    | interrupted hop hstatus => exact (hends hop rfl (by simp) (Or.inr (Or.inr ⟨_, rfl⟩))).elim

/-- From the moment a worker has a job leased until it finishes it or the lease
expires, a call of another worker leaves the job and its current attempt alone,
and leasing hands out other jobs, provided that the calls made on the job
meanwhile are the worker's. -/
theorem lease_is_exclusive {s t u : JobState} {l : List JobCall} {c : JobCall} {job : JobRow}
    {worker : String} {expires_at : Timestamp}
    (h : Reachable (Guarded JobStep OwnedCall) JobState.Initial s)
    (hlease : HoldsLease s job worker expires_at)
    (hrun : Run (Guarded JobStep fun s c => OwnedCall s c ∧ ¬ c.Finishes worker job.id) s l t)
    (hstep : JobStep t c u) (hown : OwnedCall t c) (hother : c.worker ≠ worker)
    (htime : c.now ≤ expires_at) :
    ∃ job', job'.id = job.id ∧ HoldsLease t job' worker expires_at ∧ job' ∈ u.db.jobs.rows ∧
      (∀ a : JobAttemptRow, a.of_attempt job'.id job'.attempts = true →
        (a ∈ u.db.job_attempts.rows ↔ a ∈ t.db.job_attempts.rows)) ∧
      ∀ lease_for job_type chain_id locked selected_at row db',
        c.op = .lease_next_candidate lease_for job_type chain_id locked selected_at →
        lease_next_candidate t.db c.worker lease_for job_type chain_id locked selected_at c.now
          = .ok (some row, db') → row.id ≠ job.id := by
  have hrecorded : RunningRecorded s := runningRecorded_of_reachable h
  -- until the lease expires no step of the run takes the job away
  have hwindow : RunningRecorded t ∧ (t.now ≤ expires_at →
      ∃ job', job'.id = job.id ∧ HoldsLease t job' worker expires_at) := by
    refine hrun.invariant (I := fun t => RunningRecorded t ∧ (t.now ≤ expires_at →
      ∃ job', job'.id = job.id ∧ HoldsLease t job' worker expires_at)) ?_
      ⟨hrecorded, fun _ => ⟨job, rfl, hlease⟩⟩
    rintro v d w ⟨hv, hlv⟩ ⟨hdstep, hdown, hdfinish⟩
    refine ⟨hdstep.runningRecorded hv, fun hw => ?_⟩
    rw [hdstep.2.1] at hw
    obtain ⟨job', hid, hjob'⟩ := hlv (hdstep.1.le.trans hw)
    obtain ⟨⟨job'', hid', hjob''⟩, -⟩ :=
      hjob'.step hv hdstep hdown hw (by rw [hid]; exact hdfinish)
    exact ⟨job'', hid'.trans hid, hjob''⟩
  obtain ⟨job', hid, hjob'⟩ := hwindow.2 (hstep.1.le.trans htime)
  obtain ⟨-, hsame⟩ := hjob'.step hwindow.1 hstep hown htime (fun hf => hother hf.1)
  obtain ⟨hmem, hattempts⟩ := hsame hother
  refine ⟨job', hid, hjob', hmem, fun a ha => hattempts a (of_attempt_iff.1 ha).1, ?_⟩
  intro lease_for job_type chain_id locked selected_at row db' hop hleased hrow
  rcases lease_next_candidate_spec hleased with ⟨hnone, -⟩ | ⟨candidate, hlock, hsome, -, -⟩
  · cases hnone
  · cases hsome
    have hnext := lock_next_candidate_spec hlock
    -- the leased candidate would be the held job, which is no candidate before its expiry
    have hsame_job : candidate = job' :=
      job_eq_of_id t.db hnext.mem hjob'.mem (Eq.trans hrow hid.symm)
    have hcandidate := hnext.candidate
    have hin := hstep.1
    unfold JobCall.InTime at hin
    rw [hop] at hin
    rw [hsame_job, hjob'.not_candidate (hin.2.trans htime)] at hcandidate
    cases hcandidate

/-- The reclaimed job as `b` has it. -/
def job_of_b : JobRow := (((ingest_job 5).to_row 0).lease "a" 10).lease "b" 30

theorem job_of_b_held : HoldsLease ((reclaimed 5).foldl JobState.exec idle) job_of_b "b" 30 :=
  ⟨by decide +kernel, Or.inl rfl, rfl, rfl⟩

/-- `b` runs the job it reclaimed, and `a` asks for a job before the lease of `b`
expires. -/
theorem lease_is_exclusive_reclaimed :
    let s := (reclaimed 5).foldl JobState.exec idle
    let t := s.exec { worker := "b", now := 21, op := .mark_running 0 }
    ∃ job', job'.id = job_of_b.id ∧ HoldsLease t job' "b" 30 ∧
      job' ∈ (t.exec (lease_at "a" 25)).db.jobs.rows ∧
      (∀ a : JobAttemptRow, a.of_attempt job'.id job'.attempts = true →
        (a ∈ (t.exec (lease_at "a" 25)).db.job_attempts.rows ↔ a ∈ t.db.job_attempts.rows)) ∧
      ∀ lease_for job_type chain_id locked selected_at row db',
        (lease_at "a" 25).op
          = .lease_next_candidate lease_for job_type chain_id locked selected_at →
        lease_next_candidate t.db "a" lease_for job_type chain_id locked selected_at 25
          = .ok (some row, db') → row.id ≠ job_of_b.id := by
  intro s t
  have htargetless : ∀ {s : JobState} {c : JobCall}, c.op.target = none → OwnedCall s c := by
    intro s c hc job worker expires_at _ htarget
    rw [hc] at htarget
    cases htarget
  have hreach : Reachable (Guarded JobStep OwnedCall) JobState.Initial s :=
    ⟨idle, reclaimed 5, idle_initial, Run.cons ⟨JobStep.exec (by decide), htargetless rfl⟩
      (Run.cons ⟨JobStep.exec (by decide), htargetless rfl⟩
        (Run.cons ⟨JobStep.exec (by decide), htargetless rfl⟩ Run.nil))⟩
  have honly : s.db.jobs.rows = [job_of_b] := by decide +kernel
  have howned : OwnedCall s { worker := "b", now := 21, op := .mark_running 0 } := by
    intro job worker expires_at hlease _ _
    have hjob : job = job_of_b := List.mem_singleton.1 (honly ▸ hlease.mem)
    have hworker := hlease.leased_by
    rw [hjob] at hworker
    exact Or.inl (Option.some.inj hworker)
  refine lease_is_exclusive hreach job_of_b_held
    (Run.cons ⟨JobStep.exec (by decide +kernel), howned, ?_⟩ Run.nil)
    (JobStep.exec (by decide +kernel)) (htargetless rfl) (by decide) (by decide)
  rintro ⟨-, h | ⟨_, _, h⟩ | ⟨_, h⟩⟩ <;> cases h

/-- `a`, whose lease expired, finishes the job `b` has leased. -/
theorem reclaimed_job_finished_by_late_call :
    ¬ ∀ s t c job worker expires_at, Reachable JobStep JobState.Initial s →
      HoldsLease s job worker expires_at → JobStep s c t → c.worker ≠ worker →
        c.now ≤ expires_at → job ∈ t.db.jobs.rows := by
  intro h
  have hreach : Reachable JobStep JobState.Initial ((reclaimed 5).foldl JobState.exec idle) :=
    ⟨idle, reclaimed 5, idle_initial, run_of_inTime (by decide +kernel)⟩
  have hmem := h _ _ { worker := "a", now := 21, op := .mark_succeeded 0 } job_of_b "b" 30 hreach
    job_of_b_held (JobStep.exec (by decide +kernel)) (by decide) (by decide)
  exact absurd hmem (by decide +kernel)

end EvmIndexer
