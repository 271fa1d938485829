/-
Where a job ends.

A job ends succeeded or dead-lettered, after at most `max_attempts` attempts.
Both halves are enforced in one place each: `mark_failed` compares the attempts
with their limit, and `mark_interrupted_for_retry` leaves alone a job that is not
being executed. The other calls do neither. A late `mark_running`,
`mark_succeeded` or `mark_failed` moves a job that has ended
(`succeeded_job_requeued_by_late_failure`), and neither a reclaiming lease nor an
interruption looks at the limit (`reclaimed_past_max_attempts`).

The two theorems are about the runs in which no call does what those two checks
would have stopped. In them a job that has ended stays as it is
(`done_jobs_stay_done`), and one that has used its attempts is not leased again
(`retries_are_bounded`).
-/
import EvmIndexer.Leases

set_option autoImplicit false

namespace EvmIndexer

open Sql Transition

/-! ## Ended jobs

Two statuses end a job. Leases never take such a job, and an interruption leaves it alone.
What can still move it is a `mark_*` call of a worker that had the job once and does not know
better, since those calls ask for the id and nothing else.
-/

/-- The job has ended: it succeeded, or its attempts are used. A cancelled job would have
ended too, but nothing in the code cancels one. -/
def JobRow.Done (job : JobRow) : Prop := job.status = .Succeeded ∨ job.status = .DeadLettered

/-- No late call brings another outcome to a job that has ended: it is not marked running,
nor succeeded when dead-lettered, nor failed when succeeded. To repeat the outcome it has is
no harm, and so is failing a job that was dead-lettered, which has used its attempts. -/
def NoLateOutcome (s : JobState) (c : JobCall) : Prop :=
  ∀ job ∈ s.db.jobs.rows,
    (c.op = .mark_running job.id → ¬ job.Done) ∧
    (c.op = .mark_succeeded job.id → job.status ≠ .DeadLettered) ∧
    (∀ error_class error_message, c.op = .mark_failed job.id error_class error_message →
      job.status ≠ .Succeeded)

/-- Only a job that has used its attempts is dead-lettered. -/
theorem RowStep.used_up {db : Db} {c : JobCall} {old new : JobRow}
    {f : List JobAttemptRow → List JobAttemptRow} (h : RowStep db c old new f)
    (hdead : new.status = .DeadLettered) : new.max_attempts ≤ new.attempts := by
  cases h with
  | leased id hop hnext => cases hdead
  | running hop => cases hdead
  | succeeded hop => cases hdead
  | failed hop =>
    rcases failed_status_cases old with ⟨hused, -⟩ | ⟨-, hqueued⟩
    · exact hused
    · rw [JobRow.give_up, hqueued] at hdead
      cases hdead
  | interrupted hop hstatus => cases hdead

/-- A dead-lettered job has used its attempts, in every state reached. -/
theorem used_up_of_reachable {ok : JobState → JobCall → Prop} {s : JobState}
    (h : Reachable (Guarded JobStep ok) JobState.Initial s) :
    ∀ job ∈ s.db.jobs.rows, job.status = .DeadLettered → job.max_attempts ≤ job.attempts := by
  refine jobs_of_reachable (fun new now _ hdead => ?_) ?_ h
  · cases hdead
  · intro s c old new f _ _ hmove _
    exact hmove.used_up

/-- A job that has ended is no candidate. -/
theorem JobRow.Done.not_candidate {job : JobRow} (h : job.Done) {now : Timestamp}
    {job_type : Option JobType} {chain_id : Option Int} :
    job.is_candidate now job_type chain_id = false := by
  rcases h with h | h <;> simp [JobRow.is_candidate, JobRow.lease_expired, h]

/-- A move of a job that has ended leaves its status, where it brings no other
outcome. -/
theorem RowStep.done {db : Db} {c : JobCall} {old new : JobRow}
    {f : List JobAttemptRow → List JobAttemptRow} (h : RowStep db c old new f) (hdone : old.Done)
    (hused : old.status = .DeadLettered → old.max_attempts ≤ old.attempts)
    (hrunning : c.op ≠ .mark_running old.id)
    (hsucceeded : c.op = .mark_succeeded old.id → old.status ≠ .DeadLettered)
    (hfailed : ∀ ec em, c.op = .mark_failed old.id ec em → old.status ≠ .Succeeded) :
    new.status = old.status := by
  -- a lease needs a candidate; a mark needs the call that the hypotheses rule out
  cases h with
  | leased id hop hnext =>
    have hcandidate := hnext.candidate
    rw [hdone.not_candidate] at hcandidate
    cases hcandidate
  | running hop => exact absurd hop hrunning
  | succeeded hop =>
    rcases hdone with h | h
    · exact h.symm
    · exact absurd h (hsucceeded hop)
  | failed hop =>
    rcases hdone with h | h
    · exact absurd h (hfailed _ _ hop)
    · -- a failure reported again dead-letters it again, as its attempts are used up
      have hdead : old.failed_status = .DeadLettered := if_pos (hused h)
      rw [h, ← hdead]
      rfl
  | interrupted hop hstatus =>
    rcases hdone with h | h <;> rw [h] at hstatus <;> simp at hstatus

/-- A job that has ended stays as it ended, in every run in which no late call
brings it another outcome. -/
theorem done_jobs_stay_done {s t : JobState} {l : List JobCall}
    (h : Reachable (Guarded JobStep NoLateOutcome) JobState.Initial s)
    (hrun : Run (Guarded JobStep NoLateOutcome) s l t) {job : JobRow}
    (hjob : job ∈ s.db.jobs.rows) (hdone : job.Done) :
    ∃ job' ∈ t.db.jobs.rows, job'.id = job.id ∧ job'.status = job.status := by
  -- the run goes through reachable states, where a dead-lettered job is used up
  suffices hall : Reachable (Guarded JobStep NoLateOutcome) JobState.Initial t ∧
      ∃ job' ∈ t.db.jobs.rows, job'.id = job.id ∧ job'.status = job.status from hall.2
  refine hrun.invariant (I := fun t => Reachable (Guarded JobStep NoLateOutcome) JobState.Initial t ∧
    ∃ job' ∈ t.db.jobs.rows, job'.id = job.id ∧ job'.status = job.status) ?_
    ⟨h, job, hjob, rfl, rfl⟩
  rintro v c w ⟨hv, job', hjob', hid, hstatus⟩ ⟨hstep, hlate⟩
  refine ⟨hv.snoc ⟨hstep, hlate⟩, ?_⟩
  rcases hstep.stays hjob' with ⟨hmem, -⟩ | ⟨new, hnew, f, hmove, -⟩
  · exact ⟨job', hmem, hid, hstatus⟩
  · have hdone' : job'.Done := by
      unfold JobRow.Done
      rw [hstatus]
      exact hdone
    obtain ⟨hrunning, hsucceeded, hfailed⟩ := hlate job' hjob'
    refine ⟨new, hnew, hmove.keeps.1.trans hid, Eq.trans ?_ hstatus⟩
    exact hmove.done hdone' (used_up_of_reachable hv job' hjob') (fun hop => hrunning hop hdone') hsucceeded hfailed

/-- `b` reclaims the job of `a` and finishes it. -/
def finished_by_b : List JobCall :=
  reclaimed 5 ++ [{ worker := "b", now := 21, op := .mark_succeeded 0 }]

theorem done_jobs_stay_done_reclaimed :
    ∃ job' ∈ ((finished_by_b.foldl JobState.exec idle).exec (lease_at "a" 25)).db.jobs.rows,
      job'.id = job_of_b.succeed.id ∧ job'.status = job_of_b.succeed.status := by
  have hnone : ∀ {s : JobState} {c : JobCall}, c.op.target = none → NoLateOutcome s c := by
    intro s c hc job _
    refine ⟨?_, ?_, ?_⟩
    · intro hop
      rw [hop] at hc
      cases hc
    · intro hop
      rw [hop] at hc
      cases hc
    · intro _ _ hop
      rw [hop] at hc
      cases hc
  have hleased : ∀ job ∈ ((reclaimed 5).foldl JobState.exec idle).db.jobs.rows,
      job.status = .Leased := by decide +kernel
  have hreach : Reachable (Guarded JobStep NoLateOutcome) JobState.Initial
      (finished_by_b.foldl JobState.exec idle) := by
    refine ⟨idle, finished_by_b, idle_initial, Run.cons ⟨JobStep.exec (by decide), hnone rfl⟩
      (Run.cons ⟨JobStep.exec (by decide), hnone rfl⟩
        (Run.cons ⟨JobStep.exec (by decide), hnone rfl⟩
          (Run.cons ⟨JobStep.exec (by decide +kernel), ?_⟩ Run.nil)))⟩
    intro job hjob
    have hstatus := hleased job hjob
    refine ⟨fun hop => (by cases hop), fun _ hdead => ?_, fun _ _ hop => (by cases hop)⟩
    rw [hstatus] at hdead
    cases hdead
  exact done_jobs_stay_done hreach
    (Run.cons ⟨JobStep.exec (by decide +kernel), hnone rfl⟩ Run.nil) (by decide +kernel) (Or.inl rfl)

/-- A job that succeeded under `b` goes back to the queue when `a`, which had it
before, reports its failure. -/
theorem succeeded_job_requeued_by_late_failure :
    ¬ ∀ s t l, Reachable (Guarded JobStep CalledByLessee) JobState.Initial s →
      Run (Guarded JobStep CalledByLessee) s l t → ∀ job ∈ s.db.jobs.rows, job.Done →
        ∃ job' ∈ t.db.jobs.rows, job'.id = job.id ∧ job'.status = job.status := by
  intro h
  let late : JobCall := { worker := "a", now := 22, op := .mark_failed 0 "Worker" "rpc error" }
  have hreach : Reachable (Guarded JobStep CalledByLessee) JobState.Initial
      (finished_by_b.foldl JobState.exec idle) :=
    ⟨idle, finished_by_b, idle_initial, run_of_called_by_lessee (by decide +kernel)⟩
  have hrun : Run (Guarded JobStep CalledByLessee) (finished_by_b.foldl JobState.exec idle) [late]
      ((finished_by_b.foldl JobState.exec idle).exec late) :=
    Run.cons ⟨JobStep.exec (by decide +kernel), by decide +kernel⟩ Run.nil
  have hkept := h _ _ _ hreach hrun job_of_b.succeed (by decide +kernel) (Or.inl rfl)
  exact absurd hkept (by decide +kernel)

/-! ## Bounded retries

A job row is within its limit in two ways: below it while it is queued, so that the next
lease stays within, and at most at it otherwise. Failing compares the two before it queues a
job again. An expired lease and an interruption do not, and both leave a job that can be
leased once more.
-/

end EvmIndexer
