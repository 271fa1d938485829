/-
The attempt log of a job.

`job_attempts` is written by the same calls as `jobs`, and only through the counter of the
job row: a lease inserts the row of the attempt it begins, and every `mark_*` call records an
outcome in the row the job is at, whichever worker makes it. So a late call never reaches an
attempt that was superseded. It may change the outcome of the current one, but it changes
the job row with it, and what a lease supersedes was given up first (`AttemptLog.lease`).
-/
import EvmIndexer.JobLifecycle

set_option autoImplicit false

namespace EvmIndexer

open Sql Transition

/-! ## The log

The rows of a job are numbered by its counter, and the current attempt is the one the counter
is at. A queued job has given its current attempt up, which is why `Mirrors` lets the attempt
be failed or cancelled there; in every other status the two agree.
-/

/-- The status of the current attempt is that of the job; a queued job has given it up. -/
def Mirrors (job attempt : JobStatus) : Prop :=
  match job with
  | .Leased => attempt = .Leased
  | .Running => attempt = .Running
  | .Succeeded => attempt = .Succeeded
  | .DeadLettered => attempt = .DeadLettered
  | .Queued => attempt = .Failed ∨ attempt = .Cancelled
  | .Failed => False
  | .Cancelled => False

/-- The attempts of a job are numbered from 1 to its counter, each once. Those before the
current one have failed or were cancelled, the current one is what the job is, and one has
finished at some time where its status is terminal. A job without attempts is queued. -/
structure AttemptLog (attempts : List JobAttemptRow) (job : JobRow) : Prop where
  numbers : ∀ a ∈ attempts, a.job_id = job.id → 1 ≤ a.attempt_number ∧ a.attempt_number ≤ job.attempts
  each : ∀ n, 1 ≤ n → n ≤ job.attempts → ∃ a ∈ attempts, a.of_attempt job.id n = true
  once : ∀ a ∈ attempts, ∀ b ∈ attempts, a.job_id = job.id → b.job_id = job.id →
    a.attempt_number = b.attempt_number → a = b
  earlier : ∀ a ∈ attempts, a.job_id = job.id → a.attempt_number < job.attempts →
    a.status = .Failed ∨ a.status = .Cancelled
  latest : ∀ a ∈ attempts, a.of_attempt job.id job.attempts = true → Mirrors job.status a.status
  finished : ∀ a ∈ attempts, a.job_id = job.id →
    (a.finished_at ≠ none ↔ a.status.is_terminal = true)
  queued : job.attempts = 0 → job.status = .Queued
  nonneg : 0 ≤ job.attempts

/-- A lease that has expired stays expired. -/
theorem JobRow.lease_expired_mono {job : JobRow} {now later : Timestamp}
    (h : job.lease_expired now = true) (hle : now ≤ later) : job.lease_expired later = true := by
  unfold JobRow.lease_expired at h ⊢
  rw [Bool.and_eq_true, Option.any_eq_true] at h ⊢
  obtain ⟨hstatus, expires_at, hexpires, hlt⟩ := h
  refine ⟨hstatus, expires_at, hexpires, ?_⟩
  rw [decide_eq_true_iff] at hlt ⊢
  exact lt_of_lt_of_le hlt hle

section Log

variable {attempts attempts' : List JobAttemptRow} {job : JobRow}

/-- A log only reads the attempts of its job. -/
theorem AttemptLog.congr (h : AttemptLog attempts job)
    (hsame : ∀ a : JobAttemptRow, a.job_id = job.id → (a ∈ attempts' ↔ a ∈ attempts)) :
    AttemptLog attempts' job where
  numbers a ha hjob := h.numbers a ((hsame a hjob).1 ha) hjob
  each n hlo hhi := by
    obtain ⟨a, ha, hof⟩ := h.each n hlo hhi
    exact ⟨a, (hsame a (of_attempt_iff.1 hof).1).2 ha, hof⟩
  once a ha b hb hajob hbjob hnumber :=
    h.once a ((hsame a hajob).1 ha) b ((hsame b hbjob).1 hb) hajob hbjob hnumber
  earlier a ha hjob hlt := h.earlier a ((hsame a hjob).1 ha) hjob hlt
  latest a ha hof := h.latest a ((hsame a (of_attempt_iff.1 hof).1).1 ha) hof
  finished a ha hjob := h.finished a ((hsame a hjob).1 ha) hjob
  queued := h.queued
  nonneg := h.nonneg

/-- Recording an outcome in the current attempt, with the status the job gets. -/
theorem AttemptLog.record (h : AttemptLog attempts job) {job' : JobRow} {status : JobStatus}
    {error_class error_message : Option String} {now : Timestamp} (hid : job'.id = job.id)
    (hattempts : job'.attempts = job.attempts) (hmirrors : Mirrors job'.status status)
    (hqueued : job'.attempts = 0 → job'.status = .Queued) :
    AttemptLog (recorded_attempts job status error_class error_message now attempts) job' := by
  unfold recorded_attempts
  -- the write touches the current attempt, and no key
  generalize hf : Table.setRow (JobAttemptRow.of_attempt job.id job.attempts)
    (JobAttemptRow.record status error_class error_message now) = f
  have hjob_id : ∀ a, (f a).job_id = a.job_id := by
    rw [← hf]
    exact Table.setRow_keeps JobAttemptRow.job_id _
  have hnumber : ∀ a, (f a).attempt_number = a.attempt_number := by
    rw [← hf]
    exact Table.setRow_keeps JobAttemptRow.attempt_number _
  have hcurrent : ∀ a, a.of_attempt job.id job.attempts = true →
      f a = a.record status error_class error_message now := by
    intro a hof
    rw [← hf, Table.setRow, if_pos hof]
  have hothers : ∀ a, ¬ a.of_attempt job.id job.attempts = true → f a = a := by
    intro a hnot
    rw [← hf, Table.setRow, if_neg hnot]
  constructor
  case numbers =>
    intro b hb hbjob
    obtain ⟨a, ha, rfl⟩ := List.mem_map.1 hb
    rw [hnumber, hattempts]
    exact h.numbers a ha ((hjob_id a).symm.trans (hbjob.trans hid))
  case each =>
    intro n hlo hhi
    rw [hattempts] at hhi
    obtain ⟨a, ha, hof⟩ := h.each n hlo hhi
    refine ⟨f a, List.mem_map_of_mem ha, ?_⟩
    rw [of_attempt_iff, hjob_id, hnumber, hid]
    exact of_attempt_iff.1 hof
  case once =>
    intro b hb c hc hbjob hcjob hsame
    obtain ⟨a, ha, rfl⟩ := List.mem_map.1 hb
    obtain ⟨d, hd, rfl⟩ := List.mem_map.1 hc
    rw [hjob_id, hid] at hbjob hcjob
    rw [hnumber, hnumber] at hsame
    rw [h.once a ha d hd hbjob hcjob hsame]
  case earlier =>
    intro b hb hbjob hlt
    obtain ⟨a, ha, rfl⟩ := List.mem_map.1 hb
    rw [hjob_id, hid] at hbjob
    rw [hnumber, hattempts] at hlt
    have hnot : ¬ a.of_attempt job.id job.attempts = true := by
      intro hof
      have hcurrent := (of_attempt_iff.1 hof).2
      omega
    rw [hothers a hnot]
    exact h.earlier a ha hbjob hlt
  case latest =>
    intro b hb hof
    obtain ⟨a, ha, rfl⟩ := List.mem_map.1 hb
    rw [of_attempt_iff, hjob_id, hnumber, hid, hattempts, ← of_attempt_iff] at hof
    rw [hcurrent a hof]
    exact hmirrors
  case finished =>
    intro b hb hbjob
    obtain ⟨a, ha, rfl⟩ := List.mem_map.1 hb
    rw [hjob_id, hid] at hbjob
    by_cases hof : a.of_attempt job.id job.attempts = true
    · rw [hcurrent a hof]
      unfold JobAttemptRow.record
      by_cases hterminal : status.is_terminal = true
      · simp [hterminal]
      · simp [hterminal]
    · rw [hothers a hof]
      exact h.finished a ha hbjob
  case queued => exact hqueued
  case nonneg =>
    rw [hattempts]
    exact h.nonneg

/-- Leasing a queued job: its last attempt was given up, and a new one begins. -/
theorem AttemptLog.lease (h : AttemptLog attempts job) (hqueued : job.status = .Queued)
    (id : Uuid) (worker_id : String) (lease_expires_at : Timestamp) :
    AttemptLog (attempts ++ [(job.lease worker_id lease_expires_at).new_attempt id worker_id])
      (job.lease worker_id lease_expires_at) := by
  have hnew_of : ∀ n, ((job.lease worker_id lease_expires_at).new_attempt id worker_id).of_attempt job.id n
      = true ↔ job.attempts + 1 = n := by
    intro n
    rw [of_attempt_iff]
    exact and_iff_right rfl
  -- no attempt has the number of the new one yet
  have hfresh : ∀ a ∈ attempts, a.job_id = job.id → a.attempt_number ≠ job.attempts + 1 := by
    intro a ha hjob hnumber
    have hle := (h.numbers a ha hjob).2
    omega
  have hclosed : ∀ a ∈ attempts, a.job_id = job.id → a.status = .Failed ∨ a.status = .Cancelled := by
    intro a ha hjob
    have hle := (h.numbers a ha hjob).2
    by_cases hcurrent : a.attempt_number = job.attempts
    · have hmirrors := h.latest a ha (of_attempt_iff.2 ⟨hjob, hcurrent⟩)
      rw [hqueued] at hmirrors
      exact hmirrors
    · exact h.earlier a ha hjob (by omega)
  have hnonneg := h.nonneg
  constructor
  case numbers =>
    intro a ha hjob
    show 1 ≤ a.attempt_number ∧ a.attempt_number ≤ job.attempts + 1
    rcases List.mem_append.1 ha with ha | ha
    · have hbounds := h.numbers a ha hjob
      omega
    · rw [List.mem_singleton.1 ha]
      show 1 ≤ job.attempts + 1 ∧ job.attempts + 1 ≤ job.attempts + 1
      omega
  case each =>
    intro n hlo hhi
    have hhi : n ≤ job.attempts + 1 := hhi
    by_cases hlast : job.attempts + 1 = n
    · exact ⟨_, List.mem_append_right _ (List.mem_singleton_self _), (hnew_of n).2 hlast⟩
    · obtain ⟨a, ha, hof⟩ := h.each n hlo (by omega)
      exact ⟨a, List.mem_append_left _ ha, hof⟩
  case once =>
    intro a ha b hb hajob hbjob hsame
    rcases List.mem_append.1 ha with ha | ha <;> rcases List.mem_append.1 hb with hb | hb
    · exact h.once a ha b hb hajob hbjob hsame
    · rw [List.mem_singleton.1 hb] at hsame
      exact absurd hsame (hfresh a ha hajob)
    · rw [List.mem_singleton.1 ha] at hsame
      exact absurd hsame.symm (hfresh b hb hbjob)
    · rw [List.mem_singleton.1 ha, List.mem_singleton.1 hb]
  case earlier =>
    intro a ha hjob hlt
    rcases List.mem_append.1 ha with ha | ha
    · exact hclosed a ha hjob
    · rw [List.mem_singleton.1 ha] at hlt
      exact absurd hlt (lt_irrefl (job.attempts + 1))
  case latest =>
    intro a ha hof
    rcases List.mem_append.1 ha with ha | ha
    · obtain ⟨hjob, hnumber⟩ := of_attempt_iff.1 hof
      exact absurd hnumber (hfresh a ha hjob)
    · rw [List.mem_singleton.1 ha]
      exact rfl
  case finished =>
    intro a ha hjob
    rcases List.mem_append.1 ha with ha | ha
    · exact h.finished a ha hjob
    · rw [List.mem_singleton.1 ha]
      exact ⟨fun hnone => absurd rfl hnone, fun hterminal => nomatch hterminal⟩
  case queued =>
    intro hzero
    have hzero : job.attempts + 1 = 0 := hzero
    omega
  case nonneg =>
    show 0 ≤ job.attempts + 1
    omega

end Log

/-! ## Runs

A move of a job row either keeps the counter and records an outcome in the current attempt,
or raises it and inserts the next one. A lease takes a queued job, or one whose lease has
expired, and closes the attempt it supersedes before it begins its own. The clock does not go
back, so a lease that has expired is expired for every later call.
-/

/-- Every job has its log, and every attempt its job. -/
structure Audited (db : Db) : Prop where
  log : ∀ job ∈ db.jobs.rows, AttemptLog db.job_attempts.rows job
  job : ∀ a ∈ db.job_attempts.rows, ∃ job ∈ db.jobs.rows, job.id = a.job_id

/-- A job that was leased has an attempt. -/
theorem AttemptLog.attempts_pos {attempts : List JobAttemptRow} {job : JobRow}
    (h : AttemptLog attempts job) {a : JobAttemptRow} (ha : a ∈ attempts) (hjob : a.job_id = job.id) :
    1 ≤ job.attempts := by
  have hbounds := h.numbers a ha hjob
  omega

/-- What a move leaves is logged. A lease opens an attempt past all others, and every other
move writes the current one or none, so the cases are those of the move. -/
theorem RowStep.attemptLog {s : JobState} {c : JobCall} {old new : JobRow}
    {f : List JobAttemptRow → List JobAttemptRow} (hmove : RowStep s.db c old new f)
    (hlog : AttemptLog s.db.job_attempts.rows old) (htime : c.InTime s.now)
    (hlessee : CalledByLessee s c) : AttemptLog (f s.db.job_attempts.rows) new := by
  -- a call that names the job is made by a worker that leased it
  have hleased : c.op.target = some old.id → 1 ≤ old.attempts := by
    intro htarget
    obtain ⟨a, ha, hjob, -⟩ := hlessee old.id htarget
    exact hlog.attempts_pos ha hjob
  cases hmove with
  | @leased lease_for job_type chain_id locked selected_at id hop hnext =>
    show AttemptLog (cancelled_attempts old c.now s.db.job_attempts.rows ++ _) _
    unfold cancelled_attempts
    by_cases hexpired : old.lease_expired c.now = true
    · -- the attempt is cancelled first, which gives the job up
      rw [if_pos hexpired]
      have hcancelled : AttemptLog (recorded_attempts old .Cancelled (some "LeaseExpired")
          (some "job lease expired before worker completed") c.now s.db.job_attempts.rows)
          { old with status := .Queued } :=
        hlog.record rfl rfl (Or.inr rfl) fun _ => rfl
      exact hcancelled.lease rfl id c.worker (c.now + lease_for)
    · rw [if_neg hexpired]
      have hqueued : old.status = .Queued := by
        have hcandidate := hnext.candidate
        simp only [JobRow.is_candidate, Bool.and_eq_true, Bool.or_eq_true, beq_iff_eq] at hcandidate
        refine hcandidate.2.resolve_right fun hselected => hexpired ?_
        have hlater : selected_at ≤ c.now := by
          unfold JobCall.InTime at htime
          rw [hop] at htime
          exact htime.2
        exact JobRow.lease_expired_mono hselected hlater
      exact hlog.lease hqueued id c.worker (c.now + lease_for)
  | running hop =>
    have hpos := hleased (by rw [hop]; rfl)
    refine hlog.record rfl rfl rfl fun hzero => ?_
    have hzero : old.attempts = 0 := hzero
    omega
  | succeeded hop =>
    have hpos := hleased (by rw [hop]; rfl)
    refine hlog.record rfl rfl rfl fun hzero => ?_
    have hzero : old.attempts = 0 := hzero
    omega
  | failed hop =>
    have hpos := hleased (by rw [hop]; rfl)
    refine hlog.record rfl rfl ?_ fun hzero => ?_
    · show Mirrors old.failed_status _
      rcases failed_status_cases old with ⟨-, hfailed⟩ | ⟨-, hfailed⟩
      · rw [hfailed]
        exact rfl
      · rw [hfailed]
        exact Or.inl rfl
    · have hzero : old.attempts = 0 := hzero
      omega
  | interrupted hop hstatus =>
    exact hlog.record rfl rfl (Or.inr rfl) fun _ => rfl

/-- A new job has no attempts yet. -/
theorem AttemptLog.to_row {attempts : List JobAttemptRow} {new : NewJob} {now : Timestamp}
    (hnone : ∀ a ∈ attempts, a.job_id ≠ new.id) : AttemptLog attempts (new.to_row now) where
  numbers a ha hjob := absurd hjob (hnone a ha)
  each n hlo hhi := by
    have hhi : n ≤ 0 := hhi
    omega
  once a ha b _ hjob := absurd hjob (hnone a ha)
  earlier a ha hjob := absurd hjob (hnone a ha)
  latest a ha hof := absurd (of_attempt_iff.1 hof).1 (hnone a ha)
  finished a ha hjob := absurd hjob (hnone a ha)
  queued _ := rfl
  nonneg := le_refl 0

/-- What a call leaves is audited. The job the call is about makes a move, and the rows of
all other jobs and their attempts are the ones there were. -/
theorem Audited.change {s : JobState} {c : JobCall} {db' : Db} (h : Audited s.db)
    (hchange : JobChange c s.db db') (htime : c.InTime s.now) (hlessee : CalledByLessee s c) :
    Audited db' := by
  cases hchange with
  | same hjobs hattempts =>
    constructor
    · rw [hjobs, hattempts]
      exact h.log
    · rw [hjobs, hattempts]
      exact h.job
  | @enqueued new hop hjobs hattempts =>
    constructor
    · rw [hjobs, hattempts]
      intro job hjob
      rcases List.mem_append.1 hjob with hjob | hjob
      · exact h.log job hjob
      · rw [List.mem_singleton.1 hjob]
        refine AttemptLog.to_row fun a ha hid => ?_
        -- the job of such an attempt would have the id of the new one
        obtain ⟨other, hother, hother_id⟩ := h.job a ha
        have hunique := db'.jobs.unique
        rw [hjobs] at hunique
        exact (List.pairwise_append.1 hunique).2.2 other hother _ (List.mem_singleton_self _)
          (Or.inl (hother_id.trans hid))
    · rw [hjobs, hattempts]
      intro a ha
      obtain ⟨job, hjob, hid⟩ := h.job a ha
      exact ⟨job, List.mem_append_left _ hjob, hid⟩
  | @moved old new f hold hmove hjobs hattempts =>
    constructor
    · rw [hjobs, hattempts]
      intro job hjob
      rcases (mem_replaceRow hold).1 hjob with rfl | ⟨hjob, hne⟩
      · exact hmove.attemptLog (h.log old hold) htime hlessee
      · refine (h.log job hjob).congr fun a ha => hmove.attempts_other ?_ _
        intro hid
        exact hne (job_eq_of_id s.db hjob hold (ha.symm.trans hid))
    · rw [hjobs, hattempts]
      intro a ha
      by_cases hid : a.job_id = old.id
      · exact ⟨new, (mem_replaceRow hold).2 (Or.inl rfl), hmove.keeps.1.trans hid.symm⟩
      · obtain ⟨job, hjob, hjob_id⟩ := h.job a ((hmove.attempts_other hid _).1 ha)
        refine ⟨job, (mem_replaceRow hold).2 (Or.inr ⟨hjob, ?_⟩), hjob_id⟩
        rintro rfl
        exact hid hjob_id.symm

theorem Audited.of_sameRows {db db' : Db} (h : Audited db) (hsame : db.SameRows db') : Audited db' := by
  constructor
  · intro job hjob
    exact (h.log job (hsame.jobs.mem_iff.2 hjob)).congr fun _ _ => hsame.job_attempts.mem_iff.symm
  · intro a ha
    obtain ⟨job, hjob, hid⟩ := h.job a (hsame.job_attempts.mem_iff.2 ha)
    exact ⟨job, hsame.jobs.mem_iff.1 hjob, hid⟩

/-- Whatever workers call, each for jobs it leased, the attempts of every job are its
faithful log. -/
theorem attempt_log_is_faithful {s : JobState}
    (h : Reachable (Guarded JobStep CalledByLessee) JobState.Initial s) :
    ∀ job ∈ s.db.jobs.rows, AttemptLog s.db.job_attempts.rows job := by
  refine (Reachable.invariant (I := fun s : JobState => Audited s.db) ?_ ?_ h).log
  · intro s hs
    constructor
    · exact fun job hjob => absurd hjob (hs.no_jobs job)
    · rw [hs.2]
      exact fun a ha => absurd ha List.not_mem_nil
  · intro s c t hs hstep
    obtain ⟨hstep, hlessee⟩ := hstep
    obtain ⟨db', hchange, hsame⟩ := hstep.change
    exact (hs.change hchange hstep.1 hlessee).of_sameRows hsame

/-- `b` reclaims the job of `a` and finishes it; then `a` marks it running again and fails. -/
theorem attempt_log_is_faithful_restarted :
    let calls := finished_by_b ++ [{ worker := "a", now := 22, op := .mark_running 0 },
      { worker := "a", now := 23, op := .mark_failed 0 "Worker" "rpc error" }]
    ∀ job ∈ (calls.foldl JobState.exec idle).db.jobs.rows,
      AttemptLog (calls.foldl JobState.exec idle).db.job_attempts.rows job :=
  attempt_log_is_faithful ⟨idle, _, idle_initial, run_of_called_by_lessee (by decide +kernel)⟩

end EvmIndexer
