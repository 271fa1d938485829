/-
The reorg events that are linked to a replay job.

What `enqueue_replay` looks at is the status a job had when it was enqueued. A job that is
not terminal may have orphaned its range long before the event was recorded, and one that was
inserted a moment ago may have succeeded by the time the link is written. Neither will look
at the chain again, and the event is marked as handled by a replay that never saw it.

A linked event is safe in two ways: a replay of its job that began after it was recorded has
come to its end, or the job has not succeeded and all that is under way for it began after the
event (`RepairService.InTime`). Every step keeps that, as only an execution that has replayed
its range makes a replay job succeed. So everything rests on the moment a link is written.
-/
import EvmIndexer.Repairs

set_option autoImplicit false

namespace EvmIndexer

open Sql Transition

/-! ## Replays of linked events

Whether an event was repaired is a question about history: did an execution of its job orphan
the range after the event was recorded, and come to its end. The answer is not in the tables,
so the steps are numbered and the numbers are kept. `InTime` is the invariant, and it has one
disjunct for what has happened and one for what still can.
-/

/-- An execution of the job has replayed its range, and began after the event was recorded. -/
def RepairService.Repaired (s : RepairService) (i : Nat) (job_id : Uuid) : Prop :=
  ∃ replay ∈ s.replays, replay.job_id = job_id ∧ s.recorded_at i < replay.began_at

/-- Every event that is linked to a succeeded job was repaired by it: the job orphaned the
range after the event was recorded. What it ingested then is the chain as it was at that
time. -/
def RepairService.LinkedEventsRepaired (s : RepairService) : Prop :=
  ∀ i event, s.reorg_events[i]? = some event → ∀ job ∈ s.indexer.db.jobs.rows,
    event.replay_job_id = some job.id → job.status = .Succeeded → s.Repaired i job.id

/-- The execution has orphaned the range of a replay job, and has still to finish it. -/
def Execution.replaying (e : Execution) : Bool :=
  e.job.job_type == .ReplayRange &&
    match e.phase with
    | .Orphaned .. => true
    | .Executed => true
    | _ => false

/-- The job has not succeeded, and what is under way for it began after the event was
recorded. -/
def RepairService.AwaitsReplay (s : RepairService) (i : Nat) (job_id : Uuid) : Prop :=
  (∀ job ∈ s.indexer.db.jobs.rows, job.id = job_id → job.status ≠ .Succeeded) ∧
    ∀ slot e, s.indexer.executions slot = some e → e.replaying = true → e.job.id = job_id →
      s.recorded_at i < s.began_at slot

/-- The event was or will be repaired if the job succeeds. -/
def RepairService.InTime (s : RepairService) (i : Nat) (job_id : Uuid) : Prop :=
  s.Repaired i job_id ∨ s.AwaitsReplay i job_id

/-- A link is written in time for each event it reaches: a replay of the job that began after
the event was recorded has come to its end, or the job has not succeeded and whatever is
under way for it began after the event. Of steps that write no link nothing is asked. -/
def LinksInTime (s : RepairService) : RepairOp → Prop
  | .link_reorg_events_to_replay_job command =>
    ∀ link, s.linking command = some link → ∀ i event, s.reorg_events[i]? = some event →
      link.matches_event event = true → s.InTime i link.replay_job_id
  | _ => True

/-! ## Replays across a step

A replay begins with the step that orphans the range, and ends with the one that ingests it.
The step that makes a replay job succeed is one of an execution that has come to that end. An
event of before is therefore repaired, unless the execution began earlier.
-/

section Replaying

variable {s t : Indexer} {op : IndexerOp} {slot : Nat} {e : Execution}

theorem replaying_iff : e.replaying = true ↔ e.job.job_type = .ReplayRange ∧
    ((∃ source observed, e.phase = .Orphaned source observed) ∨ e.phase = .Executed) := by
  unfold Execution.replaying
  cases hphase : e.phase <;> simp

/-- A replay that is under way after a step was under way before it, unless the step is the
one that orphans its range; and it comes to its end by the step that ingests the range. -/
theorem Effect.replaying (h : Effect s t op) (hs : s.WellFormed) (he : t.executions slot = some e)
    (hreplaying : e.replaying = true) :
    (s.executions slot = some e ∧ op ≠ .orphan_source_range slot) ∨
      (op = .orphan_source_range slot ∧ e.phase ≠ .Executed) ∨
      (op = .ingest_source_range slot ∧
        ∃ old, s.executions slot = some old ∧ old.replaying = true ∧ e.job = old.job) := by
  obtain ⟨htype, hphase⟩ := replaying_iff.1 hreplaying
  cases h with
  | idle hop _ _ _ hexecutions =>
    rw [hexecutions] at he
    refine Or.inl ⟨he, ?_⟩
    rintro rfl
    cases hop
  | ensured _ _ _ hexecutions | enqueued _ _ _ _ _ hexecutions =>
    rw [hexecutions] at he
    exact Or.inl ⟨he, nofun⟩
  | leased _ _ _ _ _ _ hexecutions | running _ _ _ _ _ _ hexecutions =>
    rw [hexecutions] at he
    rcases update_eq_some he with ⟨-, hnew⟩ | ⟨-, hold⟩
    · cases hnew
      simp at hphase
    · exact Or.inl ⟨hold, nofun⟩
  | succeeded _ _ _ _ _ _ hexecutions =>
    rw [hexecutions] at he
    rcases update_eq_some he with ⟨-, hnew⟩ | ⟨-, hold⟩
    · cases hnew
    · exact Or.inl ⟨hold, nofun⟩
  | gave_up hop _ _ _ _ _ _ hexecutions =>
    rw [hexecutions] at he
    rcases update_eq_some he with ⟨-, hnew⟩ | ⟨-, hold⟩
    · cases hnew
    · refine Or.inl ⟨hold, ?_⟩
      rintro rfl
      rcases hop with ⟨message, now, hop⟩ | ⟨now, hop⟩ <;> cases hop
  | dropped _ hop _ _ _ hexecutions =>
    rw [hexecutions] at he
    rcases update_eq_some he with ⟨-, hnew⟩ | ⟨-, hold⟩
    · cases hnew
    · refine Or.inl ⟨hold, ?_⟩
      rintro rfl
      rcases hop with hop | ⟨now, hop⟩ <;> cases hop
  | moved hop hslot hstep _ _ _ hexecutions =>
    rw [hexecutions] at he
    rcases update_eq_some he with ⟨rfl, hnew⟩ | ⟨hne, hold⟩
    · cases hnew
      cases hstep with
      | loaded | targeted => simp at hphase
      | orphaned =>
        cases hop
        exact Or.inr (Or.inl ⟨rfl, nofun⟩)
      | untargeted hbefore =>
        -- only an ingest job looks for a target
        have hingest := hs.ingesting slot _ hslot (by rw [hbefore]; rfl)
        rw [hingest] at htype
        cases htype
    · refine Or.inl ⟨hold, ?_⟩
      rintro rfl
      exact hne (Option.some_inj.1 hop)
  | ingested hslot hstep _ _ _ hexecutions =>
    rw [hexecutions] at he
    rcases update_eq_some he with ⟨rfl, hnew⟩ | ⟨-, hold⟩
    · cases hnew
      cases hstep with
      | ingested => simp at hphase
      | replayed hbefore hreplay =>
        refine Or.inr (Or.inr ⟨rfl, _, hslot, ?_, rfl⟩)
        exact replaying_iff.2 ⟨hreplay, Or.inl ⟨_, _, hbefore⟩⟩
    · exact Or.inl ⟨hold, nofun⟩
  | advanced hslot hbefore _ _ _ hexecutions =>
    rw [hexecutions] at he
    rcases update_eq_some he with ⟨rfl, hnew⟩ | ⟨-, hold⟩
    · cases hnew
      have hingest := hs.ingesting slot _ hslot (by rw [hbefore]; rfl)
      rw [hingest] at htype
      cases htype
    · exact Or.inl ⟨hold, nofun⟩

/-- A replay job stays one. -/
theorem Effect.hasReplay (h : Effect s t op) {job_id : Uuid} (hid : s.HasReplay job_id) :
    t.HasReplay job_id := by
  obtain ⟨job, hjob, rfl, htype⟩ := hid
  obtain ⟨new, hnew, hsame⟩ := h.job_stays hjob
  exact ⟨new, hnew, hsame.id, hsame.job_type.trans htype⟩

/-- An execution of a replay job holds it as one. -/
theorem Indexer.WellFormed.replay_of_id (hs : s.WellFormed) (he : s.executions slot = some e)
    (hid : s.HasReplay e.job.id) : e.job.job_type = .ReplayRange := by
  obtain ⟨job, hjob, hjob_id, htype⟩ := hid
  obtain ⟨row, hrow, hsame⟩ := hs.stored slot e he
  rw [job_eq_of_id s.db hjob hrow (hjob_id.trans hsame.id.symm), hsame.job_type] at htype
  exact htype

end Replaying

/-- What holds of the history in every state of the service. -/
structure RepairService.Tracked (s : RepairService) : Prop where
  indexer : s.indexer.WellFormed
  /-- Every event was recorded at an earlier step. -/
  recorded : ∀ i, i < s.reorg_events.length → s.recorded_at i < s.clock
  /-- A replay that has come to its end is among those that were made. -/
  replayed : ∀ slot e, s.indexer.executions slot = some e → e.replaying = true →
    e.phase = .Executed → { job_id := e.job.id, began_at := s.began_at slot : Replay } ∈ s.replays
  /-- What is to be linked is linked to a replay job. -/
  linking : ∀ command link, s.linking command = some link → s.indexer.HasReplay link.replay_job_id
  /-- What was linked was linked to a replay job. -/
  linked : ∀ event ∈ s.reorg_events, ∀ job_id, event.replay_job_id = some job_id →
    s.indexer.HasReplay job_id

section Tracking

variable {s t : RepairService} {op : IndexerOp}

/-- No step forgets a replay. -/
theorem RepairService.mem_replays_after (s : RepairService) (op : IndexerOp) {replay : Replay}
    (h : replay ∈ s.replays) : replay ∈ s.replays_after op := by
  unfold RepairService.replays_after
  split
  · exact List.mem_append_right _ h
  · exact h

/-- An execution begins at one step and no other. -/
theorem RepairService.began_after_of_ne (s : RepairService) {slot : Nat}
    (h : op ≠ .orphan_source_range slot) : s.began_after op slot = s.began_at slot := by
  unfold RepairService.began_after
  split
  · rename_i other
    refine Function.update_of_ne ?_ _ _
    rintro rfl
    exact h rfl
  · rfl

theorem RepairService.began_after_self (s : RepairService) (slot : Nat) :
    s.began_after (.orphan_source_range slot) slot = s.clock := Function.update_self _ _ _

theorem RepairService.began_after_ingest (s : RepairService) (slot : Nat) :
    s.began_after (.ingest_source_range slot) = s.began_at := rfl

/-- What was repaired stays repaired. -/
theorem RepairService.Moved.repaired (h : s.Moved t op) {i : Nat} (hi : i < s.reorg_events.length)
    {job_id : Uuid} (hrepaired : s.Repaired i job_id) : t.Repaired i job_id := by
  obtain ⟨replay, hreplay, hid, hbegan⟩ := hrepaired
  refine ⟨replay, ?_, hid, ?_⟩
  · rw [h.replays]
    exact s.mem_replays_after op hreplay
  · rw [h.recorded_at i hi]
    exact hbegan

/-- Where the replay of an execution comes to its end, it is noted. -/
theorem RepairService.Moved.replayed (h : s.Moved t op) (hs : s.Tracked) (slot : Nat)
    (e : Execution) (he : t.indexer.executions slot = some e) (hreplaying : e.replaying = true)
    (hphase : e.phase = .Executed) :
    { job_id := e.job.id, began_at := t.began_at slot : Replay } ∈ t.replays := by
  rw [h.began_at, h.replays]
  rcases h.effect.replaying hs.indexer he hreplaying with ⟨hold, hne⟩ | ⟨-, hnot⟩ |
    ⟨rfl, old, hold, hold_replaying, hjob⟩
  · rw [s.began_after_of_ne hne]
    exact s.mem_replays_after op (hs.replayed slot e hold hreplaying hphase)
  · exact absurd hphase hnot
  · rw [s.began_after_ingest, hjob]
    unfold RepairService.replays_after
    simp only
    rw [hold]
    refine List.mem_append_left _ (List.mem_map.2 ⟨old, ?_, rfl⟩)
    simpa using (replaying_iff.1 hold_replaying).1

/-- A job that has not succeeded is made to succeed by an execution that has replayed it;
and what begins now begins after everything that was recorded. -/
theorem RepairService.Moved.inTime (h : s.Moved t op) (hs : s.Tracked) {i : Nat}
    (hi : i < s.reorg_events.length) {job_id : Uuid} (hreplay : s.indexer.HasReplay job_id)
    (hin : s.InTime i job_id) : t.InTime i job_id := by
  rcases hin with hrepaired | ⟨hwaits, hunder_way⟩
  · exact Or.inl (h.repaired hi hrepaired)
  by_cases hdone : ∃ job ∈ t.indexer.db.jobs.rows, job.id = job_id ∧ job.status = .Succeeded
  · -- it has just succeeded, so its execution has come to its end and was under way in time
    obtain ⟨job, hjob, hid, hstatus⟩ := hdone
    rcases h.effect.job_mem hjob with hold | ⟨_, _, _, _, _, _, _, -, rfl⟩ |
      ⟨old, -, hsame, hexecuted⟩
    · exact absurd hstatus (hwaits job hold hid)
    · cases hstatus
    · obtain ⟨slot, e, he, hphase, hold⟩ := hexecuted hstatus
      have he_id : e.job.id = job_id := hold.symm.trans (hsame.id.symm.trans hid)
      have htype := hs.indexer.replay_of_id he (he_id.symm ▸ hreplay)
      have hreplaying : e.replaying = true := replaying_iff.2 ⟨htype, Or.inr hphase⟩
      refine Or.inl (h.repaired hi ⟨_, hs.replayed slot e he hreplaying hphase, he_id, ?_⟩)
      exact hunder_way slot e he hreplaying he_id
  · refine Or.inr ⟨fun job hjob hid hstatus => hdone ⟨job, hjob, hid, hstatus⟩, ?_⟩
    intro slot e he hreplaying hid
    rw [h.recorded_at i hi, h.began_at]
    rcases h.effect.replaying hs.indexer he hreplaying with ⟨hold, hne⟩ | ⟨rfl, -⟩ |
      ⟨rfl, old, hold, hold_replaying, hjob⟩
    · rw [s.began_after_of_ne hne]
      exact hunder_way slot e hold hreplaying hid
    · rw [s.began_after_self]
      exact hs.recorded i hi
    · rw [s.began_after_ingest]
      exact hunder_way slot old hold hold_replaying (hjob ▸ hid)

end Tracking

/-- An event after a link was there before it, and was linked where the link reaches it. -/
theorem linked_event {reorg_events : List ReorgEventInsert} {link : ReplayLink} {i : Nat}
    {event : ReorgEventInsert}
    (h : (link_reorg_events_to_replay_job reorg_events link).2[i]? = some event) :
    ∃ old, reorg_events[i]? = some old ∧ ((link.matches_event old = true ∧
      event.replay_job_id = some link.replay_job_id) ∨ event = old) := by
  unfold link_reorg_events_to_replay_job at h
  rw [List.getElem?_map, Option.map_eq_some_iff] at h
  obtain ⟨old, hold, rfl⟩ := h
  refine ⟨old, hold, ?_⟩
  unfold Table.setRow
  by_cases hmatches : link.matches_event old = true
  · rw [if_pos hmatches]
    exact Or.inl ⟨hmatches, rfl⟩
  · rw [if_neg hmatches]
    exact Or.inr rfl

section Invariant

variable {s t : RepairService} {op : RepairOp}

theorem RepairService.Initial.tracked (h : s.Initial) : s.Tracked := by
  constructor
  · exact h.indexer.wellFormed
  · simp [h.reorg_events]
  · simp [h.indexer.2.1]
  · simp [h.linking]
  · simp [h.reorg_events]

theorem RepairEffect.tracked (h : RepairEffect s t op) (hs : s.Tracked) : t.Tracked := by
  obtain ⟨_, hmoved⟩ := h.moved
  -- the clock has moved past every event recorded before
  have hearlier : ∀ i, i < s.reorg_events.length → t.recorded_at i < t.clock := by
    intro i hi
    rw [hmoved.recorded_at i hi, hmoved.clock]
    exact Nat.lt_succ_of_lt (hs.recorded i hi)
  -- no step removes a replay job
  have hlinking : ∀ command link, s.linking command = some link →
      t.indexer.HasReplay link.replay_job_id :=
    fun command link hlink => hmoved.effect.hasReplay (hs.linking command link hlink)
  have hlinked : ∀ event ∈ s.reorg_events, ∀ job_id, event.replay_job_id = some job_id →
      t.indexer.HasReplay job_id :=
    fun event hevent job_id hid => hmoved.effect.hasReplay (hs.linked event hevent job_id hid)
  have hindexer := hmoved.effect.wellFormed hs.indexer
  have hreplayed := hmoved.replayed hs
  clear hmoved
  cases h with
  | indexer _ hevents hcommands =>
    refine ⟨hindexer, ?_, hreplayed, ?_, ?_⟩
    · rwa [hevents]
    · rwa [hcommands]
    · rwa [hevents]
  | recorded event hmoved hunlinked hevents hrecorded hcommands =>
    refine ⟨hindexer, fun i hi => ?_, hreplayed, ?_, fun new hnew job_id hid => ?_⟩
    · rw [hevents, List.length_append, List.length_singleton] at hi
      by_cases hlast : i < s.reorg_events.length
      · exact hearlier i hlast
      · -- the new event is recorded now
        have hi : i = s.reorg_events.length := by omega
        rw [hi, hrecorded, hmoved.clock]
        exact Nat.lt_succ_self _
    · rwa [hcommands]
    · rw [hevents] at hnew
      rcases List.mem_append.1 hnew with hold | hnew
      · exact hlinked new hold job_id hid
      · -- and no job is written into it yet
        rw [List.mem_singleton.1 hnew, hunlinked] at hid
        cases hid
  | @enqueued _ command _ _ _ _ _ _ link _ hreplay hevents hcommands =>
    refine ⟨hindexer, ?_, hreplayed, fun other l hl => ?_, ?_⟩
    · rwa [hevents]
    · rw [hcommands] at hl
      by_cases hother : other = command
      · rw [hother, Function.update_self] at hl
        exact hreplay l hl
      · rw [Function.update_of_ne hother] at hl
        exact hlinking other l hl
    · rwa [hevents]
  | @linked _ command link hlink _ hevents hcommands =>
    refine ⟨hindexer, fun i hi => hearlier i ?_, hreplayed, fun other l hl => ?_,
      fun event hevent job_id hid => ?_⟩
    · rw [hevents] at hi
      unfold link_reorg_events_to_replay_job at hi
      rwa [List.length_map] at hi
    · rw [hcommands] at hl
      by_cases hother : other = command
      · rw [hother, Function.update_self] at hl
        cases hl
      · rw [Function.update_of_ne hother] at hl
        exact hlinking other l hl
    · rw [hevents] at hevent
      obtain ⟨i, hi⟩ := List.mem_iff_getElem?.1 hevent
      -- a linked event names the job of the command, another keeps its own
      obtain ⟨old, hold, ⟨-, hnew⟩ | rfl⟩ := linked_event hi
      · rw [hnew] at hid
        rw [← Option.some_inj.1 hid]
        exact hlinking command link hlink
      · exact hlinked event (List.mem_iff_getElem?.2 ⟨i, hold⟩) job_id hid

/-- Every linked event was or will be repaired if its job succeeds. -/
def RepairService.LinkedInTime (s : RepairService) : Prop :=
  ∀ i event, s.reorg_events[i]? = some event → ∀ job_id, event.replay_job_id = some job_id →
    s.InTime i job_id

/-- A link written in time leaves every linked event in time, and so does any other step. -/
theorem RepairEffect.linkedInTime (h : RepairEffect s t op) (hs : s.Tracked)
    (hok : LinksInTime s op) (hin : s.LinkedInTime) : t.LinkedInTime := by
  have hkeeps : ∀ i event, s.reorg_events[i]? = some event → ∀ job_id,
      s.indexer.HasReplay job_id → s.InTime i job_id → t.InTime i job_id := by
    intro i event hevent job_id hreplay
    obtain ⟨_, hmoved⟩ := h.moved
    exact hmoved.inTime hs (List.getElem?_eq_some_iff.1 hevent).1 hreplay
  have hlinked : ∀ i event, s.reorg_events[i]? = some event → ∀ job_id,
      event.replay_job_id = some job_id → t.InTime i job_id := by
    intro i event hevent job_id hid
    have hreplay := hs.linked event (List.mem_iff_getElem?.2 ⟨i, hevent⟩) job_id hid
    exact hkeeps i event hevent job_id hreplay (hin i event hevent job_id hid)
  -- only the link writes a job into an event; the other three keep the events they find
  intro i event hevent job_id hid
  cases h with
  | indexer _ hevents | enqueued _ _ hevents =>
    rw [hevents] at hevent
    exact hlinked i event hevent job_id hid
  | recorded new _ hunlinked hevents =>
    rw [hevents] at hevent
    by_cases hlast : i < s.reorg_events.length
    · rw [List.getElem?_append_left hlast] at hevent
      exact hlinked i event hevent job_id hid
    · rw [List.getElem?_append_right (not_lt.1 hlast)] at hevent
      have hnew := List.mem_singleton.1 (List.mem_iff_getElem?.2 ⟨_, hevent⟩)
      rw [hnew, hunlinked] at hid
      cases hid
  | @linked _ command link hlink _ hevents =>
    rw [hevents] at hevent
    obtain ⟨old, hold, ⟨hmatches, hnew⟩ | rfl⟩ := linked_event hevent
    · -- the link is written in time by hypothesis
      rw [hnew] at hid
      rw [← Option.some_inj.1 hid]
      exact hkeeps i old hold _ (hs.linking command link hlink)
        (hok link hlink i old hold hmatches)
    · exact hlinked i event hold job_id hid

end Invariant

/-! ## A link written late

Where a link is late there is a way on that loses the event: finish the job, or let the
execution that is under way finish it. The steps exist whatever the state, as each of them
asks only for what the execution has.
-/

/-- A job that is there can be marked succeeded, whatever its status. -/
theorem exists_mark_succeeded {db : Db} {job : JobRow} (hjob : job ∈ db.jobs.rows)
    (now : Timestamp) : ∃ row db', mark_succeeded db job.id now = .ok (row, db') := by
  have hfind : db.jobs.rows.find? (fun r => r.id == job.id) = some job := by
    rw [Table.find?_eq_some_iff]
    · exact ⟨hjob, beq_self_eq_true job.id⟩
    · intro a _ b _ ha hb
      exact Or.inl ((beq_iff_eq.1 ha).trans (beq_iff_eq.1 hb).symm)
  obtain ⟨jobs, hjobs⟩ : ∃ jobs, db.jobs.update (fun r => r.id == job.id) JobRow.succeed
      (fun _ _ => Iff.rfl) = some jobs := Table.exists_update fun r hr _ => db.jobs.checked r hr
  obtain ⟨job_attempts, hattempts⟩ : ∃ job_attempts, db.job_attempts.update
      (JobAttemptRow.of_attempt job.succeed.id job.succeed.attempts)
      (JobAttemptRow.record .Succeeded none none now) (fun _ _ => Iff.rfl) = some job_attempts :=
    Table.exists_update fun r hr _ => ⟨(db.job_attempts.checked r hr).1, nofun⟩
  refine ⟨job.succeed, { db with jobs, job_attempts }, ?_⟩
  unfold mark_succeeded mark_job
  rw [hfind]
  simp only [bind_eq_ok, db_result_eq_ok, update_attempt_status]
  exact ⟨jobs, hjobs, _, ⟨job_attempts, hattempts, rfl⟩, rfl⟩

section Late

variable (parseAmount : AmountParser) {s : RepairService} {slot : Nat} {e : Execution}

/-- The same events, recorded at the same steps. -/
structure RepairService.SameEvents (s t : RepairService) : Prop where
  reorg_events : t.reorg_events = s.reorg_events
  recorded_at : t.recorded_at = s.recorded_at

/-- An execution that has replayed its range can finish its job, which adds no replay. -/
theorem exists_finish (hs : s.Tracked) (he : s.indexer.executions slot = some e)
    (hphase : e.phase = .Executed) :
    ∃ t, RepairStep parseAmount s (.indexer (.mark_succeeded slot 0)) t ∧ s.SameEvents t ∧
      t.replays = s.replays ∧
      ∃ job ∈ t.indexer.db.jobs.rows, job.id = e.job.id ∧ job.status = .Succeeded := by
  obtain ⟨job, hjob, hsame⟩ := hs.indexer.stored slot e he
  obtain ⟨row, db, hmark⟩ := exists_mark_succeeded hjob 0
  have hexec : s.indexer.exec parseAmount (.mark_succeeded slot 0)
      = some ((s.indexer.with_db db).put slot none) := by
    unfold Indexer.exec IndexerOp.slot Indexer.advance_execution
    simp only [Option.bind_some, he, hphase]
    rw [← hsame.id, hmark]
    rfl
  refine ⟨s.after_indexer (.mark_succeeded slot 0) ((s.indexer.with_db db).put slot none),
    ⟨_, ?_, Db.SameRows.refl _, rfl⟩, ⟨rfl, rfl⟩, rfl, ?_⟩
  · unfold RepairService.exec
    simp only [hexec, Option.map_some]
  · unfold mark_succeeded at hmark
    obtain ⟨-, old, hold, hid, -, hrows⟩ := mark_job_returns hmark
    refine ⟨old.succeed, ?_, hid.trans hsame.id, rfl⟩
    show old.succeed ∈ db.jobs.rows
    rw [hrows]
    exact (mem_replaceRow hold).2 (Or.inl rfl)

/-- An execution that has orphaned its range can come to the end of its replay. -/
theorem exists_replay (he : s.indexer.executions slot = some e)
    (htype : e.job.job_type = .ReplayRange) {source : SourceRow} {observed_finalized_block : Int}
    (hphase : e.phase = .Orphaned source observed_finalized_block) :
    ∃ t, RepairStep parseAmount s (.indexer (.ingest_source_range slot)) t ∧ s.SameEvents t ∧
      t.replays = { job_id := e.job.id, began_at := s.began_at slot } :: s.replays ∧
      t.indexer.executions slot = some { e with phase := .Executed } := by
  have hexec : s.indexer.exec parseAmount (.ingest_source_range slot)
      = some ((s.indexer.note_ingested e.job.id).put slot (some { e with phase := .Executed })) := by
    unfold Indexer.exec IndexerOp.slot Indexer.advance_execution
    simp only [Option.bind_some, he, hphase, htype]
  refine ⟨s.after_indexer (.ingest_source_range slot)
      ((s.indexer.note_ingested e.job.id).put slot (some { e with phase := .Executed })),
    ⟨_, ?_, Db.SameRows.refl _, rfl⟩, ⟨rfl, rfl⟩, ?_, Function.update_self _ _ _⟩
  · unfold RepairService.exec
    simp only [hexec, Option.map_some]
  · show s.replays_after (.ingest_source_range slot) = _
    unfold RepairService.replays_after
    simp only [he, Option.toList_some]
    rw [List.filter_cons_of_pos (by simpa using htype)]
    rfl

/-- A replay that began before the event was recorded does not repair it. -/
theorem RepairService.SameEvents.not_repaired {t : RepairService} (h : s.SameEvents t) {i : Nat}
    {job_id : Uuid} (replays : List Replay) (hreplays : t.replays = replays ++ s.replays)
    (hlate : ∀ replay ∈ replays, replay.began_at ≤ s.recorded_at i)
    (hnot : ¬ s.Repaired i job_id) : ¬ t.Repaired i job_id := by
  rintro ⟨replay, hreplay, hid, hbegan⟩
  rw [h.recorded_at] at hbegan
  rw [hreplays] at hreplay
  rcases List.mem_append.1 hreplay with hnew | hold
  · have hle := hlate replay hnew
    omega
  · exact hnot ⟨replay, hold, hid, hbegan⟩

/-- An event that no replay of its job has repaired is lost once the job is finished. -/
theorem late_finish_loses (hs : s.Tracked) {i : Nat} {event : ReorgEventInsert}
    (hevent : s.reorg_events[i]? = some event) (hid : event.replay_job_id = some e.job.id)
    (hnot : ¬ s.Repaired i e.job.id) (he : s.indexer.executions slot = some e)
    (hphase : e.phase = .Executed) :
    ∃ t, RepairStep parseAmount s (.indexer (.mark_succeeded slot 0)) t ∧
      ¬ t.LinkedEventsRepaired := by
  obtain ⟨t, hfinish, hsame, hreplays, job, hjob, hjob_id, hstatus⟩ :=
    exists_finish parseAmount hs he hphase
  refine ⟨t, hfinish, fun hrepaired => ?_⟩
  refine hsame.not_repaired [] hreplays nofun hnot ?_
  rw [← hjob_id]
  refine hrepaired i event ?_ job hjob (hid.trans (congrArg some hjob_id.symm)) hstatus
  rw [hsame.reorg_events]
  exact hevent

/-- An event linked to a job that is under way since before it was recorded is lost if the
execution goes through. -/
theorem late_execution_loses (hs : s.Tracked) {i : Nat} {event : ReorgEventInsert}
    (hevent : s.reorg_events[i]? = some event) (hid : event.replay_job_id = some e.job.id)
    (hnot : ¬ s.Repaired i e.job.id) (he : s.indexer.executions slot = some e)
    (hreplaying : e.replaying = true) (hlate : s.began_at slot ≤ s.recorded_at i) :
    ∃ ops t, Run (RepairStep parseAmount) s ops t ∧ ¬ t.LinkedEventsRepaired := by
  obtain ⟨htype, ⟨source, observed, hphase⟩ | hphase⟩ := replaying_iff.1 hreplaying
  · obtain ⟨mid, hreplay, hsame, hreplays, hmid⟩ :=
      exists_replay parseAmount he htype hphase
    have hmid_not : ¬ mid.Repaired i e.job.id := by
      refine hsame.not_repaired [_] hreplays (fun replay hreplay => ?_) hnot
      rw [List.mem_singleton.1 hreplay]
      exact hlate
    have hmid_event : mid.reorg_events[i]? = some event := by
      rw [hsame.reorg_events]
      exact hevent
    have htracked := (hreplay.effect hs.indexer).tracked hs
    obtain ⟨t, hfinish, hlost⟩ :=
      late_finish_loses parseAmount (e := { e with phase := .Executed }) htracked hmid_event hid
        hmid_not hmid rfl
    exact ⟨_, t, (Run.nil.snoc hreplay).snoc hfinish, hlost⟩
  · obtain ⟨t, hfinish, hlost⟩ :=
      late_finish_loses parseAmount hs hevent hid hnot he hphase
    exact ⟨_, t, Run.nil.snoc hfinish, hlost⟩

/-- A link that is not written in time is followed by steps after which an event is linked
to a succeeded job that never repaired it. -/
theorem late_link_loses (hs : s.Tracked) {command : Nat} {link : ReplayLink}
    (hlink : s.linking command = some link)
    (hlate : ¬ LinksInTime s (.link_reorg_events_to_replay_job command)) :
    ∃ ops t, Run (RepairStep parseAmount) s (.link_reorg_events_to_replay_job command :: ops) t ∧
      ¬ t.LinkedEventsRepaired := by
  unfold LinksInTime at hlate
  push Not at hlate
  obtain ⟨l, hl, i, old, hold, hmatches, hnot⟩ := hlate
  obtain rfl := Option.some_inj.1 (hlink.symm.trans hl)
  have hstep : RepairStep parseAmount s (.link_reorg_events_to_replay_job command)
      (s.after_link command link) := by
    refine ⟨_, ?_, Db.SameRows.refl _, rfl⟩
    unfold RepairService.exec
    simp only [hlink, Option.map_some]
  have htracked := (hstep.effect hs.indexer).tracked hs
  -- after the link the event names the job that has not repaired it
  have hevent : (s.after_link command link).reorg_events[i]?
      = some { old with replay_job_id := some link.replay_job_id } := by
    unfold RepairService.after_link link_reorg_events_to_replay_job
    rw [List.getElem?_map, hold, Option.map_some, Table.setRow, if_pos hmatches]
  obtain ⟨hunrepaired, hnot⟩ := not_or.1 hnot
  by_cases hdone : ∀ job ∈ s.indexer.db.jobs.rows, job.id = link.replay_job_id →
      job.status ≠ .Succeeded
  · -- an execution of the job is under way since before the event was recorded
    have hlate : ∃ slot e, s.indexer.executions slot = some e ∧ e.replaying = true ∧
        e.job.id = link.replay_job_id ∧ s.began_at slot ≤ s.recorded_at i := by
      by_contra hnone
      push Not at hnone
      exact hnot ⟨hdone, hnone⟩
    obtain ⟨slot, e, he, hreplaying, hid, hle⟩ := hlate
    rw [← hid] at hevent hunrepaired
    obtain ⟨ops, t, hrun, hlost⟩ :=
      late_execution_loses parseAmount htracked hevent rfl hunrepaired he hreplaying hle
    exact ⟨ops, t, Run.cons hstep hrun, hlost⟩
  · -- the job has succeeded already
    push Not at hdone
    obtain ⟨job, hjob, hid, hstatus⟩ := hdone
    refine ⟨[], _, Run.nil.snoc hstep, fun hrepaired => hunrepaired ?_⟩
    have hrepaired := hrepaired i _ hevent job hjob (congrArg some hid.symm) hstatus
    rwa [hid] at hrepaired

end Late

/-! ## Runs

The condition is on the steps that link, and the theorem has both directions, the second as a
continuation: a late link does no harm by itself, but nothing keeps the harm from being done
after it.
-/

/-- Where every link is written in time, every event linked to a succeeded job was repaired
by it. A link that is not leads on to a state where one was not. -/
theorem linked_events_are_repaired {parseAmount : AmountParser} {s : RepairService}
    (h : Reachable (Guarded (RepairStep parseAmount) LinksInTime) RepairService.Initial s) :
    s.LinkedEventsRepaired ∧ ∀ command link, s.linking command = some link →
      ¬ LinksInTime s (.link_reorg_events_to_replay_job command) →
        ∃ ops t,
          Run (RepairStep parseAmount) s (.link_reorg_events_to_replay_job command :: ops) t ∧
            ¬ t.LinkedEventsRepaired := by
  -- both invariants go through the run together: a link in time needs the tracked ids
  have hin : s.Tracked ∧ s.LinkedInTime := by
    refine Reachable.invariant (I := fun s => s.Tracked ∧ s.LinkedInTime) ?_ ?_ h
    · intro s hs
      refine ⟨hs.tracked, fun i event hevent => ?_⟩
      rw [hs.reorg_events] at hevent
      cases hevent
    · intro s op t hs hstep
      obtain ⟨htracked, hlinked⟩ := hs
      obtain ⟨hstep, hok⟩ := hstep
      have heffect := hstep.effect htracked.indexer
      exact ⟨heffect.tracked htracked, heffect.linkedInTime htracked hok hlinked⟩
  obtain ⟨htracked, hlinked⟩ := hin
  refine ⟨fun i event hevent job hjob hid hstatus => ?_, fun command link hlink hlate => ?_⟩
  · rcases hlinked i event hevent job.id hid with hrepaired | ⟨hwaits, -⟩
    · exact hrepaired
    · exact absurd hstatus (hwaits job hjob rfl)
  · exact late_link_loses parseAmount htracked hlink hlate

/-! ## A small service -/

/-- A service that has done nothing. -/
def RepairService.empty : RepairService :=
  { indexer := Indexer.empty
    reorg_events := []
    linking := fun _ => none
    clock := 0
    recorded_at := fun _ => 0
    began_at := fun _ => 0
    replays := [] }

/-- The state after a step, or the same state where the step is not possible. -/
def RepairService.next (parseAmount : AmountParser) (s : RepairService) (op : RepairOp) :
    RepairService := (s.exec parseAmount op).getD s

/-- Where steps lead from a service that has done nothing. -/
def RepairService.after (parseAmount : AmountParser) (ops : List RepairOp) : RepairService :=
  ops.foldl (RepairService.next parseAmount) RepairService.empty

/-- Steps that are all possible, and pass a check, are a run. -/
theorem repairs_of_possible {parseAmount : AmountParser} (ok : RepairService → RepairOp → Bool)
    {guard : RepairService → RepairOp → Prop} (hok : ∀ s op, ok s op = true → guard s op)
    {ops : List RepairOp} (h : Allowed (RepairService.next parseAmount)
      (fun s op => (s.exec parseAmount op).isSome && ok s op) RepairService.empty ops = true) :
    Reachable (Guarded (RepairStep parseAmount) guard) RepairService.Initial
      (RepairService.after parseAmount ops) := by
  have hinitial : RepairService.empty.Initial := ⟨Indexer.empty_initial, rfl, rfl, rfl⟩
  refine ⟨RepairService.empty, ops, hinitial, Run.of_allowed (fun s op hop => ?_) h⟩
  rw [Bool.and_eq_true, Option.isSome_iff_exists] at hop
  obtain ⟨⟨u, hu⟩, hop⟩ := hop
  have hnext : s.next parseAmount op = u := by
    unfold RepairService.next
    rw [hu, Option.getD_some]
  rw [hnext]
  exact ⟨⟨u, hu, Db.SameRows.refl _, rfl⟩, hok s op hop⟩

/-- A check that a link only reaches events that were repaired already. -/
def links_repaired (s : RepairService) : RepairOp → Bool
  | .link_reorg_events_to_replay_job command => (s.linking command).all fun link =>
    (List.range s.reorg_events.length).all fun i => s.replays.any fun replay =>
      replay.job_id == link.replay_job_id && decide (s.recorded_at i < replay.began_at)
  | _ => true

theorem linksInTime_of_repaired (s : RepairService) (op : RepairOp)
    (h : links_repaired s op = true) : LinksInTime s op := by
  unfold LinksInTime
  split
  · intro link hlink i event hevent _
    simp only [links_repaired, hlink, Option.all_some, List.all_eq_true, List.mem_range,
      List.any_eq_true, Bool.and_eq_true, beq_iff_eq, decide_eq_true_eq] at h
    exact Or.inl (h i (List.getElem?_eq_some_iff.1 hevent).1)
  · trivial

/-- A mint of block 1 is ingested. -/
def block_1_ingested : List RepairOp :=
  ([ensure_token 0, .enqueue .Ingest 0 0 1 5 0, .lease 0 "a" 60 false none (fun _ => false) 0 0,
    .mark_running 0 0, .load_source 0 200,
    .persist_decoded_logs 0 [erc20_transfer "0x1" "0xb1" "0xd1" zero_address alice],
    .ingest_source_range 0] ++ finish_in 0 "0xb1").map .indexer

/-- A worker leases the replay job, and replays blocks 0 and 1 from the block it was given. -/
def replay_from (block_hash : String) : List RepairOp :=
  [.lease 0 "a" 60 true none (fun _ => false) 0 0, .mark_running 0 0, .load_source 0 200,
    .orphan_source_range 0,
    .persist_decoded_logs 0 [erc20_transfer "0x1" block_hash "0xd1" zero_address alice],
    .ingest_source_range 0].map .indexer

/-- `enqueue-replay` of blocks 0 and 1. -/
def enqueue_blocks (command : Nat) : RepairOp :=
  .enqueue_replay command 1 "0xc0c0c0c0c0c0c0c0c0c0c0c0c0c0c0c0c0c0c0c0" 0 1 5 0

/-- `verify-reorg` reports that block 1 was replaced. -/
def record_block_1 : RepairOp :=
  .record_reorg_range
    { id := 0, chain_id := 1, contract_address := "0xc0c0c0c0c0c0c0c0c0c0c0c0c0c0c0c0c0c0c0c0",
      token_standard := .Erc20 }
    [{ block_number := 1, expected_block_hash := "0xb1", actual_block_hash := "0xc1" }]

/-- The command enqueues its job after the event was recorded, and a worker has replayed the
range by the time the event is linked. -/
def linked_after_replay : List RepairOp :=
  block_1_ingested ++ [record_block_1, enqueue_blocks 0] ++ replay_from "0xc1" ++
    [.link_reorg_events_to_replay_job 0, .indexer (.mark_succeeded 0 0)]

theorem linked_events_are_repaired_after_replay :
    let s := RepairService.after plain_digits linked_after_replay
    (∃ event ∈ s.reorg_events, ∃ job ∈ s.indexer.db.jobs.rows,
      event.replay_job_id = some job.id ∧ job.status = .Succeeded) ∧
      s.LinkedEventsRepaired ∧ ∀ command link, s.linking command = some link →
        ¬ LinksInTime s (.link_reorg_events_to_replay_job command) →
          ∃ ops t,
            Run (RepairStep plain_digits) s (.link_reorg_events_to_replay_job command :: ops) t ∧
              ¬ t.LinkedEventsRepaired :=
  ⟨by decide +kernel, linked_events_are_repaired
    (repairs_of_possible links_repaired linksInTime_of_repaired (by decide +kernel))⟩

/-- Blocks 0 and 1 are replayed before block 1 is replaced, and the job has still to be marked
succeeded. -/
def replayed_too_early : List RepairOp :=
  block_1_ingested ++ [enqueue_blocks 0, .link_reorg_events_to_replay_job 0] ++ replay_from "0xb1"

/-- After that, verification of the forked chain records the event of block 1. -/
example : (Program.returned (verify_source_reorgs forked_rpc
      { id := 0, chain_id := 1, contract_address := "0xc0c0c0c0c0c0c0c0c0c0c0c0c0c0c0c0c0c0c0c0",
        token_standard := .Erc20 } 0 1
      (RepairService.after plain_digits replayed_too_early).service)).map (·.2.reorg_events)
    = some (RepairService.after plain_digits
        (replayed_too_early ++ [record_block_1])).reorg_events := by
  decide +kernel

/-- Then `enqueue-replay` finds the job running, and links the event to it. -/
def linked_to_running : List RepairOp :=
  replayed_too_early ++ [record_block_1, enqueue_blocks 1, .link_reorg_events_to_replay_job 1,
    .indexer (.mark_succeeded 0 0)]

/-- The event is linked to a succeeded job, whose only replay was before it was recorded. -/
theorem running_replay_misses_the_event :
    ¬ ∀ s, Reachable (RepairStep plain_digits) RepairService.Initial s → s.LinkedEventsRepaired := by
  intro h
  obtain ⟨s, ops, hs, hrun⟩ : Reachable (Guarded (RepairStep plain_digits) fun _ _ => True)
      RepairService.Initial (RepairService.after plain_digits linked_to_running) :=
    repairs_of_possible (fun _ _ => true) (fun _ _ _ => trivial) (by decide +kernel)
  have hrepaired := h _ ⟨s, ops, hs, hrun.of_guarded⟩
  have hlinked : (RepairService.after plain_digits linked_to_running).reorg_events[0]?.any
      (fun event => (RepairService.after plain_digits linked_to_running).indexer.db.jobs.rows.any
        fun job => event.replay_job_id == some job.id && job.status == .Succeeded) = true := by
    decide +kernel
  have hearlier : ∀ replay ∈ (RepairService.after plain_digits linked_to_running).replays,
      replay.began_at < (RepairService.after plain_digits linked_to_running).recorded_at 0 := by
    decide +kernel
  generalize RepairService.after plain_digits linked_to_running = t at hrepaired hlinked hearlier
  simp only [Option.any_eq_true, List.any_eq_true, Bool.and_eq_true, beq_iff_eq] at hlinked
  obtain ⟨event, hevent, job, hjob, hid, hstatus⟩ := hlinked
  obtain ⟨replay, hreplay, -, hlater⟩ := hrepaired 0 event hevent job hjob hid hstatus
  have hbefore := hearlier replay hreplay
  omega

end EvmIndexer
