/-
Enqueueing a range of a source twice.

A job that is enqueued can meet a stored one by its idempotency key or by its source, type
and range. Either way the stored job is one of the same source, type and range: a key can
be read back, and the second lookup asks for just these columns. So a command never fails
on a conflict, and a plan made again finds a job for every one of its chunks
(`enqueues_are_idempotent`). Only a job whose id was taken would be refused without being
found, and ids are drawn fresh (`FreshJobIds`).
-/
import EvmIndexer.Partition
import EvmIndexer.PlanCoverage
import EvmIndexer.Stored

set_option autoImplicit false

namespace EvmIndexer

open Sql Transition

/-! ## Ids of jobs

The id of a job is drawn by the command before it enqueues. An id that was taken would clash
with a row that neither lookup of the conflict finds, and the enqueue would fail. The
generator only hands out, so every id in the tables is behind it.
-/

/-- The next uuid is not the id of a job. -/
def FreshJobIds (db : Db) : Prop := ∀ row ∈ db.jobs.rows, row.id < db.next_uuid

section Uuids

variable {parseAmount : AmountParser}

theorem persist_decoded_logs_uuid {db db' : Db} {source : SourceRef}
    {logs : List (RpcLog × DecodedLog)} {options : PersistDecodedLogsOptions} {summary : ScanSummary}
    (h : persist_decoded_logs_with_options parseAmount db source logs options
      = .ok (summary, db')) : db.next_uuid ≤ db'.next_uuid := by
  have hentry : ∀ {log event_id entry} {s t : Db},
      persist_entry parseAmount source log event_id options s entry = .ok t →
        s.next_uuid ≤ t.next_uuid := by
    intro log event_id entry s t hpersist
    obtain ⟨previous, current, mid, hprev, -, hupsert, happly⟩ := persist_entry_spec hpersist
    obtain ⟨values, ledger_entries, -, -, hmid, -⟩ := upsert_ledger_entry_spec hprev hupsert
    have huuid : mid.next_uuid = s.next_uuid + 1 := by rw [hmid]
    exact le_trans (huuid ▸ Nat.le_succ _) (apply_balance_delta_uuid happly)
  refine foldlM_relates (R := fun s t : Db => s.next_uuid ≤ t.next_uuid) (fun _ => le_refl _)
    le_trans (fun log _ s t hlog => ?_) (persist_decoded_logs_iff.1 ⟨summary, h⟩).2
  unfold persist_log at hlog
  rw [bind_eq_ok] at hlog
  obtain ⟨⟨event_id, mid⟩, hevent, hentries⟩ := hlog
  obtain ⟨values, -, -, hframe, -⟩ := upsert_event_spec hevent
  have huuid : mid.next_uuid = s.next_uuid + 1 := by rw [hframe]
  have hloop : mid.next_uuid ≤ t.next_uuid :=
    foldlM_relates (R := fun s t : Db => s.next_uuid ≤ t.next_uuid) (fun _ => le_refl _) le_trans
      (fun _ _ _ _ => hentry) hentries
  exact le_trans (huuid ▸ Nat.le_succ _) hloop

theorem orphan_source_range_uuid {db db' : Db} {source : SourceRow} {from_block to_block : Int}
    {summary : OrphanRangeSummary}
    (h : orphan_source_range db source from_block to_block = .ok (summary, db')) :
    db.next_uuid ≤ db'.next_uuid := by
  obtain ⟨mid, hmid, hdb, -, -⟩ := orphan_source_range_spec h
  have hloop : db.next_uuid ≤ mid.next_uuid :=
    foldlM_relates (R := fun s t : Db => s.next_uuid ≤ t.next_uuid) (fun _ => le_refl _)
      le_trans (fun _ _ _ _ => apply_balance_delta_uuid) hmid
  rw [hdb]
  exact hloop

theorem advance_checkpoint_uuid {db db' : Db} {source_id : Uuid} {processed_block : Int}
    {processed_block_hash : String} {finalized_block : Int} {row : CheckpointRow}
    (h : advance_checkpoint db source_id processed_block processed_block_hash finalized_block
      = .ok (row, db')) : db.next_uuid ≤ db'.next_uuid := by
  unfold advance_checkpoint at h
  simp only [bail_eq_ok] at h
  obtain ⟨-, -, -, h⟩ := h
  split at h
  · simp only [bind_eq_ok] at h
    obtain ⟨checkpoints, -, h⟩ := h
    cases h
    exact Nat.le_succ _
  · simp only [bail_eq_ok] at h
    obtain ⟨-, h⟩ := h
    split at h
    · cases h
      exact le_refl _
    · simp only [bind_eq_ok] at h
      obtain ⟨checkpoints, -, h⟩ := h
      cases h
      exact le_refl _

theorem update_attempt_status_uuid {db db' : Db} {job_id : Uuid} {attempt_number : Int}
    {status : JobStatus} {error_class error_message : Option String} {now : Timestamp}
    (h : update_attempt_status db job_id attempt_number status error_class error_message now
      = .ok db') : db'.next_uuid = db.next_uuid := by
  unfold update_attempt_status at h
  rw [bind_eq_ok] at h
  obtain ⟨job_attempts, -, h⟩ := h
  cases h
  rfl

theorem mark_job_uuid {db db' : Db} {job_id : Uuid} {set : JobRow → JobRow} {hset : KeepsKeys set}
    {attempt_status : JobStatus} {error_class error_message : Option String} {now : Timestamp}
    {row : JobRow}
    (h : mark_job db job_id set hset attempt_status error_class error_message now = .ok (row, db')) :
    db'.next_uuid = db.next_uuid := by
  unfold mark_job at h
  split at h
  · cases h
  · simp only [bind_eq_ok] at h
    obtain ⟨jobs, -, mid, hmid, h⟩ := h
    cases h
    exact (update_attempt_status_uuid hmid).trans rfl

theorem lease_next_candidate_uuid {db db' : Db} {worker_id : String} {lease_for : Int}
    {job_type : Option JobType} {chain_id : Option Int} {locked : Uuid → Bool}
    {selected_at now : Timestamp} {leased : Option JobRow}
    (h : lease_next_candidate db worker_id lease_for job_type chain_id locked selected_at now
      = .ok (leased, db')) : db.next_uuid ≤ db'.next_uuid := by
  unfold lease_next_candidate cancel_expired_attempt at h
  split at h
  · cases h
    exact le_refl _
  · simp only [bind_eq_ok] at h
    obtain ⟨mid, hmid, jobs, -, job_attempts, -, h⟩ := h
    cases h
    split at hmid
    · have huuid := update_attempt_status_uuid hmid
      exact huuid ▸ Nat.le_succ _
    · cases hmid
      exact Nat.le_succ _

theorem enqueue_uuid {db db' : Db} {now : Timestamp} {job : NewJob} {result : EnqueueResult}
    (h : enqueue db now job = .ok (result, db')) : db'.next_uuid = db.next_uuid := by
  unfold enqueue at h
  split at h
  · split at h
    · cases h
      rfl
    · obtain ⟨row, -, hrow⟩ := map_eq_ok.1 h
      cases hrow
      rfl
  · cases h

theorem advance_execution_uuid {s u : Indexer} {slot : Nat} {e : Execution} {op : IndexerOp}
    (hop : op.slot = some slot)
    (h : s.advance_execution parseAmount slot e op = some u) :
    s.db.next_uuid ≤ u.db.next_uuid := by
  have hcall := advance_execution_call hop h
  generalize u.db = db at hcall ⊢
  cases hcall with
  | none => exact le_refl _
  | mark_job _ hmark => exact le_of_eq (mark_job_uuid hmark).symm
  | advance_checkpoint hadvance => exact advance_checkpoint_uuid hadvance
  | orphan_source_range _ _ horphan => exact orphan_source_range_uuid horphan
  | persist_decoded_logs _ hpersist => exact persist_decoded_logs_uuid hpersist

/-- A step draws uuids and gives none back, so an identifier that was drawn once is not drawn
again in any state the run goes on to. -/
theorem IndexerStep.uuid {s t : Indexer} {op : IndexerOp} (h : IndexerStep parseAmount s op t) :
    s.db.next_uuid ≤ t.db.next_uuid := by
  obtain ⟨u, hexec, hsame, -, -⟩ := h
  rw [hsame.next_uuid]
  clear hsame
  -- a source, a job, a lease, an advance: nothing else draws
  unfold Indexer.exec at hexec
  split at hexec
  · simp only [Option.map_eq_some_iff, toOption_eq_some] at hexec
    obtain ⟨⟨row, db⟩, hensure, rfl⟩ := hexec
    show s.db.next_uuid ≤ db.next_uuid
    rw [ensure_source_frame hensure]
    exact Nat.le_succ _
  · simp only [Option.bind_eq_some_iff, Option.map_eq_some_iff, toOption_eq_some] at hexec
    obtain ⟨source, -, ⟨result, db⟩, henqueue, rfl⟩ := hexec
    show s.db.next_uuid ≤ db.next_uuid
    rw [enqueue_uuid henqueue]
    exact Nat.le_succ _
  · split at hexec
    · cases hexec
    · simp only [Option.map_eq_some_iff, toOption_eq_some] at hexec
      obtain ⟨⟨leased, db⟩, hlease, hu⟩ := hexec
      have huuid := lease_next_candidate_uuid hlease
      cases leased with
      | none => exact hu ▸ huuid
      | some job => exact hu ▸ huuid
  · simp only [Option.bind_eq_some_iff] at hexec
    obtain ⟨slot, hop, e, -, hadvance⟩ := hexec
    exact advance_execution_uuid hop hadvance

/-- A job after a step is the one an enqueue drew an id for, or has the id of one before it. -/
theorem IndexerStep.job_id {s t : Indexer} {op : IndexerOp} (h : IndexerStep parseAmount s op t)
    {row : JobRow} (hrow : row ∈ t.db.jobs.rows) :
    (∃ old ∈ s.db.jobs.rows, row.id = old.id) ∨
      (row.id = s.db.next_uuid ∧ t.db.next_uuid = s.db.next_uuid + 1) := by
  by_cases henqueue : ∃ command source_id from_block to_block max_attempts now,
      op = .enqueue command source_id from_block to_block max_attempts now
  · obtain ⟨command, source_id, from_block, to_block, max_attempts, now, rfl⟩ := henqueue
    obtain ⟨u, hexec, hsame, -, -⟩ := h
    unfold Indexer.exec at hexec
    simp only [Option.bind_eq_some_iff, Option.map_eq_some_iff, toOption_eq_some] at hexec
    obtain ⟨source, -, ⟨result, db⟩, henqueue, rfl⟩ := hexec
    have hmem : row ∈ db.jobs.rows := hsame.jobs.mem_iff.2 hrow
    rcases enqueue_spec henqueue with ⟨hrows, -⟩ | rfl
    · rw [hrows, List.mem_append, List.mem_singleton] at hmem
      rcases hmem with hold | rfl
      · exact Or.inl ⟨row, hold, rfl⟩
      · exact Or.inr ⟨rfl, hsame.next_uuid.trans (enqueue_uuid henqueue)⟩
    · exact Or.inl ⟨row, hmem, rfl⟩
  · -- any other step replaces a row by one of the same id
    have hreplaced : ∀ {old new : JobRow}, Replaced s t old new → new.id = old.id →
        ∃ old ∈ s.db.jobs.rows, row.id = old.id := by
      intro old new hjobs hid
      rcases (hjobs.2 row).1 hrow with rfl | ⟨hold, -⟩
      · exact ⟨old, hjobs.1, hid⟩
      · exact ⟨row, hold, rfl⟩
    left
    cases h.effect with
    | idle _ _ _ hjobs | ensured _ _ hjobs | dropped _ _ hjobs | moved _ _ _ hjobs
    | ingested _ _ hjobs | advanced _ _ _ hjobs => exact ⟨row, (hjobs row).1 hrow, rfl⟩
    | enqueued => exact absurd ⟨_, _, _, _, _, _, rfl⟩ henqueue
    | leased _ _ _ hjobs | running _ _ _ hjobs | succeeded _ _ _ hjobs | gave_up _ _ _ _ hjobs =>
      exact hreplaced hjobs rfl

theorem IndexerReachable.freshJobIds {s : Indexer} (hs : IndexerReachable parseAmount s) :
    FreshJobIds s.db := by
  refine Reachable.invariant (I := fun s : Indexer => FreshJobIds s.db) ?_ ?_ hs
  · rintro s ⟨hdb, -, -⟩ row hrow
    rw [hdb] at hrow
    exact absurd hrow List.not_mem_nil
  · intro s op t hfresh hstep row hrow
    rcases hstep.job_id hrow with ⟨old, hold, hid⟩ | ⟨hid, huuid⟩
    · rw [hid]
      exact lt_of_lt_of_le (hfresh old hold) hstep.uuid
    · rw [hid, huuid]
      exact Nat.lt_succ_self _

end Uuids

/-! ## The job a command finds or inserts

The three commands differ in the key and the type of the job they ask for, and in nothing
else that an enqueue looks at. `JobRow.IsFor` is what the answer has to be: a job of the
source, the type and the range that was asked for, whichever of the two lookups found it.
-/

/-- The row is a job of the source and the range, of the type the command enqueues. -/
structure JobRow.IsFor (row : JobRow) (command : RangeCommand) (source_id : Uuid)
    (range : Int × Int) : Prop where
  source_id : row.source_id = some source_id
  job_type : row.job_type = command.job_type
  range : row.range = some range

/-- A command asks for the range it was given, as far as it fits a `BIGINT`. -/
theorem command_job_isFor (command : RangeCommand) (id : Uuid) (source : SourceRef)
    (from_block to_block : Nat) (max_attempts : Int) (now : Timestamp) :
    ((command.job id source from_block to_block max_attempts).to_row now).IsFor command source.id
      (as_i64 from_block, as_i64 to_block) := by
  obtain ⟨hfrom, hto⟩ := command_job_blocks command id source from_block to_block max_attempts
  refine ⟨rfl, rfl, JobRow.range_eq_some.2 ⟨hfrom, hto⟩⟩

section Enqueue

variable {db : Db} {command : RangeCommand} {id : Uuid} {source : SourceRef}
  {from_block to_block : Nat} {max_attempts : Int} {now : Timestamp}

/-- Whatever an enqueue returns is for what the command asks for. -/
theorem enqueue_isFor {db' : Db} {result : EnqueueResult}
    (henqueued : ∀ r ∈ db.jobs.rows, r.Enqueued)
    (h : enqueue db now (command.job id source from_block to_block max_attempts)
      = .ok (result, db')) :
    result.row.IsFor command source.id (as_i64 from_block, as_i64 to_block) := by
  have hnew := command_job_isFor command id source from_block to_block max_attempts now
  rcases enqueue_result h with ⟨rfl, -, -⟩ | ⟨-, found, hfound, rfl, hmatch⟩
  · exact hnew
  · rcases hmatch with hkey | ⟨hsource, htype, hfrom, hto⟩
    · obtain ⟨htype, hsource, hrange⟩ := (henqueued found hfound).of_key hkey
      exact ⟨hsource, htype, hrange⟩
    · obtain ⟨hnewFrom, hnewTo⟩ := JobRow.range_eq_some.1 hnew.range
      exact ⟨hsource.trans hnew.source_id, htype.trans hnew.job_type,
        JobRow.range_eq_some.2 ⟨hfrom.trans hnewFrom, hto.trans hnewTo⟩⟩

/-- A clash is found by one of the two lookups. -/
theorem existing_enqueue_conflict_of_clash {row : JobRow} (hrow : row ∈ db.jobs.rows)
    (hid : row.id ≠ id)
    (hclash : Schema.Clash row ((command.job id source from_block to_block max_attempts).to_row now)) :
    ∃ found, existing_enqueue_conflict db (command.job id source from_block to_block max_attempts)
      = .ok found := by
  unfold RangeCommand.job at hclash ⊢
  generalize as_i64 from_block = first at hclash ⊢
  generalize as_i64 to_block = last at hclash ⊢
  unfold existing_enqueue_conflict
  split
  · rename_i found hfind
    exact ⟨found, rfl⟩
  · rename_i hnone
    rcases hclash with hsame | hkey | ⟨-, -, -, hsource, htype, hfrom, hto⟩
    · exact absurd hsame hid
    · have hmiss := List.find?_eq_none.1 hnone row hrow
      exact absurd (beq_iff_eq.2 hkey) hmiss
    · -- no key is alike, so the range is looked up
      have hfound : ∃ found, db.jobs.rows.find? (fun r => r.source_id == some source.id &&
          r.job_type == command.job_type && r.from_block == some first && r.to_block == some last)
          = some found := by
        refine Option.isSome_iff_exists.1 (List.find?_isSome.2 ⟨row, hrow, ?_⟩)
        simp only [Bool.and_eq_true, beq_iff_eq]
        exact ⟨⟨⟨hsource, htype⟩, hfrom⟩, hto⟩
      obtain ⟨found, hfound⟩ := hfound
      refine ⟨found, ?_⟩
      simp only [NewJob.new, NewJob.with_source, NewJob.with_range, NewJob.with_max_attempts, hfound]

/-- A stored job that clashes is found, and nothing changes. -/
theorem enqueue_of_clash {row : JobRow} (hrow : row ∈ db.jobs.rows) (hid : row.id ≠ id)
    (hcheck : Schema.Check ((command.job id source from_block to_block max_attempts).to_row now))
    (hclash : Schema.Clash row ((command.job id source from_block to_block max_attempts).to_row now)) :
    ∃ found, enqueue db now (command.job id source from_block to_block max_attempts)
      = .ok (.Existing found, db) := by
  obtain ⟨found, hfound⟩ := existing_enqueue_conflict_of_clash hrow hid hclash
  refine ⟨found, ?_⟩
  unfold enqueue
  rw [if_pos hcheck]
  cases hinsert : db.jobs.insert ((command.job id source from_block to_block max_attempts).to_row
      now) with
  | some jobs => exact absurd hclash ((Table.insert_eq_some.1 hinsert).1.2 row hrow)
  | none =>
    dsimp only
    rw [hfound]
    rfl

/-- What a command asks for passes the checks of the table. -/
theorem command_job_check (hle : from_block ≤ to_block) (hto : to_block < 2 ^ 63)
    (hattempts : 0 < max_attempts) :
    Schema.Check ((command.job id source from_block to_block max_attempts).to_row now) := by
  have hfrom : as_i64 from_block = from_block := as_i64_of_lt (lt_of_le_of_lt hle hto)
  have hlast : as_i64 to_block = to_block := as_i64_of_lt hto
  unfold RangeCommand.job
  rw [hfrom, hlast]
  have hblocks : NullOrBlock (some (from_block : Int)) ∧ NullOrBlock (some (to_block : Int)) ∧
      NullOrOrdered (some (from_block : Int)) (some (to_block : Int)) := by
    unfold NullOrBlock NullOrOrdered
    omega
  have hzero : (0 : Int) < 2 ^ 31 := by decide
  exact ⟨hblocks.1, hblocks.2.1, hblocks.2.2, le_refl _, hzero, hattempts⟩

/-- What passes the checks of the table is a range that fits a `BIGINT`. -/
theorem command_job_fits (hfrom : from_block < 2 ^ 64) (hto : to_block < 2 ^ 64)
    (hcheck : Schema.Check
      ((command.job id source from_block to_block max_attempts).to_row now)) :
    as_i64 from_block = from_block ∧ as_i64 to_block = to_block ∧ from_block ≤ to_block ∧
      to_block < 2 ^ 63 ∧ 0 < max_attempts := by
  unfold RangeCommand.job at hcheck
  generalize hfirst : as_i64 from_block = first at hcheck
  generalize hlast : as_i64 to_block = last at hcheck
  obtain ⟨hfromBlock, -, hordered, -, -, hattempts⟩ := hcheck
  have hnonneg : 0 ≤ first := hfromBlock.1
  have hle : first ≤ last := hordered
  obtain ⟨hfromCast, -⟩ := as_i64_nonneg hfrom (hfirst.symm ▸ hnonneg)
  obtain ⟨htoCast, htoFits⟩ := as_i64_nonneg hto (hlast.symm ▸ le_trans hnonneg hle)
  have hblocks : (from_block : Int) ≤ to_block := by
    rw [← hfromCast, ← htoCast, hfirst, hlast]
    exact hle
  exact ⟨hfirst.symm.trans hfromCast, hlast.symm.trans htoCast, Int.ofNat_le.1 hblocks, htoFits,
    hattempts⟩

/-- A command never fails on a conflict: it stores its job, or finds one. -/
theorem enqueue_command (hfresh : ∀ r ∈ db.jobs.rows, r.id ≠ id) (hle : from_block ≤ to_block)
    (hto : to_block < 2 ^ 63) (hattempts : 0 < max_attempts) :
    ∃ result db', enqueue db now (command.job id source from_block to_block max_attempts)
      = .ok (result, db') := by
  have hcheck : Schema.Check
      ((command.job id source from_block to_block max_attempts).to_row now) :=
    command_job_check hle hto hattempts
  by_cases hclash : ∃ row ∈ db.jobs.rows, Schema.Clash row
      ((command.job id source from_block to_block max_attempts).to_row now)
  · obtain ⟨row, hrow, hclash⟩ := hclash
    obtain ⟨found, hfound⟩ := enqueue_of_clash hrow (hfresh row hrow) hcheck hclash
    exact ⟨_, _, hfound⟩
  · have hfree : ∀ row ∈ db.jobs.rows, ¬ Schema.Clash row
        ((command.job id source from_block to_block max_attempts).to_row now) :=
      fun row hrow hc => hclash ⟨row, hrow, hc⟩
    obtain ⟨jobs, hinsert⟩ := Table.exists_insert hcheck hfree
    refine ⟨.Inserted ((command.job id source from_block to_block max_attempts).to_row now),
      { db with jobs }, ?_⟩
    unfold enqueue
    rw [if_pos hcheck, hinsert]

end Enqueue

/-! ## A plan made again

A chunk that has a job inserts none, so the database after such a chunk is the one before it,
and a loop over chunks that all have one leaves the database as it is. What has to be known
is that the second plan makes the chunks of the first, which it does while the checkpoint is
where it was.
-/

section Again

variable {now : BackfillChunk → Timestamp} {source : SourceRef} {max_attempts : Int}

/-- Every chunk has a job. -/
def HasJobs (db : Db) (source_id : Uuid) (ranges : List BackfillChunk) : Prop :=
  ∀ c ∈ ranges, ∃ row ∈ db.jobs.rows, row.ingests source_id ∧ row.range = some c.range

/-- A chunk that has a job is counted as existing. -/
theorem enqueue_chunk_of_job (inserted_jobs existing_jobs : Nat) {db : Db} {c : BackfillChunk}
    {row : JobRow} (hrow : row ∈ db.jobs.rows) (hingests : row.ingests source.id)
    (hrange : row.range = some c.range) (hfresh : FreshJobIds db) (hle : c.«from» ≤ c.«to»)
    (hto : c.«to» < 2 ^ 63) (hattempts : 0 < max_attempts) :
    enqueue_chunk now source max_attempts (inserted_jobs, existing_jobs, db) c
      = .ok (inserted_jobs, existing_jobs + 1, { db with next_uuid := db.next_uuid + 1 }) := by
  have hfromCast : as_i64 c.«from» = c.«from» := as_i64_of_lt (lt_of_le_of_lt hle hto)
  have htoCast : as_i64 c.«to» = c.«to» := as_i64_of_lt hto
  obtain ⟨hnewFrom, hnewTo⟩ := command_job_blocks .Backfill db.next_uuid source c.«from» c.«to»
    max_attempts
  obtain ⟨hrowFrom, hrowTo⟩ := JobRow.range_eq_some.1 hrange
  -- the job of the chunk has the same source, type and range as the row
  have hclash : Schema.Clash row ((RangeCommand.Backfill.job db.next_uuid source c.«from» c.«to»
      max_attempts).to_row (now c)) := by
    refine Or.inr (Or.inr ⟨?_, ?_, ?_, hingests.2, hingests.1, ?_, ?_⟩)
    · rw [hingests.2]
      exact Option.some_ne_none _
    · rw [hrowFrom]
      exact Option.some_ne_none _
    · rw [hrowTo]
      exact Option.some_ne_none _
    · refine Eq.trans ?_ hnewFrom.symm
      rw [hrowFrom, hfromCast]
      rfl
    · refine Eq.trans ?_ hnewTo.symm
      rw [hrowTo, htoCast]
      rfl
  have hid : row.id ≠ db.next_uuid := ne_of_lt (hfresh row hrow)
  have hmem : row ∈ ({ db with next_uuid := db.next_uuid + 1 } : Db).jobs.rows := hrow
  obtain ⟨found, hfound⟩ := enqueue_of_clash hmem hid
    (command_job_check hle hto hattempts) hclash
  unfold enqueue_chunk enqueue_range_job
  dsimp only
  rw [block_to_i64_of_lt (lt_of_le_of_lt hle hto), block_to_i64_of_lt hto, ok_bind, ok_bind,
    ← hfromCast, ← htoCast, chunk_job_eq, hfound]
  rfl

variable (now) in
/-- A loop over chunks that all have a job inserts nothing. -/
theorem enqueue_chunks_of_jobs {ranges : List BackfillChunk} (inserted_jobs existing_jobs : Nat)
    (db : Db) (hjobs : HasJobs db source.id ranges) (hfresh : FreshJobIds db)
    (hranges : ∀ c ∈ ranges, c.«from» ≤ c.«to» ∧ c.«to» < 2 ^ 63) (hattempts : 0 < max_attempts) :
    ∃ db', ranges.foldlM (enqueue_chunk now source max_attempts) (inserted_jobs, existing_jobs, db)
        = .ok (inserted_jobs, existing_jobs + ranges.length, db') ∧ db'.jobs = db.jobs := by
  induction ranges generalizing existing_jobs db with
  | nil => exact ⟨db, rfl, rfl⟩
  | cons c rest ih =>
    obtain ⟨row, hrow, hingests, hrange⟩ := hjobs c (List.mem_cons_self ..)
    obtain ⟨hle, hto⟩ := hranges c (List.mem_cons_self ..)
    -- only the next uuid is another, and every job is still there
    have hfresh' : FreshJobIds { db with next_uuid := db.next_uuid + 1 } :=
      fun r hr => Nat.lt_succ_of_lt (hfresh r hr)
    obtain ⟨db', hrest, hsame⟩ := ih (existing_jobs + 1)
      { db with next_uuid := db.next_uuid + 1 } (fun d hd => hjobs d (List.mem_cons_of_mem _ hd))
      hfresh' fun d hd => hranges d (List.mem_cons_of_mem _ hd)
    refine ⟨db', ?_, hsame⟩
    rw [List.foldlM_cons, enqueue_chunk_of_job _ _ hrow hingests hrange hfresh hle hto hattempts,
      ok_bind, hrest, List.length_cons, Nat.add_right_comm, Nat.add_assoc]

/-- The chunks of a split that is not behind its range. -/
theorem planned_ranges_eq_ok {first last range_size : Nat} (hsize : 0 < range_size) :
    planned_ranges first last range_size = .ok (split_from first last range_size) := by
  unfold planned_ranges
  by_cases hbehind : last < first
  · rw [if_pos hbehind, split_from, dif_neg (not_le.2 hbehind)]
  · rw [if_neg hbehind, split_inclusive_range_eq_ok hsize (not_lt.1 hbehind)]

/-- A chunk of a split begins before it ends, and ends with the split at the latest. -/
theorem split_from_bounds {first last range_size : Nat} (hlast : last ≤ u64_max)
    (hsize : 0 < range_size) {c : BackfillChunk} (hc : c ∈ split_from first last range_size) :
    c.«from» ≤ c.«to» ∧ c.«to» ≤ last := by
  by_cases hle : first ≤ last
  · have hcut := split_from_partitions hlast hsize hle
    have hnonempty := hcut.nonempty c hc
    exact ⟨hnonempty, ((hcut.union c.«to»).1 ⟨c, hc, hnonempty, le_refl _⟩).2⟩
  · rw [split_from, dif_neg hle] at hc
    cases hc

/-- What a plan that returns has checked, and the chunks it made. -/
theorem plan_backfill_jobs_ranges {db db' : Db} {«from» «to» range_size : Nat} {plan : BackfillPlan}
    (h : plan_backfill_jobs db now source «from» «to» range_size max_attempts = .ok (plan, db')) :
    «from» ≤ «to» ∧ plan.ranges = split_from (planned_from db source.id «from») «to» range_size := by
  unfold plan_backfill_jobs at h
  rw [bail_eq_ok, bail_eq_ok, bail_eq_ok] at h
  obtain ⟨-, hsize, hle, h⟩ := h
  simp only [bind_eq_ok] at h
  obtain ⟨_, -, _, -, ranges, hranges, ⟨inserted_jobs, existing_jobs, last⟩, -, h⟩ := h
  cases h
  rw [planned_ranges_eq_ok (Nat.pos_of_ne_zero hsize)] at hranges
  exact ⟨not_lt.1 hle, (Except.ok.inj hranges).symm⟩

variable (now) in
/-- A plan whose chunks all have a job inserts nothing. -/
theorem plan_backfill_jobs_of_jobs {db : Db} {«from» «to» range_size : Nat}
    (hle : «from» ≤ «to») (hto : «to» < 2 ^ 63) (hsize : 0 < range_size) (hfresh : FreshJobIds db)
    (hjobs : HasJobs db source.id
      (split_from (planned_from db source.id «from») «to» range_size))
    (hattempts : 0 < max_attempts) :
    ∃ plan db', plan_backfill_jobs db now source «from» «to» range_size max_attempts
        = .ok (plan, db') ∧
      plan.ranges = split_from (planned_from db source.id «from») «to» range_size ∧
      plan.inserted_jobs = 0 ∧ db'.jobs = db.jobs := by
  have hbounds : ∀ c ∈ split_from (planned_from db source.id «from») «to» range_size,
      c.«from» ≤ c.«to» ∧ c.«to» < 2 ^ 63 := by
    intro c hc
    have hlast : «to» ≤ u64_max := by
      unfold u64_max
      omega
    obtain ⟨hc, hcto⟩ := split_from_bounds hlast hsize hc
    exact ⟨hc, lt_of_le_of_lt hcto hto⟩
  obtain ⟨db', hloop, hsame⟩ := enqueue_chunks_of_jobs now 0 0 db hjobs hfresh hbounds
    hattempts
  unfold plan_backfill_jobs ensure_block_fits_i64
  rw [if_neg (not_le.2 hattempts), if_neg (Nat.pos_iff_ne_zero.1 hsize), if_neg (not_lt.2 hle),
    if_neg (not_le.2 (lt_of_le_of_lt hle hto)), if_neg (not_le.2 hto), ok_bind, ok_bind,
    planned_ranges_eq_ok hsize, ok_bind, hloop, ok_bind]
  exact ⟨_, _, rfl, rfl, rfl, hsame⟩

end Again

/-! ## Idempotence

No step deletes a job or changes what it is for, so a job found once is found after any run.
Together with the constraint on source, type and range this makes it the only one of its
kind.
-/

/-- The source, the type and the range tell the jobs of a table apart. -/
theorem Indexer.WellFormed.job_unique {s : Indexer} (hs : s.WellFormed) {a b : JobRow}
    (ha : a ∈ s.db.jobs.rows) (hb : b ∈ s.db.jobs.rows) (hsource : a.source_id = b.source_id)
    (htype : a.job_type = b.job_type) (hfrom : a.from_block = b.from_block)
    (hto : a.to_block = b.to_block) : a = b := by
  obtain ⟨command, id, source, from_block, to_block, max_attempts, now, hsame⟩ := hs.enqueued a ha
  obtain ⟨hnewFrom, hnewTo⟩ := command_job_blocks command id source from_block to_block max_attempts
  -- every job has a source and a range, so the partial index covers it
  have hranged : a.source_id ≠ none ∧ a.from_block ≠ none ∧ a.to_block ≠ none := by
    obtain ⟨hrowFrom, hrowTo⟩ := JobRow.range_eq_some.1 (hsame.range.trans
      (JobRow.range_eq_some.2 ⟨hnewFrom, hnewTo⟩))
    refine ⟨?_, ?_, ?_⟩
    · rw [hsame.source_id]
      exact Option.some_ne_none source.id
    · rw [hrowFrom]
      exact Option.some_ne_none _
    · rw [hrowTo]
      exact Option.some_ne_none _
  obtain ⟨hs1, hf1, ht1⟩ := hranged
  exact s.db.jobs.eq_of_clash ha hb (Or.inr (Or.inr ⟨hs1, hf1, ht1, hsource, htype, hfrom, hto⟩))

/-- A run keeps every job, for what it is. -/
theorem job_stays_along {parseAmount : AmountParser} {s t : Indexer} {ops : List IndexerOp}
    (hrun : Run (IndexerStep parseAmount) s ops t) {row : JobRow} (hrow : row ∈ s.db.jobs.rows) :
    ∃ new ∈ t.db.jobs.rows, new.SameJob row := by
  induction hrun with
  | nil => exact ⟨row, hrow, .refl row⟩
  | snoc _ hstep ih =>
    obtain ⟨mid, hmid, hsame⟩ := ih
    obtain ⟨new, hnew, hsame'⟩ := hstep.effect.job_stays hmid
    exact ⟨new, hnew, hsame'.trans hsame⟩

/-- Enqueueing is idempotent for every source, type and range: there is one job of each; a
command for a stored source returns a job of what it asked for, unless a check of the table
refuses the request itself; and a plan made again with the checkpoint where it was finds a job
for each of its chunks, however the indexer has gone on in between. -/
theorem enqueues_are_idempotent {parseAmount : AmountParser} {s : Indexer}
    (hs : IndexerReachable parseAmount s) :
    (∀ a ∈ s.db.jobs.rows, ∀ b ∈ s.db.jobs.rows, a.source_id = b.source_id →
      a.job_type = b.job_type → a.from_block = b.from_block → a.to_block = b.to_block → a = b) ∧
    (∀ source ∈ s.db.sources.rows, ∀ (command : RangeCommand) (from_block to_block : Nat)
        (max_attempts : Int) (now : Timestamp), from_block < 2 ^ 64 → to_block < 2 ^ 64 →
      let job := command.job s.db.next_uuid source.from_source from_block to_block max_attempts
      (∃ result db', enqueue { s.db with next_uuid := s.db.next_uuid + 1 } now job
          = .ok (result, db') ∧
        result.row.IsFor command source.id ((from_block : Int), (to_block : Int))) ∨
      ¬ Schema.Check (job.to_row now)) ∧
    (∀ source ∈ s.db.sources.rows, ∀ («from» «to» range_size : Nat) (max_attempts : Int)
        (now : BackfillChunk → Timestamp) (plan : BackfillPlan) (db' : Db),
      plan_backfill_jobs s.db now source.from_source «from» «to» range_size max_attempts
        = .ok (plan, db') →
      ∀ (ops : List IndexerOp) (t : Indexer),
        Run (IndexerStep parseAmount) (s.with_db db') ops t →
        checkpoint_for_source t.db source.id = checkpoint_for_source s.db source.id →
      ∀ (source' : SourceRef) (max_attempts' : Int) (now' : BackfillChunk → Timestamp),
        source'.id = source.id → 0 < max_attempts' →
        ∃ plan' db'', plan_backfill_jobs t.db now' source' «from» «to» range_size max_attempts'
            = .ok (plan', db'') ∧
          plan'.ranges = plan.ranges ∧ plan'.inserted_jobs = 0 ∧ db''.jobs = t.db.jobs) := by
  have hwf := hs.wellFormed
  refine ⟨fun a ha b hb => hwf.job_unique ha hb, ?_, ?_⟩
  · intro source _ command from_block to_block max_attempts now hfrom hto job
    by_cases hcheck : Schema.Check (job.to_row now)
    · left
      obtain ⟨hfromCast, htoCast, hle, htoFits, hattempts⟩ :=
        command_job_fits hfrom hto hcheck
      have hfresh : ∀ r ∈ s.db.jobs.rows, r.id ≠ s.db.next_uuid :=
        fun r hr => ne_of_lt (hs.freshJobIds r hr)
      have hfound : ∃ result db', enqueue { s.db with next_uuid := s.db.next_uuid + 1 } now job
          = .ok (result, db') := enqueue_command hfresh hle htoFits hattempts
      obtain ⟨result, db', hok⟩ := hfound
      have henqueued : ∀ r ∈ ({ s.db with next_uuid := s.db.next_uuid + 1 } : Db).jobs.rows,
          r.Enqueued := hwf.enqueued
      have hfor := enqueue_isFor henqueued hok
      rw [hfromCast, htoCast] at hfor
      exact ⟨result, db', hok, hfor⟩
    · exact Or.inr hcheck
  · intro source hsource «from» «to» range_size max_attempts now plan db' hplan ops t hrun hcheckpoint
      source' max_attempts' now' hid hattempts
    obtain ⟨hsize, hto, hplanned⟩ := plan_backfill_jobs_planned hplan hwf.enqueued
    obtain ⟨hle, hranges⟩ := plan_backfill_jobs_ranges hplan
    have ht : IndexerReachable parseAmount t := by
      obtain ⟨init, l, hinit, hl⟩ := plan_backfill_jobs_reachable hs hsource hplan
      exact ⟨init, l ++ ops, hinit, hl.append hrun⟩
    -- the plan begins where it began, so it has the same chunks
    have hbegin : planned_from t.db source'.id «from» = planned_from s.db source.id «from» := by
      unfold planned_from
      rw [hid, hcheckpoint]
    have hjobs : HasJobs t.db source'.id
        (split_from (planned_from t.db source'.id «from») «to» range_size) := by
      intro c hc
      rw [hbegin] at hc
      obtain ⟨row, hrow, hingests, hrange, -⟩ := hplanned.has c hc
      obtain ⟨new, hnew, hsame⟩ := job_stays_along hrun hrow
      exact ⟨new, hnew, hid ▸ hsame.ingests_iff.2 hingests, hsame.range.trans hrange⟩
    obtain ⟨plan', db'', hok, hranges', hinserted, hkept⟩ := plan_backfill_jobs_of_jobs
      now' hle hto hsize ht.freshJobIds hjobs hattempts
    refine ⟨plan', db'', hok, ?_, hinserted, hkept⟩
    rw [hranges', hbegin, hranges]
    rfl

/-- An ingest job that a backfill of the same blocks meets. -/
theorem enqueues_are_idempotent_ingest_then_backfill :
    let s := Indexer.after plain_digits [ensure_token 100, .enqueue .Ingest 0 100 109 3 0]
    ∃ source ∈ s.db.sources.rows, ∃ result db', enqueue { s.db with next_uuid := s.db.next_uuid + 1 }
        5 (RangeCommand.Backfill.job s.db.next_uuid source.from_source 100 109 3)
          = .ok (result, db') ∧
      result.row.IsFor .Backfill source.id (100, 109) := by
  intro s
  have hsource : ∃ source ∈ s.db.sources.rows, Schema.Check
      ((RangeCommand.Backfill.job s.db.next_uuid source.from_source 100 109 3).to_row 5) := by
    decide +kernel
  obtain ⟨source, hmem, hcheck⟩ := hsource
  have hidempotent := enqueues_are_idempotent (reachable_of_possible (by decide +kernel) :
    IndexerReachable plain_digits s)
  rcases hidempotent.2.1 source hmem .Backfill 100 109 3 5 (by decide) (by decide) with hok | hrefused
  · obtain ⟨result, db', hok, hfor⟩ := hok
    exact ⟨source, hmem, result, db', hok, hfor⟩
  · exact absurd hcheck hrefused

end EvmIndexer
