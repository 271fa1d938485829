/-
What a backfill plan leaves to be ingested.

A plan that returns covers every block it did not skip, up to the jobs it found:
each of its chunks has a job, the one it inserted or one that was there. Two
kinds of blocks can be lost. A block behind the checkpoint is skipped, whether
or not a job covers it; and a job that is there already is counted as it is, also
when it was dead-lettered, failed or cancelled and no worker will take it again.
`planned_blocks_are_covered` says that no block is lost just when these blocks are
covered before the plan.

That a job found under the key of a chunk is the job of that chunk is an
invariant of the indexer: keys are made of the command, the source and the two
blocks, and can be read back (`idempotency_key_inj`).
-/
import EvmIndexer.Backfill
import EvmIndexer.Interleaving
import EvmIndexer.Ledger

set_option autoImplicit false

namespace EvmIndexer

open Sql Transition

/-! ## Keys

The idempotency key of a job is text: the command, the identifier of the source and the two
blocks, with colons between. None of the four parts holds a colon, and a number is read back
from its digits, so two jobs with one key are of one command, for one source and the same
blocks.
-/

theorem idempotency_key_toList (command : RangeCommand) (source_id : Uuid)
    (from_block to_block : Nat) :
    (command.idempotency_key source_id from_block to_block).toList = command.key.toList ++ ':' ::
      ((toString source_id).toList ++ ':' ::
        ((toString from_block).toList ++ ':' :: (toString to_block).toList)) := by
  unfold RangeCommand.idempotency_key
  have hcolon : (":" : String).toList = [':'] := rfl
  simp only [String.toList_append, hcolon, List.append_assoc, List.cons_append, List.nil_append]

/-- A key says which command enqueued the job, for which source and blocks. -/
theorem idempotency_key_inj {command command' : RangeCommand} {source_id source_id' : Uuid}
    {from_block from_block' to_block to_block' : Nat}
    (h : command.idempotency_key source_id from_block to_block
      = command'.idempotency_key source_id' from_block' to_block') :
    command = command' ∧ source_id = source_id' ∧ from_block = from_block' ∧
      to_block = to_block' := by
  have hlists := congrArg String.toList h
  rw [idempotency_key_toList, idempotency_key_toList] at hlists
  have hcommand : ∀ c : RangeCommand, ':' ∉ c.key.toList := by
    intro c
    cases c <;> decide
  obtain ⟨hkey, hlists⟩ := append_separator_inj (hcommand command) (hcommand command') hlists
  obtain ⟨hsource, hlists⟩ := append_separator_inj (colon_not_mem_toString _)
    (colon_not_mem_toString _) hlists
  obtain ⟨hfrom, hto⟩ := append_separator_inj (colon_not_mem_toString _)
    (colon_not_mem_toString _) hlists
  refine ⟨?_, toString_inj hsource, toString_inj hfrom, toString_inj hto⟩
  cases command <;> cases command' <;> first | rfl | exact absurd hkey (by decide)

/-! ## Chunks

The blocks are planned in chunks of one size, the last of them shorter. Which chunk a block
is in depends on where the split starts, and a plan starts past the checkpoint; `chunk_of` is
the chunk by that start, and the only one of the split that holds the block.
-/

/-- The chunk of a split from `first` on that contains the block. -/
def chunk_of (first «to» range_size b : Nat) : BackfillChunk :=
  { «from» := b - (b - first) % range_size
    «to» := chunk_end (b - (b - first) % range_size) «to» range_size }

theorem chunk_of_first {first «to» range_size b : Nat} (hfirst : first ≤ b)
    (hb : b < first + range_size) : chunk_of first «to» range_size b =
      { «from» := first, «to» := chunk_end first «to» range_size } := by
  have hmod : (b - first) % range_size = b - first := Nat.mod_eq_of_lt (by omega)
  have hbegin : b - (b - first) = first := by omega
  unfold chunk_of
  rw [hmod, hbegin]

theorem chunk_of_next {first «to» range_size b : Nat} (hb : first + range_size ≤ b) :
    chunk_of (first + range_size) «to» range_size b = chunk_of first «to» range_size b := by
  have hmod : (b - first) % range_size = (b - (first + range_size)) % range_size := by
    have hsplit : b - first = b - (first + range_size) + range_size := by omega
    rw [hsplit, Nat.add_mod_right]
  unfold chunk_of
  rw [hmod]

/-- A chunk is cut to the range size, or ends the split. -/
theorem chunk_end_cases (first : Nat) {«to» range_size : Nat} (hto : «to» < u64_max)
    (hsize : 0 < range_size) :
    chunk_end first «to» range_size ≠ u64_max ∧
      ((chunk_end first «to» range_size + 1 = first + range_size ∧
          chunk_end first «to» range_size ≤ «to») ∨
        (chunk_end first «to» range_size = «to» ∧ «to» < first + range_size)) := by
  unfold chunk_end u64_saturating_add u64_max at *
  omega

/-- The chunk of every block is in the split. -/
theorem chunk_of_mem_split_from {first «to» range_size b : Nat} (hto : «to» < u64_max)
    (hsize : 0 < range_size) (hfirst : first ≤ b) (hb : b ≤ «to») :
    chunk_of first «to» range_size b ∈ split_from first «to» range_size := by
  fun_induction split_from first «to» range_size with
  | case1 first hmore ih =>
    obtain ⟨hend, hcases⟩ := chunk_end_cases first hto hsize
    rw [dif_neg hend]
    by_cases hin : b < first + range_size
    · rw [chunk_of_first hfirst hin]
      exact List.mem_cons_self ..
    · have hnext : chunk_end first «to» range_size + 1 = first + range_size := by omega
      refine List.mem_cons_of_mem _ ?_
      have hrest := ih hend (by omega)
      rw [hnext] at hrest ⊢
      rwa [← chunk_of_next (not_lt.1 hin)]
  | case2 first hmore => omega

/-- A chunk of the split begins at or after its first block, and is the chunk of
each of its blocks. -/
theorem mem_split_from {first «to» range_size : Nat} (hto : «to» < u64_max) (hsize : 0 < range_size)
    {c : BackfillChunk} (hc : c ∈ split_from first «to» range_size) :
    first ≤ c.«from» ∧ ∀ b, c.«from» ≤ b → b ≤ c.«to» → chunk_of first «to» range_size b = c := by
  fun_induction split_from first «to» range_size with
  | case1 first hmore ih =>
    obtain ⟨hend, hcases⟩ := chunk_end_cases first hto hsize
    rw [dif_neg hend] at hc
    rcases List.mem_cons.1 hc with rfl | hrest
    · refine ⟨le_refl _, fun b hfirst hb => chunk_of_first hfirst ?_⟩
      dsimp only at hb
      omega
    · rcases hcases with ⟨hnext, -⟩ | ⟨hlast, -⟩
      · obtain ⟨hle, hchunk⟩ := ih hend hrest
        rw [hnext] at hle hchunk
        refine ⟨by omega, fun b hfrom hb => ?_⟩
        rw [← chunk_of_next (by omega)]
        exact hchunk b hfrom hb
      · rw [hlast, split_from, dif_neg (by omega)] at hrest
        cases hrest
  | case2 first hmore => cases hc

/-! ## Blocks a plan leaves alone

A plan enqueues nothing in two cases: for the blocks that are behind the checkpoint, and for
a chunk that has a job already. Neither case looks at whether the blocks were or will be
ingested. A checkpoint can be ahead of them when the start block was moved down, and a job
can be dead-lettered.
-/

/-- A worker has ingested the job, or can still ingest it. -/
def JobRow.Live (row : JobRow) : Prop :=
  row.status = .Queued ∨ row.status = .Leased ∨ row.status = .Running ∨ row.status = .Succeeded

instance (row : JobRow) : Decidable row.Live := inferInstanceAs (Decidable (_ ∨ _))

/-- The range of a chunk, as the columns of a job. -/
def BackfillChunk.range (c : BackfillChunk) : Int × Int := (c.«from», c.«to»)

/-- A checkpoint of the source reaches the block. -/
def Db.BehindCheckpoint (db : Db) (source_id : Uuid) (b : Int) : Prop :=
  ∃ c ∈ db.checkpoints.rows, c.source_id = source_id ∧ b ≤ c.processed_block

/-- There is an ingest job of exactly this chunk, and no worker will take it. -/
def Db.HasDeadJob (db : Db) (source_id : Uuid) (c : BackfillChunk) : Prop :=
  ∃ row ∈ db.jobs.rows, row.ingests source_id ∧ row.range = some c.range ∧ ¬ row.Live

/-- Every block of the range lies in an ingest job that succeeded or can still be
ingested. -/
def Db.RangeCovered (db : Db) (source_id : Uuid) («from» «to» : Nat) : Prop :=
  ∀ b : Nat, «from» ≤ b → b ≤ «to» → db.ingest_covers source_id JobRow.Live b

/-- The blocks a plan leaves alone are covered before it: those behind the checkpoint, and
those whose chunk has a job no worker will take. Covered means by some ingest job of the
source that succeeded or can still be ingested, whatever its range. -/
def Db.LeftAloneCovered (db : Db) (source_id : Uuid) («from» «to» range_size : Nat) : Prop :=
  ∀ b : Nat, «from» ≤ b → b ≤ «to» →
    (db.BehindCheckpoint source_id b ∨
      db.HasDeadJob source_id (chunk_of (planned_from db source_id «from») «to» range_size b)) →
    db.ingest_covers source_id JobRow.Live b

/-- A plan begins past the blocks behind the checkpoint. These it leaves alone, whatever has
become of them, and the others are in one of its chunks. -/
theorem lt_planned_from_iff {db : Db} {source_id : Uuid} {«from» b : Nat} (hfrom : «from» ≤ b)
    (hb : b < 2 ^ 63) : b < planned_from db source_id «from» ↔ db.BehindCheckpoint source_id b := by
  unfold planned_from
  cases hc : checkpoint_for_source db source_id with
  | none =>
    constructor
    · intro hlt
      exact absurd hlt (not_lt.2 hfrom)
    · rintro ⟨c, hmem, hid, -⟩
      rw [checkpoint_for_source_eq_some.2 ⟨hmem, hid⟩] at hc
      cases hc
  | some c =>
    obtain ⟨hmem, hid⟩ := checkpoint_for_source_eq_some.1 hc
    have hnonneg : 0 ≤ c.processed_block := (db.checkpoints.checked c hmem).1
    -- the block after the checkpoint; at the top of `u64` there is none, and `b` is below it
    have hmax : b < max «from» (u64_saturating_add c.processed_block.toNat 1) ↔
        (b : Int) ≤ c.processed_block := by
      unfold u64_saturating_add u64_max
      omega
    simp only [if_pos hnonneg, hmax]
    constructor
    · intro hle
      exact ⟨c, hmem, hid, hle⟩
    · rintro ⟨c', hmem', hid', hle⟩
      have hsame : c' = c := db.checkpoints.eq_of_clash hmem' hmem (Or.inr (hid'.trans hid.symm))
      exact hsame ▸ hle

/-! ## Enqueueing a chunk

An enqueue inserts a job unless that clashes with a stored one, by its key or by its source,
type and range, and otherwise returns the stored one. So after it there is a job for exactly
the chunk. Whether that job is live is what the plan does not ask.
-/

/-- What enqueueing chunks does to the jobs. -/
structure Planned (source_id : Uuid) (ranges : List BackfillChunk) (db db' : Db) : Prop where
  keeps : ∀ row ∈ db.jobs.rows, row ∈ db'.jobs.rows
  adds : ∀ row ∈ db'.jobs.rows, row ∈ db.jobs.rows ∨ (row.status = .Queued ∧
    ∃ c ∈ ranges, row.range = some c.range ∧
      ∀ old ∈ db.jobs.rows, old.ingests source_id → old.range ≠ some c.range)
  has : ∀ c ∈ ranges, ∃ row ∈ db'.jobs.rows, row.ingests source_id ∧ row.range = some c.range ∧
    (row ∈ db.jobs.rows ∨ row.status = .Queued)
  enqueued : (∀ row ∈ db.jobs.rows, row.Enqueued) → ∀ row ∈ db'.jobs.rows, row.Enqueued

/-- An enqueue that inserts finds no job of the same source, type and range; one
that does not returns the job it found, by its key or by these. -/
theorem enqueue_result {db db' : Db} {now : Timestamp} {job : NewJob} {result : EnqueueResult}
    (h : enqueue db now job = .ok (result, db')) :
    (result = .Inserted (job.to_row now) ∧ db'.jobs.rows = db.jobs.rows ++ [job.to_row now] ∧
        ∀ old ∈ db.jobs.rows, ¬ old.same_source_range (job.to_row now)) ∨
      (db' = db ∧ ∃ row ∈ db.jobs.rows, result = .Existing row ∧
        (row.idempotency_key = job.idempotency_key ∨
          (row.source_id = job.source_id ∧ row.job_type = job.job_type ∧
            row.from_block = job.from_block ∧ row.to_block = job.to_block))) := by
  unfold enqueue at h
  split at h
  · split at h
    · rename_i jobs hinsert
      cases h
      obtain ⟨⟨-, hfree⟩, hrows⟩ := Table.insert_eq_some.1 hinsert
      exact Or.inl ⟨rfl, hrows, fun old hold hsame => hfree old hold (Or.inr (Or.inr hsame))⟩
    · -- the insert conflicts, so the job it conflicts with is looked up
      obtain ⟨row, hconflict, hrow⟩ := map_eq_ok.1 h
      cases hrow
      refine Or.inr ⟨rfl, row, ?_⟩
      unfold existing_enqueue_conflict at hconflict
      split at hconflict
      · -- by its key
        rename_i found hfind
        have hkey := List.find?_some hfind
        cases hconflict
        exact ⟨List.mem_of_find?_eq_some hfind, rfl, Or.inl (by simpa using hkey)⟩
      · split at hconflict
        · -- by its source, type and range
          rename_i source_id from_block to_block hsource hfrom hto
          split at hconflict
          · rename_i found hfind
            have hsame := List.find?_some hfind
            simp only [Bool.and_eq_true, beq_iff_eq] at hsame
            obtain ⟨⟨⟨hfs, hft⟩, hff⟩, hfto⟩ := hsame
            cases hconflict
            exact ⟨List.mem_of_find?_eq_some hfind, rfl, Or.inr ⟨hfs.trans hsource.symm, hft,
              hff.trans hfrom.symm, hfto.trans hto.symm⟩⟩
          · cases hconflict
        · cases hconflict
  · cases h

section Plan

variable {now : BackfillChunk → Timestamp} {source : SourceRef} {max_attempts : Int}

/-- A job found under the key of a command is of its type, for its source and blocks. -/
theorem JobRow.Enqueued.of_key {row : JobRow} (h : row.Enqueued) {command : RangeCommand}
    {source_id : Uuid} {from_block to_block : Nat}
    (hkey : row.idempotency_key = command.idempotency_key source_id from_block to_block) :
    row.job_type = command.job_type ∧ row.source_id = some source_id ∧
      row.range = some (as_i64 from_block, as_i64 to_block) := by
  obtain ⟨enqueuer, id, source, first, last, max_attempts, now, hsame⟩ := h
  have hkeys : enqueuer.idempotency_key source.id first last
      = command.idempotency_key source_id from_block to_block :=
    hsame.idempotency_key.symm.trans hkey
  obtain ⟨rfl, rfl, rfl, rfl⟩ := idempotency_key_inj hkeys
  exact ⟨hsame.job_type, hsame.source_id, hsame.range⟩

/-- The blocks of a job that a command enqueues. -/
theorem command_job_blocks (command : RangeCommand) (id : Uuid) (source : SourceRef)
    (from_block to_block : Nat) (max_attempts : Int) :
    (command.job id source from_block to_block max_attempts).from_block
        = some (as_i64 from_block, as_i64 to_block).1 ∧
      (command.job id source from_block to_block max_attempts).to_block
        = some (as_i64 from_block, as_i64 to_block).2 := by
  unfold RangeCommand.job
  generalize as_i64 from_block = first
  generalize as_i64 to_block = last
  exact ⟨rfl, rfl⟩

/-- What `enqueue_chunk` enqueues is the job `backfill-contract` has for the
blocks of the chunk. -/
theorem chunk_job_eq (id : Uuid) (c : BackfillChunk) :
    NewRangeJob.to_job
      { job_type := .IngestRange
        source_id := source.id
        chain_id := source.chain_id
        from_block := as_i64 c.«from»
        to_block := as_i64 c.«to»
        idempotency_key := RangeCommand.Backfill.idempotency_key source.id c.«from» c.«to»
        max_attempts } id
      = RangeCommand.Backfill.job id source c.«from» c.«to» max_attempts := by
  unfold NewRangeJob.to_job RangeCommand.job
  generalize as_i64 c.«from» = from_block
  generalize as_i64 c.«to» = to_block
  rfl

/-- Enqueueing a chunk is enqueueing its job; the blocks fit a `BIGINT`. -/
theorem enqueue_chunk_eq_ok {progress progress' : Nat × Nat × Db} {c : BackfillChunk}
    (h : enqueue_chunk now source max_attempts progress c = .ok progress') :
    as_i64 c.«from» = c.«from» ∧ as_i64 c.«to» = c.«to» ∧
      ∃ result, enqueue { progress.2.2 with next_uuid := progress.2.2.next_uuid + 1 } (now c)
        (RangeCommand.Backfill.job progress.2.2.next_uuid source c.«from» c.«to» max_attempts)
          = .ok (result, progress'.2.2) := by
  obtain ⟨inserted_jobs, existing_jobs, db⟩ := progress
  unfold enqueue_chunk enqueue_range_job at h
  simp only [bind_eq_ok, context_eq_ok] at h
  obtain ⟨from_block, hfrom, to_block, hto, ⟨result, db'⟩, ⟨⟨row, db''⟩, henqueue, hresult⟩, h⟩ := h
  -- a job that was there or not, the loop goes on with the same tables
  have hdb : progress'.2.2 = db'' := by
    cases row with
    | Inserted row =>
      cases hresult
      cases h
      rfl
    | Existing row =>
      cases hresult
      cases h
      rfl
  obtain ⟨hfromValue, hfromCast⟩ := block_to_i64_eq_ok hfrom
  obtain ⟨htoValue, htoCast⟩ := block_to_i64_eq_ok hto
  rw [hfromValue, htoValue, chunk_job_eq] at henqueue
  exact ⟨hfromCast, htoCast, row, hdb ▸ henqueue⟩

/-- Inserting the job of a chunk that had none. The new row is queued, so the chunk is
covered by it, and no other row of the table has moved. -/
theorem Planned.inserted {source_id : Uuid} {c : BackfillChunk} {db db' : Db} {row : JobRow}
    (hrows : db'.jobs.rows = db.jobs.rows ++ [row]) (hqueued : row.status = .Queued)
    (hingests : row.ingests source_id) (hrange : row.range = some c.range)
    (henqueued : row.Enqueued) (hfree : ∀ old ∈ db.jobs.rows, ¬ old.same_source_range row) :
    Planned source_id [c] db db' := by
  have hmem : ∀ r, r ∈ db'.jobs.rows ↔ r ∈ db.jobs.rows ∨ r = row := by
    intro r
    rw [hrows, List.mem_append, List.mem_singleton]
  obtain ⟨hfrom, hto⟩ := JobRow.range_eq_some.1 hrange
  refine ⟨fun r hr => (hmem r).2 (Or.inl hr), fun r hr => ?_, fun d hd => ?_, fun hall r hr => ?_⟩
  · rcases (hmem r).1 hr with hold | rfl
    · exact Or.inl hold
    · refine Or.inr ⟨hqueued, c, List.mem_singleton_self c, hrange, fun old hold hoIngests hoRange => ?_⟩
      obtain ⟨hoFrom, hoTo⟩ := JobRow.range_eq_some.1 hoRange
      -- the index that would refuse the job skips rows with a null in them
      have hsource : old.source_id ≠ none := by
        rw [hoIngests.2]
        exact Option.some_ne_none _
      have hoFromSome : old.from_block ≠ none := by
        rw [hoFrom]
        exact Option.some_ne_none _
      have hoToSome : old.to_block ≠ none := by
        rw [hoTo]
        exact Option.some_ne_none _
      exact hfree old hold ⟨hsource, hoFromSome, hoToSome, hoIngests.2.trans hingests.2.symm,
        hoIngests.1.trans hingests.1.symm, hoFrom.trans hfrom.symm, hoTo.trans hto.symm⟩
  · rw [List.mem_singleton.1 hd]
    exact ⟨row, (hmem row).2 (Or.inr rfl), hingests, hrange, Or.inr hqueued⟩
  · rcases (hmem r).1 hr with hold | rfl
    · exact hall r hold
    · exact henqueued

/-- Finding a job of the chunk. -/
theorem Planned.found {source_id : Uuid} {c : BackfillChunk} {db db' : Db} {row : JobRow}
    (hjobs : db'.jobs = db.jobs) (hrow : row ∈ db.jobs.rows) (hingests : row.ingests source_id)
    (hrange : row.range = some c.range) : Planned source_id [c] db db' := by
  refine ⟨fun r hr => hjobs ▸ hr, fun r hr => Or.inl (hjobs ▸ hr), fun d hd => ?_,
    fun hall r hr => hall r (hjobs ▸ hr)⟩
  rw [List.mem_singleton.1 hd]
  exact ⟨row, hjobs ▸ hrow, hingests, hrange, Or.inl hrow⟩

theorem enqueue_chunk_planned {progress progress' : Nat × Nat × Db} {c : BackfillChunk}
    (h : enqueue_chunk now source max_attempts progress c = .ok progress')
    (henqueued : ∀ row ∈ progress.2.2.jobs.rows, row.Enqueued) :
    Planned source.id [c] progress.2.2 progress'.2.2 := by
  obtain ⟨hfromCast, htoCast, result, henqueue⟩ := enqueue_chunk_eq_ok h
  have hrange : some (as_i64 c.«from», as_i64 c.«to») = some c.range := by
    unfold BackfillChunk.range
    rw [hfromCast, htoCast]
  have hblocks := command_job_blocks .Backfill progress.2.2.next_uuid source c.«from» c.«to»
    max_attempts
  rcases enqueue_result henqueue with ⟨-, hrows, hfree⟩ | ⟨hsame, found, hfound, -, hmatch⟩
  · have hnewRange : ((RangeCommand.Backfill.job progress.2.2.next_uuid source c.«from» c.«to»
        max_attempts).to_row (now c)).range = some (as_i64 c.«from», as_i64 c.«to») :=
      JobRow.range_eq_some.2 hblocks
    exact Planned.inserted hrows rfl ⟨rfl, rfl⟩ (hnewRange.trans hrange)
      ⟨_, _, _, _, _, _, _, .refl _⟩ hfree
  · have hjobs : progress'.2.2.jobs = progress.2.2.jobs := by rw [hsame]
    rcases hmatch with hkey | ⟨hsource, htype, hfromBlock, htoBlock⟩
    · obtain ⟨htype, hsource, hfoundRange⟩ := (henqueued found hfound).of_key hkey
      exact Planned.found hjobs hfound ⟨htype, hsource⟩ (hfoundRange.trans hrange)
    · have hfoundRange := JobRow.range_eq_some.2
        ⟨hfromBlock.trans hblocks.1, htoBlock.trans hblocks.2⟩
      exact Planned.found hjobs hfound ⟨htype, hsource⟩ (hfoundRange.trans hrange)

theorem Planned.refl (source_id : Uuid) (db : Db) : Planned source_id [] db db :=
  ⟨fun _ => id, fun _ => Or.inl, fun _ hc => absurd hc List.not_mem_nil, id⟩

/-- Enqueueing one chunk after the others is enqueueing them all. -/
theorem Planned.cons {source_id : Uuid} {c : BackfillChunk} {rest : List BackfillChunk}
    {db mid db' : Db} (h : Planned source_id [c] db mid) (k : Planned source_id rest mid db') :
    Planned source_id (c :: rest) db db' := by
  have hback : ∀ row ∈ mid.jobs.rows, row ∈ db.jobs.rows ∨ row.status = .Queued :=
    fun row hrow => (h.adds row hrow).imp id And.left
  refine ⟨fun row hrow => k.keeps row (h.keeps row hrow), fun row hrow => ?_, fun d hd => ?_,
    fun hall => k.enqueued (h.enqueued hall)⟩
  · rcases k.adds row hrow with hmid | ⟨hqueued, d, hd, hrange, hfree⟩
    · rcases h.adds row hmid with hold | ⟨hqueued, d, hd, hrange, hfree⟩
      · exact Or.inl hold
      · exact Or.inr ⟨hqueued, d, List.mem_cons.2 (Or.inl (List.mem_singleton.1 hd)), hrange, hfree⟩
    · exact Or.inr ⟨hqueued, d, List.mem_cons_of_mem _ hd, hrange,
        fun old hold => hfree old (h.keeps old hold)⟩
  · rcases List.mem_cons.1 hd with rfl | hd
    · obtain ⟨row, hrow, hingests, hrange, hstatus⟩ := h.has d (List.mem_singleton_self d)
      exact ⟨row, k.keeps row hrow, hingests, hrange, hstatus⟩
    · obtain ⟨row, hrow, hingests, hrange, hmid | hqueued⟩ := k.has d hd
      · exact ⟨row, hrow, hingests, hrange, hback row hmid⟩
      · exact ⟨row, hrow, hingests, hrange, Or.inr hqueued⟩

theorem enqueue_chunks_planned {ranges : List BackfillChunk} {progress progress' : Nat × Nat × Db}
    (h : ranges.foldlM (enqueue_chunk now source max_attempts) progress = .ok progress')
    (henqueued : ∀ row ∈ progress.2.2.jobs.rows, row.Enqueued) :
    Planned source.id ranges progress.2.2 progress'.2.2 := by
  induction ranges generalizing progress with
  | nil =>
    rw [List.foldlM_nil, pure_eq_ok] at h
    rw [h]
    exact Planned.refl _ _
  | cons c rest ih =>
    rw [List.foldlM_cons, bind_eq_ok] at h
    obtain ⟨mid, hc, hrest⟩ := h
    have hfirst := enqueue_chunk_planned hc henqueued
    exact hfirst.cons (ih hrest (hfirst.enqueued henqueued))

/-! ## The plan

The loop over the chunks is put together from the steps (`Planned.cons`): every chunk has a
job after it, jobs that were there are as they were, and those that are new are queued. What
that says of a block depends on whether its chunk had a dead job, which is the condition.
-/

/-- A plan that returns has enqueued the chunks from where it begins on. -/
theorem plan_backfill_jobs_planned {db db' : Db} {«from» «to» range_size : Nat}
    {plan : BackfillPlan}
    (h : plan_backfill_jobs db now source «from» «to» range_size max_attempts = .ok (plan, db'))
    (henqueued : ∀ row ∈ db.jobs.rows, row.Enqueued) :
    0 < range_size ∧ «to» < 2 ^ 63 ∧ Planned source.id
      (split_from (planned_from db source.id «from») «to» range_size) db db' := by
  unfold plan_backfill_jobs ensure_block_fits_i64 at h
  rw [bail_eq_ok, bail_eq_ok, bail_eq_ok] at h
  obtain ⟨-, hsize, -, h⟩ := h
  simp only [bind_eq_ok, bail_eq_ok] at h
  obtain ⟨_, -, _, hto, ranges, hranges, ⟨inserted_jobs, existing_jobs, last⟩, hloop, h⟩ := h
  cases h
  have hsplit : ranges = split_from (planned_from db source.id «from») «to» range_size := by
    unfold planned_ranges at hranges
    split at hranges
    · rename_i hbehind
      rw [split_from, dif_neg (not_le.2 hbehind)]
      exact (Except.ok.inj hranges).symm
    · unfold split_inclusive_range at hranges
      rw [bail_eq_ok, bail_eq_ok] at hranges
      exact (Except.ok.inj hranges.2.2).symm
  rw [hsplit] at hloop
  exact ⟨Nat.pos_of_ne_zero hsize, not_le.1 hto.1, enqueue_chunks_planned hloop henqueued⟩

/-- A plan that returns leaves every block of its range covered just when the
blocks it leaves alone are covered before it. -/
theorem planned_blocks_are_covered {parseAmount : AmountParser} {s : Indexer}
    (hs : IndexerReachable parseAmount s) {db' : Db} {«from» «to» range_size : Nat}
    {plan : BackfillPlan} (hplan : plan_backfill_jobs s.db now source «from» «to» range_size
      max_attempts = .ok (plan, db')) :
    db'.RangeCovered source.id «from» «to» ↔
      s.db.LeftAloneCovered source.id «from» «to» range_size := by
  obtain ⟨hsize, htoFits, hplanned⟩ := plan_backfill_jobs_planned hplan hs.wellFormed.enqueued
  have hto : «to» < u64_max := by
    unfold u64_max
    omega
  constructor
  · -- a block that is left alone is in no chunk that was inserted
    intro hcovered b hfrom hb hleft
    obtain ⟨row, hrow, hingests, hlive, r, hr, hcontains⟩ := hcovered b hfrom hb
    rcases hplanned.adds row hrow with hold | ⟨-, c, hc, hrange, hfree⟩
    · exact ⟨row, hold, hingests, hlive, r, hr, hcontains⟩
    · obtain ⟨hbegin, hchunk⟩ := mem_split_from hto hsize hc
      obtain rfl := Option.some_inj.1 (hr.symm.trans hrange)
      have hcFrom : c.«from» ≤ b := Int.ofNat_le.1 hcontains.1
      have hcTo : b ≤ c.«to» := Int.ofNat_le.1 hcontains.2
      rcases hleft with hbehind | ⟨dead, hdead, hdeadIngests, hdeadRange, -⟩
      · have hskipped := (lt_planned_from_iff hfrom (by omega)).2 hbehind
        omega
      · rw [hchunk b hcFrom hcTo] at hdeadRange
        exact absurd hdeadRange (hfree dead hdead hdeadIngests)
  · -- any other block lies in a chunk, and the chunk has a job that is live
    intro hleft b hfrom hb
    have hkept : s.db.ingest_covers source.id JobRow.Live b →
        db'.ingest_covers source.id JobRow.Live b := by
      rintro ⟨row, hrow, hingests, hlive, hcontains⟩
      exact ⟨row, hplanned.keeps row hrow, hingests, hlive, hcontains⟩
    -- either the checkpoint has passed the block, or its chunk is planned
    by_cases hbehind : s.db.BehindCheckpoint source.id b
    · exact hkept (hleft b hfrom hb (Or.inl hbehind))
    · have hbegin : planned_from s.db source.id «from» ≤ b := by
        by_contra hlt
        exact hbehind ((lt_planned_from_iff hfrom (by omega)).1 (not_le.1 hlt))
      have hmem := chunk_of_mem_split_from hto hsize hbegin hb
      have hcontains : Coverage.Contains
          (chunk_of (planned_from s.db source.id «from») «to» range_size b).range b := by
        have hmod := Nat.mod_lt (b - planned_from s.db source.id «from») hsize
        unfold Coverage.Contains BackfillChunk.range chunk_of chunk_end u64_saturating_add
        unfold u64_max at *
        dsimp only
        omega
      obtain ⟨row, hrow, hingests, hrange, hstatus⟩ := hplanned.has _ hmem
      by_cases hlive : row.Live
      · exact ⟨row, hrow, hingests, hlive, _, hrange, hcontains⟩
      · rcases hstatus with hold | hqueued
        · exact hkept (hleft b hfrom hb (Or.inr ⟨row, hold, hingests, hrange, hlive⟩))
        · exact absurd (Or.inl hqueued) hlive

/-- A plan for a stored source is a run of `backfill-contract` enqueueing its
chunks, so what holds in every reachable state holds after it. -/
theorem plan_backfill_jobs_reachable {parseAmount : AmountParser} {s : Indexer}
    (hs : IndexerReachable parseAmount s) {stored : SourceRow} (hstored : stored ∈ s.db.sources.rows)
    {db' : Db} {«from» «to» range_size : Nat} {plan : BackfillPlan}
    (hplan : plan_backfill_jobs s.db now stored.from_source «from» «to» range_size max_attempts
      = .ok (plan, db')) : IndexerReachable parseAmount (s.with_db db') := by
  -- each chunk of the loop is one enqueue step
  have hloop : ∀ (ranges : List BackfillChunk) (progress progress' : Nat × Nat × Db),
      ranges.foldlM (enqueue_chunk now stored.from_source max_attempts) progress = .ok progress' →
      stored ∈ progress.2.2.sources.rows →
      IndexerReachable parseAmount (s.with_db progress.2.2) →
      IndexerReachable parseAmount (s.with_db progress'.2.2) := by
    intro ranges
    induction ranges with
    | nil =>
      intro progress progress' h _ hreach
      rw [List.foldlM_nil, pure_eq_ok] at h
      exact h ▸ hreach
    | cons c rest ih =>
      intro progress progress' h hmem hreach
      rw [List.foldlM_cons, bind_eq_ok] at h
      obtain ⟨mid, hc, hrest⟩ := h
      obtain ⟨-, -, result, henqueue⟩ := enqueue_chunk_eq_ok hc
      have hsources : mid.2.2.sources = progress.2.2.sources := (enqueue_onlyQueue henqueue).sources
      have hstep : IndexerStep parseAmount (s.with_db progress.2.2)
          (.enqueue .Backfill stored.id c.«from» c.«to» max_attempts (now c))
          (s.with_db mid.2.2) :=
        ⟨s.with_db mid.2.2, exec_enqueue hmem henqueue, Db.SameRows.refl _, rfl, rfl⟩
      exact ih mid progress' hrest (hsources ▸ hmem) (hreach.snoc hstep)
  -- the plan checks, loads and splits, then loops
  unfold plan_backfill_jobs at hplan
  rw [bail_eq_ok, bail_eq_ok, bail_eq_ok] at hplan
  obtain ⟨-, -, -, hplan⟩ := hplan
  simp only [bind_eq_ok] at hplan
  obtain ⟨_, -, _, -, ranges, -, ⟨inserted_jobs, existing_jobs, last⟩, hfold, hplan⟩ := hplan
  cases hplan
  exact hloop ranges _ _ hfold hstored hs

end Plan

/-! ## A dead job and a checkpoint -/

theorem planned_blocks_are_covered_100_to_109 :
    let s := Indexer.after plain_digits [ensure_token 100]
    ∃ plan db', plan_backfill_jobs s.db (fun _ => 0)
        { id := 0, chain_id := 1, contract_address := "0xc0", token_standard := .Erc20 } 100 109 4 3
          = .ok (plan, db') ∧
      plan.inserted_jobs = 3 ∧
      (db'.RangeCovered 0 100 109 ↔ s.db.LeftAloneCovered 0 100 109 4) := by
  intro s
  have hplanned : ((plan_backfill_jobs s.db (fun _ => 0)
      { id := 0, chain_id := 1, contract_address := "0xc0", token_standard := .Erc20 } 100 109 4
        3).toOption.map fun r => r.1.inserted_jobs) = some 3 := by decide +kernel
  obtain ⟨⟨plan, db'⟩, hplan, hinserted⟩ := Option.map_eq_some_iff.1 hplanned
  have hok := toOption_eq_some.1 hplan
  exact ⟨plan, db', hok, hinserted,
    planned_blocks_are_covered (reachable_of_possible (by decide +kernel)) hok⟩

/-- A job for blocks 100 to 109 that failed at its only attempt. -/
def dead_lettered : Indexer := Indexer.after plain_digits
  [ensure_token 100, .enqueue .Backfill 0 100 109 1 0,
   .lease 0 "a" 60 false none (fun _ => false) 0 0, .mark_running 0 0, .mark_failed 0 "rpc" 0]

/-- A plan for these blocks counts the job as existing, and no worker takes it. -/
theorem plan_counts_dead_lettered_job :
    IndexerReachable plain_digits dead_lettered ∧
      ∃ plan db', plan_backfill_jobs dead_lettered.db (fun _ => 0)
          { id := 0, chain_id := 1, contract_address := "0xc0", token_standard := .Erc20 } 100 109 10
            1 = .ok (plan, db') ∧
        plan.existing_jobs = 1 ∧ ¬ db'.RangeCovered 0 100 109 := by
  have hplanned : ((plan_backfill_jobs dead_lettered.db (fun _ => 0)
      { id := 0, chain_id := 1, contract_address := "0xc0", token_standard := .Erc20 } 100 109 10
        1).toOption.map fun r => (r.1.existing_jobs, decide (∀ row ∈ r.2.jobs.rows, ¬ row.Live)))
          = some (1, true) := by decide +kernel
  obtain ⟨⟨plan, db'⟩, hplan, hresult⟩ := Option.map_eq_some_iff.1 hplanned
  obtain ⟨hexisting, hdead⟩ := Prod.ext_iff.1 hresult
  refine ⟨reachable_of_possible (by decide +kernel), plan, db', toOption_eq_some.1 hplan, hexisting,
    fun hcovered => ?_⟩
  obtain ⟨row, hrow, -, hlive, -⟩ := hcovered 100 (by decide) (by decide)
  exact of_decide_eq_true hdead row hrow hlive

end EvmIndexer
