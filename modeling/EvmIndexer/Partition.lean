/-
The planning of ranges, up to the top of `u64`.

A split gives a chunk of the full size as long as one fits before the last block, and then
what is left; the sum that would pass `u64::MAX` saturates in the last chunk only, and the
loop ends there. So a split cuts its range into chunks that follow each other
(`split_from_partitions`).

`plan_backfill_jobs` is generic over the repository it writes through, and so it is here:
a program over any state. Loading the checkpoint and requesting one job for each chunk is
all it does (`planning_partitions`). The plan of the other modules is this one on the
database (`plan_backfill_jobs_postgres`).
-/
import EvmIndexer.Backfill
import EvmIndexer.Lib.Program

set_option autoImplicit false

namespace EvmIndexer

open Sql Program

/-! ## Chunks

The end of a chunk is computed by an addition that saturates and is cut to the last block.
Saturation can only happen in the last chunk, which is cut anyway, and after it the loop is
left before the next addition.
-/

/-- The chunks cut the blocks from `first` to `last`: none is empty, each lies behind the
one before it, together they are the range, and only the last may be short. -/
structure Partitions (first last range_size : Nat) (ranges : List BackfillChunk) : Prop where
  nonempty : ∀ c ∈ ranges, c.«from» ≤ c.«to»
  ascending : ranges.Pairwise fun c d => c.«to» < d.«from»
  union : ∀ b, (∃ c ∈ ranges, c.«from» ≤ b ∧ b ≤ c.«to») ↔ first ≤ b ∧ b ≤ last
  sizes : ∃ init final, ranges = init ++ [final] ∧
    (∀ c ∈ init, c.«to» + 1 = c.«from» + range_size) ∧ final.«to» + 1 ≤ final.«from» + range_size

section Chunks

variable {first last range_size : Nat}

/-- The last chunk of a split. -/
theorem split_from_last (hle : first ≤ last) (hlast : last ≤ u64_max)
    (hshort : last < first + range_size) :
    split_from first last range_size = [{ «from» := first, «to» := last }] := by
  have hend : chunk_end first last range_size = last := by
    unfold chunk_end u64_saturating_add
    omega
  rw [split_from, dif_pos hle, hend]
  by_cases htop : last = u64_max
  · rw [dif_pos htop]
  · rw [dif_neg htop, split_from, dif_neg (by omega)]

/-- Any other chunk of a split is of the full size. -/
theorem split_from_more (hlast : last ≤ u64_max) (hsize : 0 < range_size)
    (hmore : first + range_size ≤ last) :
    split_from first last range_size = { «from» := first, «to» := first + range_size - 1 } ::
      split_from (first + range_size) last range_size := by
  have hend : chunk_end first last range_size = first + range_size - 1 := by
    unfold chunk_end u64_saturating_add
    omega
  rw [split_from, dif_pos (by omega), hend, dif_neg (by omega)]
  have hnext : first + range_size - 1 + 1 = first + range_size := by omega
  rw [hnext]

theorem Partitions.single (hle : first ≤ last) (hshort : last < first + range_size) :
    Partitions first last range_size [{ «from» := first, «to» := last }] := by
  refine ⟨?_, List.pairwise_singleton _ _, ?_, [], _, rfl, ?_, ?_⟩
  · intro c hc
    rw [List.mem_singleton.1 hc]
    exact hle
  · intro b
    constructor
    · rintro ⟨c, hc, hb⟩
      rw [List.mem_singleton.1 hc] at hb
      exact hb
    · intro hb
      exact ⟨_, List.mem_singleton_self _, hb⟩
  · intro c hc
    cases hc
  · exact hshort

theorem Partitions.cons {rest : List BackfillChunk} (hsize : 0 < range_size)
    (hmore : first + range_size ≤ last)
    (h : Partitions (first + range_size) last range_size rest) :
    Partitions first last range_size
      ({ «from» := first, «to» := first + range_size - 1 } :: rest) := by
  obtain ⟨init, final, hrest, hinit, hfinal⟩ := h.sizes
  -- the chunks of the rest begin where this one ends
  have hbehind : ∀ c ∈ rest, first + range_size ≤ c.«from» := by
    intro c hc
    exact ((h.union c.«from»).1 ⟨c, hc, le_refl _, h.nonempty c hc⟩).1
  refine ⟨?_, List.pairwise_cons.2 ⟨?_, h.ascending⟩, ?_,
    { «from» := first, «to» := first + range_size - 1 } :: init, final, ?_, ?_, hfinal⟩
  · intro c hc
    rcases List.mem_cons.1 hc with rfl | hc
    · dsimp only
      omega
    · exact h.nonempty c hc
  · intro c hc
    have hbegin := hbehind c hc
    dsimp only
    omega
  · intro b
    have hunion := h.union b
    rw [List.exists_mem_cons_iff, hunion]
    dsimp only
    omega
  · rw [hrest]
    rfl
  · intro c hc
    rcases List.mem_cons.1 hc with rfl | hc
    · dsimp only
      omega
    · exact hinit c hc

/-- A split cuts its range, also when this ends at `u64::MAX`. -/
theorem split_from_partitions (hlast : last ≤ u64_max) (hsize : 0 < range_size)
    (hle : first ≤ last) :
    Partitions first last range_size (split_from first last range_size) := by
  induction hn : last - first using Nat.strong_induction_on generalizing first with
  | _ n ih =>
    by_cases hmore : first + range_size ≤ last
    · rw [split_from_more hlast hsize hmore]
      exact (ih (last - (first + range_size)) (by omega) hmore rfl).cons hsize hmore
    · rw [split_from_last hle hlast (not_le.1 hmore)]
      exact .single hle (not_le.1 hmore)

theorem split_inclusive_range_eq_ok (hsize : 0 < range_size) (hle : first ≤ last) :
    split_inclusive_range first last range_size = .ok (split_from first last range_size) := by
  unfold split_inclusive_range
  rw [if_neg (by omega), if_neg (by omega)]

end Chunks

/-! ## The repository of a plan

The two calls of the trait are programs over any state, which may fail and may change the
state as they like. What the plan does with them is fixed: one load, and then one request
after the other, with the numbers of the answers added up.
-/

/-- `SourceCheckpoint`. -/
structure SourceCheckpoint where
  processed_block : Int
  processed_block_hash : String
  finalized_block : Int
  deriving DecidableEq, Repr

/-- `BackfillRepository`, over any state. -/
structure BackfillRepository (σ : Type) where
  checkpoint_for_source : Uuid → EStateM String σ (Option SourceCheckpoint)
  enqueue_range_job : NewRangeJob → EStateM String σ EnqueueRangeJobResult

/-- `Context::context`, on a call of a repository. -/
def call_context {σ α : Type} (text : String) (call : EStateM String σ α) : EStateM String σ α :=
  fun s =>
    match call s with
    | .ok a t => .ok a t
    | .error cause t => .error (text ++ ": " ++ cause) t

/-- Where a plan begins behind a checkpoint. -/
def resume_from (checkpoint : Option SourceCheckpoint) («from» : Nat) : Nat :=
  match checkpoint with
  | some checkpoint =>
    if 0 ≤ checkpoint.processed_block then
      max «from» (u64_saturating_add checkpoint.processed_block.toNat 1)
    else «from»
  | none => «from»

/-- The request of a chunk, once its blocks are known to fit. -/
def range_request (source : SourceRef) (max_attempts : Int) (range : BackfillChunk) : NewRangeJob :=
  { job_type := .IngestRange
    source_id := source.id
    chain_id := source.chain_id
    from_block := range.«from»
    to_block := range.«to»
    idempotency_key := RangeCommand.Backfill.idempotency_key source.id range.«from» range.«to»
    max_attempts }

namespace BackfillRepository

section Plan

variable {σ : Type} (repositories : BackfillRepository σ) (source : SourceRef) (max_attempts : Int)

/-- The turn of the loop of `plan_backfill_jobs`, on the two counts. -/
def enqueue_chunk (counts : Nat × Nat) (range : BackfillChunk) : EStateM String σ (Nat × Nat) := do
  let from_block ← ask (block_to_i64 range.«from»)
  let to_block ← ask (block_to_i64 range.«to»)
  let result ← call_context "enqueue backfill ingest job" (repositories.enqueue_range_job
    { job_type := .IngestRange
      source_id := source.id
      chain_id := source.chain_id
      from_block
      to_block
      idempotency_key := RangeCommand.Backfill.idempotency_key source.id range.«from» range.«to»
      max_attempts })
  match result with
  | .Inserted => pure (counts.1 + 1, counts.2)
  | .Existing => pure (counts.1, counts.2 + 1)

/-- `plan_backfill_jobs`. -/
def plan_backfill_jobs («from» «to» range_size : Nat) : EStateM String σ BackfillPlan :=
  if max_attempts ≤ 0 then throw "max-attempts must be greater than zero"
  else if range_size = 0 then throw "range-size must be greater than zero"
  else if «to» < «from» then
    throw ("from-block " ++ toString «from» ++ " cannot be greater than to-block " ++ toString «to»)
  else do
    ask (ensure_block_fits_i64 «from»)
    ask (ensure_block_fits_i64 «to»)
    let checkpoint ← call_context "load source checkpoint"
      (repositories.checkpoint_for_source source.id)
    let ranges ← ask (planned_ranges (resume_from checkpoint «from») «to» range_size)
    let (inserted_jobs, existing_jobs) ←
      ranges.foldlM (repositories.enqueue_chunk source max_attempts) (0, 0)
    pure
      { source_id := source.id
        requested_from := «from»
        requested_to := «to»
        planned_from := ranges.head?.map (·.«from»)
        planned_to := ranges.getLast?.map (·.«to»)
        range_size
        ranges
        inserted_jobs
        existing_jobs }

/-- The requests, one after the other; the first that fails ends them. -/
def enqueue_all (requests : List NewRangeJob) : EStateM String σ (List EnqueueRangeJobResult) :=
  requests.mapM fun request =>
    call_context "enqueue backfill ingest job" (repositories.enqueue_range_job request)

/-- The plan of the chunks and the answers to their requests. -/
def plan_of («from» «to» range_size : Nat) (ranges : List BackfillChunk)
    (results : List EnqueueRangeJobResult) : BackfillPlan :=
  { source_id := source.id
    requested_from := «from»
    requested_to := «to»
    planned_from := ranges.head?.map (·.«from»)
    planned_to := ranges.getLast?.map (·.«to»)
    range_size
    ranges
    inserted_jobs := results.count .Inserted
    existing_jobs := results.count .Existing }

/-- A chunk whose blocks fit is requested as it is. -/
theorem enqueue_chunk_eq {range : BackfillChunk} (counts : Nat × Nat)
    (hfrom : range.«from» < 2 ^ 63) (hto : range.«to» < 2 ^ 63) :
    repositories.enqueue_chunk source max_attempts counts range = (do
      let result ← call_context "enqueue backfill ingest job"
        (repositories.enqueue_range_job (range_request source max_attempts range))
      pure (counts.1 + [result].count .Inserted, counts.2 + [result].count .Existing)) := by
  unfold enqueue_chunk
  rw [block_to_i64_of_lt hfrom, block_to_i64_of_lt hto, ask_ok_bind, ask_ok_bind]
  refine bind_congr fun result => ?_
  cases result <;> rfl

/-- The loop requests a job for each chunk, in order, and counts the answers. -/
theorem enqueue_chunks_eq {ranges : List BackfillChunk} (counts : Nat × Nat)
    (hfits : ∀ c ∈ ranges, c.«from» < 2 ^ 63 ∧ c.«to» < 2 ^ 63) :
    ranges.foldlM (repositories.enqueue_chunk source max_attempts) counts = (do
      let results ← repositories.enqueue_all (ranges.map (range_request source max_attempts))
      pure (counts.1 + results.count .Inserted, counts.2 + results.count .Existing)) := by
  unfold enqueue_all
  induction ranges generalizing counts with
  | nil => simp
  | cons c rest ih =>
    obtain ⟨hfrom, hto⟩ := hfits c (List.mem_cons_self ..)
    have hrest := fun counts => ih counts fun d hd => hfits d (List.mem_cons_of_mem _ hd)
    rw [List.foldlM_cons, enqueue_chunk_eq repositories source max_attempts counts hfrom hto]
    simp only [bind_assoc, pure_bind, hrest, List.map_cons, List.mapM_cons]
    refine bind_congr fun result => bind_congr fun results => ?_
    have hcount : ∀ answer,
        (result :: results).count answer = [result].count answer + results.count answer :=
      fun _ => (List.count_append : ([result] ++ results).count _ = _)
    rw [hcount, hcount, Nat.add_assoc, Nat.add_assoc]

/-- The chunks a plan requests behind a checkpoint. -/
def planned_chunks (checkpoint : Option SourceCheckpoint) («from» «to» range_size : Nat) :
    List BackfillChunk :=
  split_from (resume_from checkpoint «from») «to» range_size

/-- A plan loads the checkpoint and requests a job for each of its chunks. -/
theorem plan_backfill_jobs_eq {«from» «to» range_size : Nat} (hle : «from» ≤ «to»)
    (hsize : 0 < range_size) (hto : «to» < 2 ^ 63) (hattempts : 0 < max_attempts) :
    repositories.plan_backfill_jobs source max_attempts «from» «to» range_size = (do
      let checkpoint ← call_context "load source checkpoint"
        (repositories.checkpoint_for_source source.id)
      let ranges := planned_chunks checkpoint «from» «to» range_size
      let results ← repositories.enqueue_all (ranges.map (range_request source max_attempts))
      pure (plan_of source «from» «to» range_size ranges results)) := by
  have hfits : ∀ block, block ≤ «to» → ensure_block_fits_i64 block = .ok () := by
    intro block hblock
    unfold ensure_block_fits_i64
    rw [if_neg (by omega)]
  have hranges : ∀ checkpoint, planned_ranges (resume_from checkpoint «from») «to» range_size
      = .ok (planned_chunks checkpoint «from» «to» range_size) := by
    intro checkpoint
    unfold planned_ranges planned_chunks
    by_cases hbehind : «to» < resume_from checkpoint «from»
    · rw [if_pos hbehind, split_from, dif_neg (not_le.2 hbehind)]
    · rw [if_neg hbehind, split_inclusive_range_eq_ok hsize (not_lt.1 hbehind)]
  -- no chunk reaches past the end of the range, so each fits the column
  have hblocks : ∀ checkpoint, ∀ c ∈ planned_chunks checkpoint «from» «to» range_size,
      c.«from» < 2 ^ 63 ∧ c.«to» < 2 ^ 63 := by
    intro checkpoint c hc
    have hbegin : resume_from checkpoint «from» ≤ «to» := by
      by_contra hbehind
      rw [planned_chunks, split_from, dif_neg hbehind] at hc
      cases hc
    have htop : «to» ≤ u64_max := by
      unfold u64_max
      omega
    have hparts := split_from_partitions htop hsize hbegin
    have hordered := hparts.nonempty c hc
    have hend := (hparts.union c.«to»).1 ⟨c, hc, hordered, le_refl _⟩
    omega
  unfold plan_backfill_jobs
  -- none of the checks before the load fails
  rw [if_neg (not_le.2 hattempts), if_neg (by omega), if_neg (by omega), hfits _ hle,
    hfits _ (le_refl _), ask_ok_bind, ask_ok_bind]
  refine bind_congr fun checkpoint => ?_
  rw [hranges, ask_ok_bind, enqueue_chunks_eq repositories source max_attempts _
    (hblocks checkpoint), bind_assoc]
  refine bind_congr fun results => ?_
  rw [pure_bind, Nat.zero_add, Nat.zero_add]
  rfl

/-- Every request that returns has an answer. -/
theorem enqueue_all_length {requests : List NewRangeJob} {s t : σ}
    {results : List EnqueueRangeJobResult}
    (h : repositories.enqueue_all requests s = .ok results t) :
    results.length = requests.length := by
  unfold enqueue_all at h
  induction requests generalizing results s t with
  | nil =>
    rw [List.mapM_nil, Program.pure_eq_ok] at h
    rw [← h.1]
    rfl
  | cons request rest ih =>
    rw [List.mapM_cons, Program.bind_eq_ok] at h
    obtain ⟨result, m, -, h⟩ := h
    rw [Program.bind_eq_ok] at h
    obtain ⟨others, m', hothers, h⟩ := h
    rw [Program.pure_eq_ok] at h
    rw [← h.1, List.length_cons, List.length_cons, ih hothers]

end Plan

/-! ## The repository on the database

`postgres` is the implementation of the trait, so what is proved of any repository holds of
the database.
-/

/-- `PostgresRepositories`. `now` is the time each chunk is enqueued at. -/
def postgres (now : BackfillChunk → Timestamp) : BackfillRepository Db where
  checkpoint_for_source source_id := fun db =>
    .ok ((EvmIndexer.checkpoint_for_source db source_id).map fun checkpoint =>
      { processed_block := checkpoint.processed_block
        processed_block_hash := checkpoint.processed_block_hash
        finalized_block := checkpoint.finalized_block }) db
  enqueue_range_job job := transaction fun db =>
    EvmIndexer.enqueue_range_job db
      (now { «from» := job.from_block.toNat, «to» := job.to_block.toNat }) job

end BackfillRepository

/-- An answer is one of the two. -/
theorem count_results (results : List EnqueueRangeJobResult) :
    results.count .Inserted + results.count .Existing = results.length := by
  induction results with
  | nil => rfl
  | cons result rest ih =>
    cases result with
    | Inserted =>
      rw [List.count_cons_self, List.count_cons_of_ne (by decide), List.length_cons]
      omega
    | Existing =>
      rw [List.count_cons_self, List.count_cons_of_ne (by decide), List.length_cons]
      omega

/-- The first block that is not behind the checkpoint, as the request asks for it. -/
def first_block (checkpoint : Option SourceCheckpoint) («from» : Nat) : Int :=
  match checkpoint with
  | some checkpoint => max («from» : Int) (checkpoint.processed_block + 1)
  | none => «from»

/-- A plan resumes at the first block, as far as blocks fit a `BIGINT`. -/
theorem resume_from_eq (checkpoint : Option SourceCheckpoint) («from» : Nat) {«to» : Nat}
    (hto : «to» < 2 ^ 63) :
    («to» < resume_from checkpoint «from» ↔ («to» : Int) < first_block checkpoint «from») ∧
      (first_block checkpoint «from» ≤ «to» →
        resume_from checkpoint «from» = (first_block checkpoint «from»).toNat) := by
  unfold resume_from first_block u64_saturating_add u64_max
  cases checkpoint with
  | none => exact ⟨Int.ofNat_lt.symm, fun _ => rfl⟩
  | some checkpoint =>
    dsimp only
    split <;> omega

/-- The chunks of a plan cut what is not behind the checkpoint. -/
theorem planned_chunks_partitions (checkpoint : Option SourceCheckpoint)
    {«from» «to» range_size : Nat} (hto : «to» < 2 ^ 63) (hsize : 0 < range_size) :
    («to» < first_block checkpoint «from» →
      BackfillRepository.planned_chunks checkpoint «from» «to» range_size = []) ∧
    (first_block checkpoint «from» ≤ «to» →
      Partitions (first_block checkpoint «from»).toNat «to» range_size
        (BackfillRepository.planned_chunks checkpoint «from» «to» range_size)) := by
  obtain ⟨hbehind, hfirst⟩ := resume_from_eq checkpoint «from» hto
  unfold BackfillRepository.planned_chunks
  constructor
  · intro hcovered
    rw [split_from, dif_neg (not_le.2 (hbehind.2 hcovered))]
  · intro hbegin
    rw [← hfirst hbegin]
    refine split_from_partitions (by unfold u64_max; omega) hsize ?_
    by_contra hlt
    have hcovered := hbehind.1 (not_le.1 hlt)
    omega

/-- Planning cuts its range exactly, up to the top of `u64`; and a plan loads the checkpoint,
requests one ingest job for each chunk from the first block behind it on, and does nothing
else. -/
theorem planning_partitions {σ : Type} (repositories : BackfillRepository σ) (source : SourceRef)
    (max_attempts : Int) {«from» «to» range_size : Nat} (hle : «from» ≤ «to»)
    (hsize : 0 < range_size) :
    («to» ≤ u64_max → ∃ ranges, split_inclusive_range «from» «to» range_size = .ok ranges ∧
      Partitions «from» «to» range_size ranges) ∧
    («to» < 2 ^ 63 → 0 < max_attempts → ∃ chunks : Option SourceCheckpoint → List BackfillChunk,
      (∀ checkpoint,
        («to» < first_block checkpoint «from» → chunks checkpoint = []) ∧
        (first_block checkpoint «from» ≤ «to» →
          Partitions (first_block checkpoint «from»).toNat «to» range_size (chunks checkpoint))) ∧
      repositories.plan_backfill_jobs source max_attempts «from» «to» range_size = (do
        let checkpoint ← call_context "load source checkpoint"
          (repositories.checkpoint_for_source source.id)
        let ranges := chunks checkpoint
        let results ← repositories.enqueue_all (ranges.map (range_request source max_attempts))
        pure (BackfillRepository.plan_of source «from» «to» range_size ranges results)) ∧
      ∀ s t plan, repositories.plan_backfill_jobs source max_attempts «from» «to» range_size s
        = .ok plan t → plan.inserted_jobs + plan.existing_jobs = plan.ranges.length) := by
  constructor
  · intro hto
    exact ⟨_, split_inclusive_range_eq_ok hsize hle, split_from_partitions hto hsize hle⟩
  · intro hto hattempts
    have hplan := repositories.plan_backfill_jobs_eq source max_attempts hle hsize hto hattempts
    refine ⟨fun checkpoint =>
      BackfillRepository.planned_chunks checkpoint «from» «to» range_size,
      fun checkpoint => planned_chunks_partitions checkpoint hto hsize, hplan, ?_⟩
    intro s t plan h
    rw [hplan, Program.bind_eq_ok] at h
    obtain ⟨checkpoint, m, -, h⟩ := h
    rw [Program.bind_eq_ok] at h
    obtain ⟨results, m', hresults, h⟩ := h
    rw [Program.pure_eq_ok] at h
    -- one result for each chunk, inserted or found
    have hlength := repositories.enqueue_all_length hresults
    rw [List.length_map] at hlength
    rw [← h.1]
    exact (count_results results).trans hlength

theorem planning_partitions_100_to_109 :
    (∃ ranges, split_inclusive_range 100 109 4 = .ok ranges ∧ Partitions 100 109 4 ranges) ∧
      ∀ db db' plan, (BackfillRepository.postgres fun _ => 0).plan_backfill_jobs
        { id := 0, chain_id := 1, contract_address := "0xc0", token_standard := .Erc20 } 3 100 109 4
          db = .ok plan db' → plan.inserted_jobs + plan.existing_jobs = plan.ranges.length := by
  obtain ⟨hsplit, hplan⟩ := planning_partitions (BackfillRepository.postgres fun _ => 0)
    { id := 0, chain_id := 1, contract_address := "0xc0", token_standard := .Erc20 } 3
    (show 100 ≤ 109 by decide) (show 0 < 4 by decide)
  obtain ⟨chunks, -, -, hcounts⟩ := hplan (by decide) (by decide)
  exact ⟨hsplit (by decide), hcounts⟩

/-! ## The plan on the database

`Backfill` has the plan as one function of the database. It is the plan of this module with
the database in the place of the repository, which leaves the two one model of the code.
-/

section Postgres

variable {now : BackfillChunk → Timestamp} {source : SourceRef} {max_attempts : Int}

theorem toExcept_call_context {σ α : Type} (text : String) (call : EStateM String σ α) (s : σ) :
    toExcept (call_context text call s) = context text (toExcept (call s)) := by
  unfold call_context
  cases call s <;> rfl

/-- A turn of the loop is a turn of the loop on the database. -/
theorem enqueue_chunk_postgres (counts : Nat × Nat) (range : BackfillChunk) (db : Db) :
    toExcept ((BackfillRepository.postgres now).enqueue_chunk source max_attempts counts range db)
      = (enqueue_chunk now source max_attempts (counts.1, counts.2, db) range).map
          fun progress => ((progress.1, progress.2.1), progress.2.2) := by
  unfold BackfillRepository.enqueue_chunk enqueue_chunk
  cases hfrom : block_to_i64 range.«from» with
  | error e => rfl
  | ok from_block =>
    cases hto : block_to_i64 range.«to» with
    | error e => rfl
    | ok to_block =>
      -- the time of a request is read off its blocks
      have hrange : { «from» := from_block.toNat, «to» := to_block.toNat } = range := by
        obtain ⟨hfromValue, hfromCast⟩ := block_to_i64_eq_ok hfrom
        obtain ⟨htoValue, htoCast⟩ := block_to_i64_eq_ok hto
        rw [hfromValue, htoValue, hfromCast, htoCast, Int.toNat_natCast, Int.toNat_natCast]
      rw [ask_ok_bind, ask_ok_bind, toExcept_bind, toExcept_call_context]
      unfold BackfillRepository.postgres
      dsimp only
      rw [toExcept_transaction, hrange]
      simp only [ok_bind]
      generalize context "enqueue backfill ingest job" _ = call
      cases call with
      | error e => rfl
      | ok r =>
        obtain ⟨result, db'⟩ := r
        cases result <;> rfl

theorem enqueue_chunks_postgres (ranges : List BackfillChunk) (counts : Nat × Nat) (db : Db) :
    toExcept (ranges.foldlM ((BackfillRepository.postgres now).enqueue_chunk source max_attempts)
        counts db)
      = (ranges.foldlM (enqueue_chunk now source max_attempts) (counts.1, counts.2, db)).map
          fun progress => ((progress.1, progress.2.1), progress.2.2) := by
  induction ranges generalizing counts db with
  | nil => rfl
  | cons range rest ih =>
    rw [List.foldlM_cons, List.foldlM_cons, toExcept_bind, enqueue_chunk_postgres]
    cases enqueue_chunk now source max_attempts (counts.1, counts.2, db) range with
    | error e => rfl
    | ok progress => exact ih (progress.1, progress.2.1) progress.2.2

/-- On the database a plan is the plan of the other modules. -/
theorem plan_backfill_jobs_postgres (now : BackfillChunk → Timestamp) (source : SourceRef)
    (max_attempts : Int) («from» «to» range_size : Nat) (db : Db) :
    toExcept ((BackfillRepository.postgres now).plan_backfill_jobs source max_attempts «from» «to»
        range_size db)
      = plan_backfill_jobs db now source «from» «to» range_size max_attempts := by
  unfold BackfillRepository.plan_backfill_jobs plan_backfill_jobs
  by_cases hattempts : max_attempts ≤ 0
  · rw [if_pos hattempts, if_pos hattempts]
    rfl
  rw [if_neg hattempts, if_neg hattempts]
  by_cases hsize : range_size = 0
  · rw [if_pos hsize, if_pos hsize]
    rfl
  rw [if_neg hsize, if_neg hsize]
  by_cases hle : «to» < «from»
  · rw [if_pos hle, if_pos hle]
    rfl
  rw [if_neg hle, if_neg hle]
  cases ensure_block_fits_i64 «from» with
  | error e => rfl
  | ok =>
    cases ensure_block_fits_i64 «to» with
    | error e => rfl
    | ok =>
      -- both resume behind the stored checkpoint
      have hresume : resume_from ((checkpoint_for_source db source.id).map fun checkpoint =>
          { processed_block := checkpoint.processed_block
            processed_block_hash := checkpoint.processed_block_hash
            finalized_block := checkpoint.finalized_block }) «from»
          = planned_from db source.id «from» := by
        unfold resume_from planned_from
        cases checkpoint_for_source db source.id <;> rfl
      show toExcept ((ask (planned_ranges (resume_from _ «from») «to» range_size) >>= _) db)
        = planned_ranges (planned_from db source.id «from») «to» range_size >>= _
      rw [hresume]
      cases planned_ranges (planned_from db source.id «from») «to» range_size with
      | error e => rfl
      | ok ranges =>
        rw [ask_ok_bind, toExcept_bind, enqueue_chunks_postgres]
        show _ = ranges.foldlM (enqueue_chunk now source max_attempts) (0, 0, db) >>= _
        cases ranges.foldlM (enqueue_chunk now source max_attempts) (0, 0, db) <;> rfl

end Postgres

end EvmIndexer
