/-
`enqueue-replay`, `verify-reorg` and the workers, as one system.

`enqueue_replay` enqueues a replay of a range in one transaction, and in another links to its
job the reorg events of the range that no job is linked to yet. It leaves them alone where it
finds the job there already with a terminal status.

A `RepairService` is the indexer with the reorg events and the commands that have enqueued a
job and not linked it yet. Verifications, commands and workers take their steps in any order.
Because one step is one transaction, the order of the steps is the order of time, and the
history is stamped with their number: when each event was recorded, and when each execution
of a replay job orphaned its range, which is where it begins.

`RepairEffect` says what a step can do. Whatever it is, the indexer takes a step as well, so
all that is known of the steps of the indexer is known here (`RepairService.Moved`).
-/
import EvmIndexer.PlanCoverage
import EvmIndexer.ReorgRanges

set_option autoImplicit false

namespace EvmIndexer

open Sql Transition

/-! ## The command

The command is two transactions, and what it remembers between them is the link: the job, the
source and the range. Whether it links at all is decided in the first, by the status of the
job it found.
-/

/-- `job_status_is_terminal`. A failed job is not: nothing ever gives a job that status. -/
def job_status_is_terminal : JobStatus → Bool
  | .Succeeded => true
  | .DeadLettered => true
  | .Cancelled => true
  | _ => false

/-- `should_link_reorg_events` of `enqueue_replay`. -/
def EnqueueResult.should_link_reorg_events : EnqueueResult → Bool
  | .Inserted _ => true
  | .Existing job => !job_status_is_terminal job.status

/-- The arguments `enqueue_replay` calls `link_reorg_events_to_replay_job` with. -/
structure ReplayLink where
  source_id : Uuid
  replay_from_block : Int
  replay_to_block : Int
  replay_job_id : Uuid
  deriving DecidableEq, Repr

/-- `enqueue_replay` up to the link, which it goes on to write where there is one. -/
def enqueue_replay (db : Db) (now : Timestamp) (chain_id : Int) (contract : String)
    (from_block to_block : Nat) (max_attempts : Int) : Result (Option ReplayLink × Db) := do
  let contract ← normalize_address contract
  if chain_id ≤ 0 then .error "chain-id must be greater than zero"
  else if to_block < from_block then
    .error ("from-block " ++ toString from_block ++ " cannot be greater than to-block " ++
      toString to_block)
  else if max_attempts ≤ 0 then .error "max-attempts must be greater than zero"
  else
    let from_i64 ← block_try_from "from-block" from_block
    let to_i64 ← block_try_from "to-block" to_block
    match source_by_contract db chain_id contract with
    | none => .error "contract source not found"
    | some source =>
      let (result, db) ← context "enqueue replay job" (enqueue
        { db with next_uuid := db.next_uuid + 1 } now
        (RangeCommand.Replay.job db.next_uuid source.from_source from_block to_block max_attempts))
      let link : ReplayLink :=
        { source_id := source.id
          replay_from_block := from_i64
          replay_to_block := to_i64
          replay_job_id := result.row.id }
      .ok (if result.should_link_reorg_events then some link else none, db)

/-- The filter of `link_reorg_events_to_replay_job`. -/
def ReplayLink.matches_event (link : ReplayLink) (event : ReorgEventInsert) : Bool :=
  event.source_id == link.source_id && decide (link.replay_from_block ≤ event.from_block) &&
    decide (event.to_block ≤ link.replay_to_block) && event.replay_job_id.isNone

/-- `link_reorg_events_to_replay_job`, with the number of events it linked. -/
def link_reorg_events_to_replay_job (reorg_events : List ReorgEventInsert) (link : ReplayLink) :
    Nat × List ReorgEventInsert :=
  (reorg_events.countP link.matches_event, reorg_events.map
    (Table.setRow link.matches_event fun event =>
      { event with replay_job_id := some link.replay_job_id }))

/-! ## The system

The commands are numbered like the executions of the indexer, and each may stay between its
two transactions as long as it likes. A verification is one step for each range that it
records, with what the chain has answered as an argument.
-/

/-- An execution of a replay job, and the step at which it orphaned its range. -/
structure Replay where
  job_id : Uuid
  began_at : Nat
  deriving DecidableEq, Repr

/-- The indexer, the reorg events, and what each command has still to link. The rest is
history, which the code does not keep: the number of steps taken, the step each event was
recorded at, the step the execution in each slot orphaned its range at, and the executions
whose `ingest_source_range` has returned after that. -/
structure RepairService where
  indexer : Indexer
  reorg_events : List ReorgEventInsert
  linking : Nat → Option ReplayLink
  clock : Nat
  recorded_at : Nat → Nat
  began_at : Nat → Nat
  replays : List Replay

/-- Nothing was ever done. -/
structure RepairService.Initial (s : RepairService) : Prop where
  indexer : s.indexer.Initial
  reorg_events : s.reorg_events = []
  linking : s.linking = fun _ => none
  replays : s.replays = []

/-- A step: one of the indexer, or a transaction of `verify-reorg` or `enqueue-replay`. What
a verification has read and was answered before it records a range is an argument. -/
inductive RepairOp
  | indexer (op : IndexerOp)
  | record_reorg_range (source : SourceRef) (range : List ReorgMismatch)
  | enqueue_replay (command : Nat) (chain_id : Int) (contract : String) (from_block to_block : Nat)
      (max_attempts : Int) (now : Timestamp)
  | link_reorg_events_to_replay_job (command : Nat)

/-- The tables, as the programs that record reorg events see them. -/
def RepairService.service (s : RepairService) : Service :=
  { db := s.indexer.db
    chains := []
    transaction_receipts := []
    reorg_events := s.reorg_events
    ingested := [] }

/-- Where the executions began, after a step of the indexer. -/
def RepairService.began_after (s : RepairService) : IndexerOp → Nat → Nat
  | .orphan_source_range slot => Function.update s.began_at slot s.clock
  | _ => s.began_at

/-- The executions that have replayed their range, after a step of the indexer. -/
def RepairService.replays_after (s : RepairService) : IndexerOp → List Replay
  | .ingest_source_range slot =>
    ((s.indexer.executions slot).toList.filter fun e => e.job.job_type == .ReplayRange).map
      (fun e => { job_id := e.job.id, began_at := s.began_at slot }) ++ s.replays
  | _ => s.replays

/-- The service after a step of the indexer. -/
def RepairService.after_indexer (s : RepairService) (op : IndexerOp) (indexer : Indexer) :
    RepairService :=
  { s with
    indexer
    clock := s.clock + 1
    began_at := s.began_after op
    replays := s.replays_after op }

/-- The service after an event was recorded. -/
def RepairService.after_record (s : RepairService) (reorg_events : List ReorgEventInsert) :
    RepairService :=
  { s with
    reorg_events
    clock := s.clock + 1
    recorded_at := Function.update s.recorded_at s.reorg_events.length s.clock }

/-- The service after a command has enqueued its job. -/
def RepairService.after_enqueue (s : RepairService) (command : Nat) (link : Option ReplayLink)
    (db : Db) : RepairService :=
  { s with
    indexer := s.indexer.with_db db
    linking := Function.update s.linking command link
    clock := s.clock + 1 }

/-- The service after a command has linked the events of its range. -/
def RepairService.after_link (s : RepairService) (command : Nat) (link : ReplayLink) :
    RepairService :=
  { s with
    reorg_events := (link_reorg_events_to_replay_job s.reorg_events link).2
    linking := Function.update s.linking command none
    clock := s.clock + 1 }

section Step

variable (parseAmount : AmountParser)

/-- What a step does; `none` where it is not possible, or fails. -/
def RepairService.exec (s : RepairService) : RepairOp → Option RepairService
  | .indexer op => (s.indexer.exec parseAmount op).map (s.after_indexer op)
  | .record_reorg_range source range =>
    (Program.returned (record_reorg_range source range s.service)).map fun (_, service) =>
      s.after_record service.reorg_events
  | .enqueue_replay command chain_id contract from_block to_block max_attempts now =>
    match s.linking command with
    | some _ => none
    | none =>
      (enqueue_replay s.indexer.db now chain_id contract from_block to_block
        max_attempts).toOption.map fun (link, db) => s.after_enqueue command link db
  | .link_reorg_events_to_replay_job command => (s.linking command).map (s.after_link command)

/-- A step of the service; the rows of the tables may be in any physical order after it. -/
def RepairStep (s : RepairService) (op : RepairOp) (t : RepairService) : Prop :=
  ∃ u, s.exec parseAmount op = some u ∧ u.indexer.db.SameRows t.indexer.db ∧
    t = { u with indexer := u.indexer.with_db t.indexer.db }

end Step

/-! ## What a step does

The effects are those on reorg events and pending links. That the indexer moves with each of
them, if only by an idle step, lets the invariants of the indexer be used as they are.
-/

/-- The indexer has a replay job with the id. -/
def Indexer.HasReplay (s : Indexer) (job_id : Uuid) : Prop :=
  ∃ job ∈ s.db.jobs.rows, job.id = job_id ∧ job.job_type = .ReplayRange

/-- The indexer takes a step, and the history follows it. -/
structure RepairService.Moved (s t : RepairService) (op : IndexerOp) : Prop where
  effect : Effect s.indexer t.indexer op
  began_at : t.began_at = s.began_after op
  replays : t.replays = s.replays_after op
  recorded_at : ∀ i, i < s.reorg_events.length → t.recorded_at i = s.recorded_at i
  clock : t.clock = s.clock + 1

/-- What a step does to the reorg events and to the commands. Whatever it is, the indexer
takes a step as well, if only an idle one. -/
inductive RepairEffect (s t : RepairService) : RepairOp → Prop
  | indexer {op : IndexerOp} (hmoved : s.Moved t op) (hevents : t.reorg_events = s.reorg_events)
      (hlinking : t.linking = s.linking) : RepairEffect s t (.indexer op)
  | recorded {idle : IndexerOp} {source : SourceRef} {range : List ReorgMismatch}
      (event : ReorgEventInsert) (hmoved : s.Moved t idle) (hunlinked : event.replay_job_id = none)
      (hevents : t.reorg_events = s.reorg_events ++ [event])
      (hrecorded : t.recorded_at s.reorg_events.length = s.clock)
      (hlinking : t.linking = s.linking) : RepairEffect s t (.record_reorg_range source range)
  | enqueued {op : IndexerOp} {command : Nat} {chain_id : Int} {contract : String}
      {from_block to_block : Nat} {max_attempts : Int} {now : Timestamp} {link : Option ReplayLink}
      (hmoved : s.Moved t op)
      (hreplay : ∀ l, link = some l → t.indexer.HasReplay l.replay_job_id)
      (hevents : t.reorg_events = s.reorg_events)
      (hlinking : t.linking = Function.update s.linking command link) :
      RepairEffect s t
        (.enqueue_replay command chain_id contract from_block to_block max_attempts now)
  | linked {idle : IndexerOp} {command : Nat} {link : ReplayLink}
      (hlink : s.linking command = some link) (hmoved : s.Moved t idle)
      (hevents : t.reorg_events = (link_reorg_events_to_replay_job s.reorg_events link).2)
      (hlinking : t.linking = Function.update s.linking command none) :
      RepairEffect s t (.link_reorg_events_to_replay_job command)

/-- An indexer whose rows are in another order has taken an idle step. -/
theorem Effect.of_sameRows {s t : Indexer} (hsame : s.db.SameRows t.db)
    (hexecutions : t.executions = s.executions) (hingested : t.ingested = s.ingested) :
    Effect s t (.persist_decoded_logs 0 []) :=
  .idle rfl (.of_perm hsame rfl) (.of_perm hsame rfl) (.of_perm hsame rfl) hexecutions hingested

/-- What `enqueue_replay` does before the link: it enqueues a replay job of a source. -/
theorem enqueue_replay_spec {db db' : Db} {now : Timestamp} {chain_id : Int} {contract : String}
    {from_block to_block : Nat} {max_attempts : Int} {link : Option ReplayLink}
    (h : enqueue_replay db now chain_id contract from_block to_block max_attempts
      = .ok (link, db')) :
    ∃ source ∈ db.sources.rows, ∃ result,
      enqueue { db with next_uuid := db.next_uuid + 1 } now (RangeCommand.Replay.job db.next_uuid
        source.from_source from_block to_block max_attempts) = .ok (result, db') ∧
      ∀ l, link = some l → l.replay_job_id = result.row.id := by
  unfold enqueue_replay at h
  rw [bind_eq_ok] at h
  obtain ⟨normalized, -, h⟩ := h
  rw [bail_eq_ok, bail_eq_ok, bail_eq_ok] at h
  obtain ⟨-, -, -, h⟩ := h
  simp only [bind_eq_ok] at h
  obtain ⟨from_i64, -, to_i64, -, h⟩ := h
  split at h
  · cases h
  · rename_i source hsource
    simp only [bind_eq_ok, context_eq_ok] at h
    obtain ⟨⟨result, db''⟩, henqueue, h⟩ := h
    cases h
    refine ⟨source, List.mem_of_find?_eq_some hsource, result, henqueue, fun l hl => ?_⟩
    split at hl
    · rw [← Option.some_inj.1 hl]
    · cases hl

/-- The row an enqueue of a replay returns is a stored replay job. -/
theorem hasReplay_of_enqueue {s t : Indexer} (hs : s.WellFormed) {source : SourceRow} {id : Uuid}
    {from_block to_block : Nat} {max_attempts : Int} {now : Timestamp} {db' : Db}
    {result : EnqueueResult}
    (h : enqueue { s.db with next_uuid := s.db.next_uuid + 1 } now (RangeCommand.Replay.job id
      source.from_source from_block to_block max_attempts) = .ok (result, db'))
    (hsame : db'.SameRows t.db) : t.HasReplay result.row.id := by
  rcases enqueue_result h with ⟨rfl, hrows, -⟩ | ⟨rfl, row, hrow, rfl, hmatch⟩
  · refine ⟨_, hsame.jobs.mem_iff.1 ?_, rfl, rfl⟩
    rw [hrows]
    exact List.mem_append_right _ (List.mem_singleton_self _)
  · refine ⟨row, hsame.jobs.mem_iff.1 hrow, rfl, ?_⟩
    rcases hmatch with hkey | ⟨-, htype, -⟩
    · exact ((hs.enqueued row hrow).of_key hkey).1
    · exact htype

section Steps

variable {parseAmount : AmountParser} {s t : RepairService} {op : RepairOp}

/-- Every step has one of the effects. The indexer makes a step or none in each of them, and
the reorg events are added by a verification, linked by a command, and otherwise as they
were. -/
theorem RepairStep.effect (h : RepairStep parseAmount s op t) (hs : s.indexer.WellFormed) :
    RepairEffect s t op := by
  obtain ⟨u, hexec, hsame, ht⟩ := h
  -- the fields of `t` that no order of rows is about are those of `u`
  have hexecutions : t.indexer.executions = u.indexer.executions := by rw [ht]; rfl
  have hingested : t.indexer.ingested = u.indexer.ingested := by rw [ht]; rfl
  have hevents : t.reorg_events = u.reorg_events := by rw [ht]
  have hlinking : t.linking = u.linking := by rw [ht]
  have hclock : t.clock = u.clock := by rw [ht]
  have hrecorded : t.recorded_at = u.recorded_at := by rw [ht]
  have hbegan : t.began_at = u.began_at := by rw [ht]
  have hreplays : t.replays = u.replays := by rw [ht]
  clear ht
  cases op with
  | indexer op =>
    simp only [RepairService.exec, Option.map_eq_some_iff] at hexec
    obtain ⟨indexer, hstep, rfl⟩ := hexec
    have hmoved : IndexerStep parseAmount s.indexer op t.indexer :=
      ⟨indexer, hstep, hsame, hexecutions, hingested⟩
    exact .indexer ⟨hmoved.effect, hbegan, hreplays, fun i _ => by rw [hrecorded]; rfl, hclock⟩
      hevents hlinking
  | record_reorg_range source range =>
    simp only [RepairService.exec, Option.map_eq_some_iff, Program.returned_eq_some] at hexec
    obtain ⟨⟨_, service⟩, hrecord, rfl⟩ := hexec
    obtain ⟨event, ⟨first, last, -, -, hevent⟩, rfl⟩ := record_reorg_range_eq_ok hrecord
    have hunlinked : event.replay_job_id = none := by rw [hevent]; rfl
    have hidle := Effect.of_sameRows hsame hexecutions hingested
    refine .recorded event ⟨hidle, hbegan, hreplays, ?_, hclock⟩ hunlinked hevents ?_ hlinking
    · intro i hi
      rw [hrecorded]
      exact Function.update_of_ne (Nat.ne_of_lt hi) _ _
    · rw [hrecorded]
      exact Function.update_self _ _ _
  | enqueue_replay command chain_id contract from_block to_block max_attempts now =>
    simp only [RepairService.exec] at hexec
    split at hexec
    · cases hexec
    · simp only [Option.map_eq_some_iff, toOption_eq_some] at hexec
      obtain ⟨⟨link, db⟩, hcommand, rfl⟩ := hexec
      obtain ⟨source, hsource, result, henqueue, hlink⟩ := enqueue_replay_spec hcommand
      -- for the indexer this is the command of its own that enqueues the same job
      have hstep : IndexerStep parseAmount s.indexer
          (.enqueue .Replay source.id from_block to_block max_attempts now) t.indexer :=
        ⟨s.indexer.with_db db, exec_enqueue hsource henqueue, hsame, hexecutions, hingested⟩
      refine .enqueued ⟨hstep.effect, hbegan, hreplays, fun i _ => by rw [hrecorded]; rfl, hclock⟩
        (fun l hl => ?_) hevents hlinking
      rw [hlink l hl]
      exact hasReplay_of_enqueue hs henqueue hsame
  | link_reorg_events_to_replay_job command =>
    simp only [RepairService.exec, Option.map_eq_some_iff] at hexec
    obtain ⟨link, hlink, rfl⟩ := hexec
    have hidle := Effect.of_sameRows hsame hexecutions hingested
    exact .linked hlink ⟨hidle, hbegan, hreplays, fun i _ => by rw [hrecorded]; rfl, hclock⟩
      hevents hlinking

/-- Every step moves the indexer. -/
theorem RepairEffect.moved (h : RepairEffect s t op) : ∃ op, s.Moved t op := by
  cases h with
  | indexer hmoved | recorded _ hmoved | enqueued hmoved | linked _ hmoved => exact ⟨_, hmoved⟩

end Steps

end EvmIndexer
