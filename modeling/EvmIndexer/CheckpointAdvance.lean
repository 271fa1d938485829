/-
No advance of a checkpoint is lost, while the executions of a source that
compute a target do not overlap unseen.

An execution computes its target from the succeeded jobs and its own range, then
advances the checkpoint, then marks its job succeeded. Between the first and the
last of these its range is in neither place another execution looks: it is not
succeeded, and the checkpoint may not have reached it. Two executions that
compute their targets in this window of each other can both stop short of the
stretch their ranges cover together, and nothing computes a target afterwards.

The runs are those of one source with a fixed start block whose jobs all end
succeeded (`Finishing`). `InOrder` is the condition on computing a target. The
invariant is that the stretch covered by the succeeded ranges and those in the
window ends behind the checkpoint or behind a target some execution is about to
advance it to (`Indexer.NoStretchLost`); where no job is leased or running there
is no such execution, so the checkpoint has reached the end of the stretch.
-/
import EvmIndexer.Frontier
import EvmIndexer.Ledger
import Mathlib.Order.Bounds.Basic

set_option autoImplicit false

namespace EvmIndexer

open Sql Transition

/-! ## The runs

An execution marks its job running, ingests the range, computes a target, advances the
checkpoint to it and marks the job succeeded, and others run in between. Its window is from
the target to the last of these. While an execution is in its window, its range counts for
nobody else: the query for the target reads succeeded jobs only, and the execution's own range
is added to its own query only. A job is computed (`Indexer.Computed`) from the moment its
execution is in the window, and stays so when it has succeeded.
-/

/-- The steps of runs in which the source has a fixed start block, every job that
ingests it is executed to its end once it was leased, and the finalized blocks
observed are past its jobs.

`ensure_source` on the contract repeats the start block. A lease that hands out an
ingest job of the source finds it queued: a job under an expired lease is not handed
out a second time, so one execution has each job, and none of these fails, is
interrupted or crashes. Of the jobs of other sources, and of replays, nothing is
asked. -/
def Finishing (source_id : Uuid) (s : Indexer) : IndexerOp → Prop
  | .ensure_source chain_id _ contract_address _ start_block =>
    ∀ source ∈ s.db.sources.rows, source.id = source_id → source.chain_id = chain_id →
      source.contract_address = to_ascii_lowercase contract_address →
      start_block = source.start_block
  | .lease _ _ _ replay chain_id locked selected_at _ =>
    ∀ row, lock_next_candidate s.db selected_at
        (some (if replay then .ReplayRange else .IngestRange)) chain_id locked = some row →
      row.ingests source_id → row.lease_expired selected_at = false
  | .next_contiguous_checkpoint_target slot =>
    ∀ e source observed, s.executions slot = some e → e.phase = .Ingested source observed →
      source.id = source_id → ∀ row ∈ s.db.jobs.rows, row.ingests source_id →
      ∀ r, row.range = some r → r.2 ≤ observed
  | .mark_failed slot _ _ => ∀ e, s.executions slot = some e → ¬ e.job.ingests source_id
  | .mark_interrupted_for_retry slot _ => ∀ e, s.executions slot = some e → ¬ e.job.ingests source_id
  | .crash slot => ∀ e, s.executions slot = some e → ¬ e.job.ingests source_id
  | _ => True

/-- The execution has computed its target, and has not marked its job succeeded. -/
def Phase.computed : Phase → Bool
  | .Targeted .. => true
  | .Executed => true
  | _ => false

/-- The job has succeeded, or an execution has computed a target with it. -/
def Indexer.Computed (s : Indexer) (row : JobRow) : Prop :=
  row.status = .Succeeded ∨
    ∃ slot e, s.executions slot = some e ∧ e.phase.computed = true ∧ e.job.id = row.id

/-- The block lies in an ingest job of the source that is computed. -/
def Indexer.computed_covers (s : Indexer) (source_id : Uuid) (b : Int) : Prop :=
  s.db.ingest_covers source_id s.Computed b

/-- The condition on computing a target. Take any stretch from the start block that the
computed ranges and the range of this execution cover together. Either the computed ranges
cover it without this execution, so an earlier one has answered for it; or all of it past the
checkpoint lies in succeeded jobs and in this range, so the target this execution computes
reaches its end. What is left out is a stretch that only this range completes and another
execution in its window holds a part of: neither of the two sees the whole. -/
def InOrder (source_id : Uuid) (s : Indexer) : IndexerOp → Prop
  | .next_contiguous_checkpoint_target slot =>
    ∀ e source observed, s.executions slot = some e → e.phase = .Ingested source observed →
      source.id = source_id → ∀ t,
      (∀ b, source.start_block ≤ b → b ≤ t →
        s.computed_covers source_id b ∨ e.job.contains b) →
      (∀ b, source.start_block ≤ b → b ≤ t → s.computed_covers source_id b) ∨
        ∀ b, checkpoint_frontier s.db source < b → b ≤ t →
          covered_with s.db source_id e.job.range b
  | _ => True

/-- No job is leased or running, so no execution is between computing a target and advancing
to it. Jobs may still be queued. -/
def Indexer.Quiescent (s : Indexer) : Prop :=
  ∀ row ∈ s.db.jobs.rows, row.status ≠ .Leased ∧ row.status ≠ .Running

/-! ## The invariants

`Indexer.NoStretchLost` is the invariant proper. The others are what its step lemma needs to
know of the source: that a leased job of it has one execution, that this execution has loaded
the start block the source still has, and that the blocks behind the checkpoint lie in jobs
that were taken, so that no computed stretch ends in a gap.
-/

/-- The job was leased and not given up. -/
def JobRow.Taken (row : JobRow) : Prop :=
  row.status = .Leased ∨ row.status = .Running ∨ row.status = .Succeeded

/-- The block lies in an ingest job of the source that was taken; of other
sources nothing is said. -/
def Indexer.taken_covers (s : Indexer) (source_id : Uuid) (other : Uuid) (b : Int) : Prop :=
  other = source_id → s.db.ingest_covers source_id JobRow.Taken b

/-- A stretch that succeeded and computed ranges cover ends behind the checkpoint, or behind
a target that some execution has computed and is about to advance the checkpoint to. It is
not said which execution: the one that completed the stretch need not be the one that saw it
whole. -/
def Indexer.NoStretchLost (source_id : Uuid) (s : Indexer) : Prop :=
  ∀ source ∈ s.db.sources.rows, source.id = source_id → ∀ t,
    (∀ b, source.start_block ≤ b → b ≤ t → s.computed_covers source_id b) →
    t ≤ checkpoint_frontier s.db source ∨
      ∃ slot e loaded observed target, s.executions slot = some e ∧
        e.phase = .Targeted loaded observed target ∧ loaded.id = source_id ∧ t ≤ target

/-- What holds of a source along such a run. Every step keeps all of it. The result is read
off `checkpoint` and `stretch`, and the other fields are what these two need of the
executions and the rows. -/
structure Indexer.Finishes (source_id : Uuid) (s : Indexer) : Prop where
  wellFormed : s.WellFormed
  /-- The start block an execution has loaded is the source's. -/
  started : ∀ slot e loaded, s.executions slot = some e → e.phase.source = some loaded →
    loaded.id = source_id → ∀ source ∈ s.db.sources.rows, source.id = source_id →
      source.start_block = loaded.start_block
  /-- The job of an execution is leased or running. -/
  held : ∀ slot e, s.executions slot = some e → e.job.ingests source_id →
    ∀ row ∈ s.db.jobs.rows, row.id = e.job.id → row.status = .Leased ∨ row.status = .Running
  /-- No other execution has the job. -/
  alone : ∀ slot slot' e e', s.executions slot = some e → s.executions slot' = some e' →
    e.job.ingests source_id → e.job.id = e'.job.id → slot = slot'
  /-- A job was taken or is still queued. -/
  taken : ∀ row ∈ s.db.jobs.rows, row.ingests source_id → row.status = .Queued ∨ row.Taken
  /-- The checkpoint and the targets are not before the start block. -/
  reached : ∀ source ∈ s.db.sources.rows, source.id = source_id →
    (∀ c ∈ s.db.checkpoints.rows, c.source_id = source_id → source.start_block ≤ c.processed_block) ∧
      ∀ slot e loaded observed target, s.executions slot = some e →
        e.phase = .Targeted loaded observed target → loaded.id = source_id →
        source.start_block ≤ target
  targets : s.TargetsCovered (s.taken_covers source_id)
  checkpoint : s.CheckpointCovered (s.taken_covers source_id)
  stretch : s.NoStretchLost source_id

/-! ## One step

What a step of the indexer does to jobs, executions and the checkpoint is known from its
effect (`Effect`). In these runs most effects are ruled out for jobs of the source: none is
requeued, dead-lettered, cancelled or leased again, which leaves the four moves of
`Effect.job_moves`. Each field of `Indexer.Finishes` is kept for its own reason, so each has
its own lemma.
-/

section Step

variable {source_id : Uuid} {s t : Indexer} {op : IndexerOp}

/-- An execution after a step was there before it with the same job, or has just
leased it. -/
theorem Effect.execution_origin (h : Effect s t op) (hs : s.WellFormed) {slot : Nat}
    {e : Execution} (he : t.executions slot = some e) :
    (∃ old, s.executions slot = some old ∧ e.job.SameJob old.job) ∨ JustLeased s t op slot e := by
  rcases h.execution_mem he with hold | hleased | ⟨old, hold, ⟨-, hjob, hid⟩ | ⟨hjob, -⟩⟩
  · exact Or.inl ⟨e, hold, .refl _⟩
  · exact Or.inr hleased
  · obtain ⟨row, hrow, hsame⟩ := hs.stored slot old hold
    obtain ⟨new, hnew, hnewSame⟩ := h.job_stays hrow
    have hnewJob : e.job = new :=
      job_eq_of_id _ hjob hnew (hid.trans (hnewSame.trans hsame).id.symm)
    exact Or.inl ⟨old, hold, hnewJob ▸ hnewSame.trans hsame⟩
  · exact Or.inl ⟨old, hold, hjob ▸ .refl _⟩

/-- In these runs a job of the source is enqueued, leased, marked running, or
marked succeeded by the execution that has executed it. -/
theorem Effect.job_moves (h : Effect s t op) (hs : s.WellFormed) (hok : Finishing source_id s op)
    {row : JobRow} (hrow : row ∈ t.db.jobs.rows) (hingests : row.ingests source_id) :
    row ∈ s.db.jobs.rows ∨
      (row.status = .Queued ∧ ∀ old ∈ s.db.jobs.rows, old.id ≠ row.id) ∨
      ∃ old ∈ s.db.jobs.rows, row.SameJob old ∧
        (row.status = .Leased ∨ row.status = .Running ∨
          (row.status = .Succeeded ∧ ∃ slot e, s.executions slot = some e ∧ e.phase = .Executed ∧
            e.job.id = old.id ∧ t.executions slot = none)) := by
  -- only the queue calls change a row; each names the row it was
  cases h with
  | idle _ _ _ hjobs | ensured _ _ hjobs | dropped _ _ hjobs | moved _ _ _ hjobs
  | ingested _ _ hjobs | advanced _ _ _ hjobs => exact Or.inl ((hjobs row).1 hrow)
  | enqueued _ _ hjobs =>
    by_cases hold : row ∈ s.db.jobs.rows
    · exact Or.inl hold
    · rcases (hjobs row).1 hrow with rfl | hrow'
      · refine Or.inr (Or.inl ⟨rfl, fun old hmem hid => hold ?_⟩)
        exact job_eq_of_id _ ((hjobs old).2 (Or.inr hmem)) hrow hid ▸ hmem
      · exact Or.inl hrow'
  | leased _ _ _ hjobs =>
    rcases (hjobs.2 row).1 hrow with rfl | ⟨hrow, -⟩
    · exact Or.inr (Or.inr ⟨_, hjobs.1, ⟨rfl, rfl, rfl, rfl, rfl, rfl, rfl⟩, Or.inl rfl⟩)
    · exact Or.inl hrow
  | running _ _ _ hjobs =>
    rcases (hjobs.2 row).1 hrow with rfl | ⟨hrow, -⟩
    · exact Or.inr (Or.inr ⟨_, hjobs.1, ⟨rfl, rfl, rfl, rfl, rfl, rfl, rfl⟩, Or.inr (Or.inl rfl)⟩)
    · exact Or.inl hrow
  | succeeded hslot hphase hid hjobs _ _ hexecutions =>
    rcases (hjobs.2 row).1 hrow with rfl | ⟨hrow, -⟩
    · refine Or.inr (Or.inr ⟨_, hjobs.1, ⟨rfl, rfl, rfl, rfl, rfl, rfl, rfl⟩,
        Or.inr (Or.inr ⟨rfl, _, _, hslot, hphase, hid.symm, ?_⟩)⟩)
      rw [hexecutions, Function.update_self]
    · exact Or.inl hrow
  | @gave_up _ slot e old _ _ _ hop hslot hid _ hjobs =>
    rcases (hjobs.2 row).1 hrow with rfl | ⟨hrow, -⟩
    · -- the runs have no such call on a job of the source
      obtain ⟨stored, hstored, hsame⟩ := hs.stored slot e hslot
      have hold : stored = old := job_eq_of_id _ hstored hjobs.1 (hsame.id.trans hid.symm)
      have hgiven : e.job.ingests source_id := hsame.ingests_iff.1 (hold ▸ hingests)
      rcases hop with ⟨message, now, rfl⟩ | ⟨now, rfl⟩
      · exact absurd hgiven (hok e hslot)
      · exact absurd hgiven (hok e hslot)
    · exact Or.inl hrow

/-- A taken job stays taken. -/
theorem Effect.taken_stays (h : Effect s t op) (hs : s.WellFormed) (hok : Finishing source_id s op)
    {row : JobRow} (hrow : row ∈ s.db.jobs.rows) (hingests : row.ingests source_id)
    (htaken : row.Taken) : ∃ new ∈ t.db.jobs.rows, new.SameJob row ∧ new.Taken := by
  obtain ⟨new, hnew, hsame⟩ := h.job_stays hrow
  refine ⟨new, hnew, hsame, ?_⟩
  rcases h.job_moves hs hok hnew (hsame.ingests_iff.2 hingests) with hold | ⟨-, hfresh⟩ |
    ⟨-, -, -, hleased | hrunning | ⟨hsucceeded, -⟩⟩
  · exact job_eq_of_id _ hold hrow hsame.id ▸ htaken
  · exact absurd hsame.id.symm (hfresh row hrow)
  · exact Or.inl hleased
  · exact Or.inr (Or.inl hrunning)
  · exact Or.inr (Or.inr hsucceeded)

theorem Effect.taken_covers (h : Effect s t op) (hs : s.WellFormed)
    (hok : Finishing source_id s op) (other : Uuid) (b : Int)
    (hb : s.taken_covers source_id other b) : t.taken_covers source_id other b := by
  intro hother
  obtain ⟨row, hrow, hingests, htaken, hcontains⟩ := hb hother
  obtain ⟨new, hnew, hsame, hnewTaken⟩ := h.taken_stays hs hok hrow hingests htaken
  exact ⟨new, hnew, hsame.ingests_iff.2 hingests, hnewTaken, hsame.contains_iff.2 hcontains⟩

theorem Effect.taken (h : Effect s t op) (hf : s.Finishes source_id)
    (hok : Finishing source_id s op) (row : JobRow) (hrow : row ∈ t.db.jobs.rows)
    (hingests : row.ingests source_id) : row.status = .Queued ∨ row.Taken := by
  rcases h.job_moves hf.wellFormed hok hrow hingests with hold | ⟨hqueued, -⟩ |
    ⟨-, -, -, hleased | hrunning | ⟨hsucceeded, -⟩⟩
  · exact hf.taken row hold hingests
  · exact Or.inl hqueued
  · exact Or.inr (Or.inl hleased)
  · exact Or.inr (Or.inr (Or.inl hrunning))
  · exact Or.inr (Or.inr (Or.inr hsucceeded))

/-- A job that an execution has just leased was queued. -/
theorem JustLeased.queued {slot : Nat} {e : Execution} (h : JustLeased s t op slot e)
    (hok : Finishing source_id s op) (hingests : e.job.ingests source_id) :
    ∃ old ∈ s.db.jobs.rows, e.job.SameJob old ∧ old.status = .Queued := by
  obtain ⟨old, hold, hsame, _, _, _, _, _, _, _, rfl, hqueued | hexpired, hlock⟩ := h.candidate
  · exact ⟨old, hold, hsame, hqueued⟩
  · have hlive := hok old hlock (hsame.ingests_iff.1 hingests)
    exact absurd hexpired (by rw [hlive]; exact Bool.false_ne_true)

theorem Effect.held (h : Effect s t op) (hf : s.Finishes source_id)
    (hok : Finishing source_id s op) (slot : Nat) (e : Execution) (he : t.executions slot = some e)
    (hingests : e.job.ingests source_id) (row : JobRow) (hrow : row ∈ t.db.jobs.rows)
    (hid : row.id = e.job.id) : row.status = .Leased ∨ row.status = .Running := by
  have hs := hf.wellFormed
  rcases h.execution_origin hs he with ⟨old, hold, hsame⟩ | hleased
  · obtain ⟨stored, hstored, hstoredSame⟩ := hs.stored slot old hold
    obtain ⟨kept, hkept, hkeptSame⟩ := h.job_stays hstored
    have hrowSame : row.SameJob e.job := by
      have heq := job_eq_of_id _ hrow hkept (hid.trans ((hkeptSame.trans hstoredSame).trans hsame.symm).id.symm)
      exact heq ▸ (hkeptSame.trans hstoredSame).trans hsame.symm
    rcases h.job_moves hs hok hrow (hrowSame.ingests_iff.2 hingests) with hmem | ⟨-, hfresh⟩ |
      ⟨prior, hprior, hpriorSame, hrunning | hrunning | ⟨-, i, done, hdone, -, hdoneId, hgone⟩⟩
    · exact hf.held slot old hold (hsame.ingests_iff.1 hingests) row hmem (hid.trans hsame.id)
    · exact absurd (hstoredSame.id.trans (hsame.id.symm.trans hid.symm)) (hfresh stored hstored)
    · exact Or.inl hrunning
    · exact Or.inr hrunning
    · -- only the execution in this slot could have marked it, and it is still there
      have hslot := hf.alone slot i old done hold hdone (hsame.ingests_iff.1 hingests)
        (hsame.id.symm.trans (hid.symm.trans (hpriorSame.id.trans hdoneId.symm)))
      rw [← hslot, he] at hgone
      cases hgone
  · have hjob := job_eq_of_id _ hrow hleased.job hid
    exact Or.inl (hjob ▸ hleased.status)

/-- The job of an execution is that of no execution that has just leased its. -/
theorem JustLeased.not_held {slot i : Nat} {e old : Execution} (h : JustLeased s t op slot e)
    (hf : s.Finishes source_id) (hok : Finishing source_id s op)
    (hingests : e.job.ingests source_id) (hold : s.executions i = some old) :
    e.job.id ≠ old.job.id := by
  intro hid
  obtain ⟨row, hrow, hsame, hqueued⟩ := h.queued hok hingests
  obtain ⟨stored, hstored, hstoredSame⟩ := hf.wellFormed.stored i old hold
  have hrowStored := job_eq_of_id _ hrow hstored (hsame.id.symm.trans (hid.trans hstoredSame.id.symm))
  have hrowIngests : row.ingests source_id := hsame.ingests_iff.1 hingests
  have holdIngests : old.job.ingests source_id :=
    hstoredSame.ingests_iff.1 (hrowStored ▸ hrowIngests)
  rcases hf.held i old hold holdIngests row hrow (hsame.id.symm.trans hid) with hbad | hbad
  · exact nomatch hqueued.symm.trans hbad
  · exact nomatch hqueued.symm.trans hbad

theorem Effect.alone (h : Effect s t op) (hf : s.Finishes source_id)
    (hok : Finishing source_id s op) (slot slot' : Nat) (e e' : Execution)
    (he : t.executions slot = some e) (he' : t.executions slot' = some e')
    (hingests : e.job.ingests source_id) (hid : e.job.id = e'.job.id) : slot = slot' := by
  have hs := hf.wellFormed
  have hingests' : e'.job.ingests source_id := by
    obtain ⟨row, hrow, hsame⟩ := h.stored hs slot e he
    obtain ⟨row', hrow', hsame'⟩ := h.stored hs slot' e' he'
    have heq := job_eq_of_id _ hrow hrow' (hsame.id.trans (hid.trans hsame'.id.symm))
    exact hsame'.ingests_iff.1 (heq ▸ hsame.ingests_iff.2 hingests)
  rcases h.execution_origin hs he with ⟨old, hold, hsame⟩ | hleased
  · rcases h.execution_origin hs he' with ⟨old', hold', hsame'⟩ | hleased'
    · exact hf.alone slot slot' old old' hold hold' (hsame.ingests_iff.1 hingests)
        (hsame.id.symm.trans (hid.trans hsame'.id))
    · exact absurd (hid.symm.trans hsame.id) (hleased'.not_held hf hok hingests' hold)
  · rcases h.execution_origin hs he' with ⟨old', hold', hsame'⟩ | hleased'
    · exact absurd (hid.trans hsame'.id) (hleased.not_held hf hok hingests hold')
    · by_contra hne
      have hnone := hleased.others slot' (Ne.symm hne)
      rw [hleased'.free, he'] at hnone
      cases hnone

/-- The source of these runs keeps its start block, or was not there before. -/
theorem Effect.source_mem (h : Effect s t op) (hok : Finishing source_id s op) {source : SourceRow}
    (hsource : source ∈ t.db.sources.rows) (hid : source.id = source_id) :
    (∃ old ∈ s.db.sources.rows, old.id = source_id ∧ old.start_block = source.start_block) ∨
      ((∀ old ∈ s.db.sources.rows, old.id ≠ source_id) ∧ SameJobs s t ∧ SameCheckpoints s t) := by
  cases h with
  | idle _ hsources | enqueued _ _ _ hsources | leased _ _ _ _ hsources | running _ _ _ _ hsources
  | succeeded _ _ _ _ hsources | gave_up _ _ _ _ _ hsources | dropped _ _ _ hsources
  | moved _ _ _ _ hsources | ingested _ _ _ hsources | advanced _ _ _ _ hsources =>
    exact Or.inl ⟨source, (hsources source).1 hsource, hid, rfl⟩
  | ensured hensured hcheckpoints hjobs =>
    rcases hensured.change with ⟨old, hold, hchain, hcontract, hrowId, hrows⟩ | ⟨hfree, hrows⟩
    · rcases (hrows source).1 hsource with rfl | ⟨hsource, -⟩
      · have holdId : old.id = source_id := hrowId.symm.trans hid
        exact Or.inl ⟨old, hold, holdId,
          (hok old hold holdId hchain hcontract).symm.trans hensured.starts_at.symm⟩
      · exact Or.inl ⟨source, hsource, hid, rfl⟩
    · rcases (hrows source).1 hsource with rfl | hsource
      · exact Or.inr ⟨fun old hold holdId => (hfree old hold).1 (holdId.trans hid.symm), hjobs,
          hcheckpoints⟩
      · exact Or.inl ⟨source, hsource, hid, rfl⟩

/-- A source that was not there before a step has no execution that has loaded it. -/
theorem Effect.not_loaded (h : Effect s t op) (hs : s.WellFormed)
    (hfree : ∀ old ∈ s.db.sources.rows, old.id ≠ source_id) {slot : Nat} {e : Execution}
    {loaded : SourceRow} (he : t.executions slot = some e)
    (hphase : e.phase.source = some loaded) : loaded.id ≠ source_id := by
  intro hid
  have hloaded := h.loaded hs slot e loaded he hphase
  rcases h.execution_origin hs he with ⟨old, hold, holdSame⟩ | hleased
  · obtain ⟨stored, hstored, hstoredSame⟩ := hs.stored slot old hold
    have hstoredSource : stored.source_id = some source_id := by
      rw [hstoredSame.source_id, ← holdSame.source_id, hloaded, hid]
    obtain ⟨known, hknown, hknownId⟩ := hs.sourced stored hstored source_id hstoredSource
    exact hfree known hknown hknownId
  · rw [hleased.phase] at hphase
    cases hphase

theorem Effect.started (h : Effect s t op) (hf : s.Finishes source_id)
    (hok : Finishing source_id s op) (slot : Nat) (e : Execution) (loaded : SourceRow)
    (he : t.executions slot = some e) (hphase : e.phase.source = some loaded)
    (hid : loaded.id = source_id) (source : SourceRow) (hsource : source ∈ t.db.sources.rows)
    (hsourceId : source.id = source_id) : source.start_block = loaded.start_block := by
  have hs := hf.wellFormed
  rcases h.source_mem hok hsource hsourceId with ⟨stored, hstored, hstoredId, hstart⟩ | ⟨hfree, -, -⟩
  · rw [← hstart]
    rcases h.execution_mem he with hold | hleased | ⟨old, hold, ⟨hrunning, -⟩ | ⟨-, -, hchange⟩⟩
    · exact hf.started slot e loaded hold hphase hid stored hstored hstoredId
    · rw [hleased.phase] at hphase
      cases hphase
    · rw [hrunning] at hphase
      cases hphase
    · rcases hchange.source hphase with ⟨hmem, -⟩ | hbefore
      · have hsame : stored = loaded :=
          s.db.sources.eq_of_clash hstored hmem (Or.inl (hstoredId.trans hid.symm))
        rw [hsame]
      · exact hf.started slot old loaded hold hbefore hid stored hstored hstoredId
  · exact absurd hid (h.not_loaded hs hfree he hphase)

/-- The blocks an execution computes its target with lie in taken jobs. -/
theorem Indexer.Finishes.covered_with_taken (hf : s.Finishes source_id) (slot : Nat) (e : Execution)
    (source : SourceRow) (observed b : Int) (he : s.executions slot = some e)
    (hphase : e.phase = .Ingested source observed)
    (hb : covered_with s.db source.id e.job.range b) : s.taken_covers source_id source.id b := by
  intro hid
  rw [hid] at hb
  rcases hb with hsucceeded | ⟨r, hr, hcontains⟩
  · exact hsucceeded.mono fun row hrow hstatus => Or.inr (Or.inr hstatus)
  · obtain ⟨row, hrow, hsame⟩ := hf.wellFormed.stored slot e he
    have hingests : e.job.ingests source_id :=
      hid ▸ hf.wellFormed.ingests he (by rw [hphase]; rfl) (by rw [hphase]; rfl)
    have hheld := hf.held slot e he hingests row hrow hsame.id
    exact ⟨row, hrow, hsame.ingests_iff.2 hingests, hheld.imp id Or.inl, r, hsame.range.trans hr,
      hcontains⟩

/-- A source with a fixed start block keeps its checkpoint covered. -/
theorem Indexer.Finishes.keepsCovered (hf : s.Finishes source_id) (hok : Finishing source_id s op) :
    KeepsCovered s (s.taken_covers source_id) op := by
  unfold KeepsCovered
  split
  · intro source hsource hchain hcontract _ _ _ b hstart hbelow _ hid
    have hfixed := hok source hsource hid hchain hcontract
    omega
  · intro e source observed target he hphase stored hstored hstoredId b hstart hbelow _ _ hid
    have hfixed := hf.started _ e source he (by rw [hphase]; rfl) hid stored hstored
      (hstoredId.trans hid)
    omega
  · trivial

theorem Effect.reached (h : Effect s t op) (hf : s.Finishes source_id)
    (hok : Finishing source_id s op) (source : SourceRow) (hsource : source ∈ t.db.sources.rows)
    (hid : source.id = source_id) :
    (∀ c ∈ t.db.checkpoints.rows, c.source_id = source_id → source.start_block ≤ c.processed_block) ∧
      ∀ slot e loaded observed target, t.executions slot = some e →
        e.phase = .Targeted loaded observed target → loaded.id = source_id →
        source.start_block ≤ target := by
  have hs := hf.wellFormed
  -- a source that was there keeps its start block; a new one has nothing yet
  rcases h.source_mem hok hsource hid with ⟨stored, hstored, hstoredId, hstart⟩ |
    ⟨hfree, -, hcheckpoints⟩
  · rw [← hstart]
    obtain ⟨hbehind, htargets⟩ := hf.reached stored hstored hstoredId
    refine ⟨fun c hc hcid => ?_, fun slot e loaded observed target he hphase hloaded => ?_⟩
    · rcases h.checkpoint_mem hc with hold | ⟨slot, e, loaded, observed, target, he, -, hphase, hadv⟩
      · exact hbehind c hold hcid
      · exact (htargets slot e loaded observed target he hphase
          (hadv.of_source.symm.trans hcid)).trans hadv.le_processed
    · rcases h.execution_mem he with hold | hleased | ⟨old, hold, ⟨hrunning, -⟩ | ⟨-, -, hchange⟩⟩
      · exact htargets slot e loaded observed target hold hphase hloaded
      · exact nomatch hleased.phase.symm.trans hphase
      · exact nomatch hrunning.symm.trans hphase
      · rw [hphase] at hchange
        cases hchange with
        | moved hstep =>
          cases hstep with
          | targeted hbefore htarget =>
            -- a computed target is past the frontier, so it is at the start block or beyond
            have hpast := (next_contiguous_checkpoint_target_spec (hs.range_fits hold) htarget).2
              target rfl
            have hfixed := hf.started slot old loaded hold (by rw [hbefore]; rfl) hloaded stored
              hstored hstoredId
            rcases checkpoint_frontier_cases s.db loaded with ⟨c, hc, hcid, hfrontier⟩ |
              ⟨-, hfrontier⟩
            · have hc := hbehind c hc (hcid.trans hloaded)
              omega
            · omega
        | ingested hstep => cases hstep
  · refine ⟨fun c hc hcid => ?_, fun slot e loaded observed target he hphase hloaded => ?_⟩
    · obtain ⟨known, hknown, hknownId⟩ := hs.checkpointed c ((hcheckpoints c).1 hc)
      exact absurd (hknownId.trans hcid) (hfree known hknown)
    · exact absurd hloaded (h.not_loaded hs hfree he (by rw [hphase]; rfl))

/-! ## The stretch

A step changes the computed stretch in one way only: an execution has just computed its
target, and its range is new in it (`Effect.computed_covers`). There the condition is used.
In every other step a longer stretch would need a new succeeded job, and a job that is marked
succeeded was computed with already. Targets that are waited for are kept until the
checkpoint has them (`Effect.targeted_stays`).
-/

/-- The execution in a slot has just computed its target. -/
structure JustComputed (s t : Indexer) (op : IndexerOp) (slot : Nat) (e : Execution)
    (source : SourceRow) (observed : Int) (target : Option Int) : Prop where
  op_eq : op = .next_contiguous_checkpoint_target slot
  before : s.executions slot = some e
  phase : e.phase = .Ingested source observed
  computes : next_contiguous_checkpoint_target s.db source e.job.range = .ok target
  result : (∃ T after, target = some T ∧ t.executions slot = some after ∧
      after.phase = .Targeted source observed T) ∨ ∀ T, target = some T → observed < T

/-- A block computed after a step was computed before it, or lies in the range of
the execution that has just computed its target. -/
theorem Effect.computed_covers (h : Effect s t op) (hf : s.Finishes source_id)
    (hok : Finishing source_id s op) {b : Int} (hb : t.computed_covers source_id b) :
    s.computed_covers source_id b ∨ ∃ slot e source observed target,
      JustComputed s t op slot e source observed target ∧ source.id = source_id ∧
        e.job.contains b := by
  have hs := hf.wellFormed
  obtain ⟨row, hrow, hingests, hcomputed, hcontains⟩ := hb
  rcases hcomputed with hsucceeded | ⟨slot, e, he, hphase, hid⟩
  · rcases h.job_moves hs hok hrow hingests with hold | ⟨hqueued, -⟩ |
      ⟨old, hold, hsame, hleased | hrunning | ⟨-, slot, e, he, hphase, hid, -⟩⟩
    · exact Or.inl ⟨row, hold, hingests, Or.inl hsucceeded, hcontains⟩
    · exact nomatch hqueued.symm.trans hsucceeded
    · exact nomatch hleased.symm.trans hsucceeded
    · exact nomatch hrunning.symm.trans hsucceeded
    · exact Or.inl ⟨old, hold, hsame.ingests_iff.1 hingests,
        Or.inr ⟨slot, e, he, by rw [hphase]; rfl, hid⟩, hsame.contains_iff.1 hcontains⟩
  · -- the row is that of the execution's job, before the step too
    obtain ⟨after, hafter, hafterSame⟩ := h.stored hs slot e he
    have hrowSame : row.SameJob e.job := by
      have heq := job_eq_of_id _ hrow hafter (hid.symm.trans hafterSame.id.symm)
      exact heq ▸ hafterSame
    -- where the execution had computed before the step, its stored row covered the block
    have hback : ∀ old, s.executions slot = some old → e.job.SameJob old.job →
        old.phase.computed = true → s.computed_covers source_id b := by
      intro old hold hsame holdPhase
      obtain ⟨stored, hstored, hstoredSame⟩ := hs.stored slot old hold
      have hboth := (hrowSame.trans hsame).trans hstoredSame.symm
      exact ⟨stored, hstored, hboth.ingests_iff.1 hingests,
        Or.inr ⟨slot, old, hold, holdPhase, hstoredSame.id.symm⟩, hboth.contains_iff.1 hcontains⟩
    rcases h.execution_mem he with hold | hleased | ⟨old, hold, ⟨hrunning, -⟩ | ⟨hjob, hop, hchange⟩⟩
    · exact Or.inl (hback e hold (.refl _) hphase)
    · rw [hleased.phase] at hphase
      cases hphase
    · rw [hrunning] at hphase
      cases hphase
    · have hown : old.job.contains b := hjob ▸ hrowSame.contains_iff.1 hcontains
      have holdIngests : old.job.ingests source_id := hjob ▸ hrowSame.ingests_iff.1 hingests
      generalize hnow : e.phase = phase at hphase hchange
      cases hchange with
      | moved hstep =>
        cases hstep with
        | loaded | orphaned => cases hphase
        | @targeted _ source observed target hbefore htarget =>
          cases hop
          have hid := (hs.ingests hold (by rw [hbefore]; rfl) (by rw [hbefore]; rfl)).2.symm.trans
            holdIngests.2
          exact Or.inr ⟨slot, old, source, observed, some target, ⟨rfl, hold, hbefore, htarget,
            Or.inl ⟨target, e, rfl, he, hnow⟩⟩, Option.some_inj.1 hid, hown⟩
        | @untargeted _ source observed target hbefore htarget hpast =>
          cases hop
          have hid := (hs.ingests hold (by rw [hbefore]; rfl) (by rw [hbefore]; rfl)).2.symm.trans
            holdIngests.2
          exact Or.inr ⟨slot, old, source, observed, target, ⟨rfl, hold, hbefore, htarget,
            Or.inr hpast⟩, Option.some_inj.1 hid, hown⟩
      | ingested hstep =>
        cases hstep with
        | ingested => cases hphase
        | replayed _ htype => exact nomatch htype.symm.trans holdIngests.1
      | advanced hbefore =>
        exact Or.inl (hback old hold (hjob ▸ .refl _) (by rw [hbefore]; rfl))

/-- A target that an execution is about to advance to is kept, or reached. -/
theorem Effect.targeted_stays (h : Effect s t op) (hs : s.WellFormed)
    (hok : Finishing source_id s op) {slot : Nat} {e : Execution} {loaded : SourceRow}
    {observed target : Int} (he : s.executions slot = some e)
    (hphase : e.phase = .Targeted loaded observed target) (hid : loaded.id = source_id) :
    t.executions slot = some e ∨
      ∃ c ∈ t.db.checkpoints.rows, c.source_id = source_id ∧ target ≤ c.processed_block := by
  have hingests : e.job.ingests source_id :=
    hid ▸ hs.ingests he (by rw [hphase]; rfl) (by rw [hphase]; rfl)
  -- a step of another execution leaves the slot alone
  have hother : ∀ {i : Nat} {x : Option Execution}, t.executions = Function.update s.executions i x →
      i ≠ slot → t.executions slot = some e := by
    intro i x hexecutions hne
    rw [hexecutions, Function.update_of_ne (Ne.symm hne), he]
  cases h with
  | idle _ _ _ _ hexecutions | ensured _ _ _ hexecutions | enqueued _ _ _ _ _ hexecutions =>
    rw [hexecutions]
    exact Or.inl he
  | leased hslot _ _ _ _ _ hexecutions =>
    refine Or.inl (hother hexecutions ?_)
    rintro rfl
    exact nomatch hslot.symm.trans he
  | running hslot hbefore _ _ _ _ hexecutions | succeeded hslot hbefore _ _ _ _ hexecutions =>
    refine Or.inl (hother hexecutions ?_)
    rintro rfl
    obtain rfl := Option.some_inj.1 (hslot.symm.trans he)
    exact nomatch hbefore.symm.trans hphase
  | gave_up hop hslot _ _ _ _ _ hexecutions =>
    refine Or.inl (hother hexecutions ?_)
    rintro rfl
    rcases hop with ⟨message, now, rfl⟩ | ⟨now, rfl⟩
    · exact hok e he hingests
    · exact hok e he hingests
  | dropped hslot hop _ _ _ hexecutions =>
    refine Or.inl (hother hexecutions ?_)
    rintro rfl
    rcases hop with rfl | ⟨now, rfl⟩
    · exact hok e he hingests
    · exact hok e he hingests
  | moved _ hslot hstep _ _ _ hexecutions =>
    refine Or.inl (hother hexecutions ?_)
    rintro rfl
    obtain rfl := Option.some_inj.1 (hslot.symm.trans he)
    cases hstep with
    | loaded hbefore | orphaned hbefore | targeted hbefore | untargeted hbefore =>
      exact nomatch hbefore.symm.trans hphase
  | ingested hslot hstep _ _ _ hexecutions =>
    refine Or.inl (hother hexecutions ?_)
    rintro rfl
    obtain rfl := Option.some_inj.1 (hslot.symm.trans he)
    cases hstep with
    | ingested hbefore | replayed hbefore => exact nomatch hbefore.symm.trans hphase
  | @advanced i _ _ source _ _ row hslot hbefore hadvanced _ _ hexecutions =>
    by_cases hi : i = slot
    · subst hi
      obtain rfl := Option.some_inj.1 (hslot.symm.trans he)
      have hsame := hbefore.symm.trans hphase
      injection hsame with hsource _ htarget
      subst hsource htarget
      exact Or.inr ⟨row, (hadvanced.mem_iff row).2 (Or.inl rfl), hadvanced.of_source.trans hid,
        hadvanced.le_processed⟩
    · exact Or.inl (hother hexecutions hi)

/-- The frontier of the source does not go back. -/
theorem Effect.frontier_le (h : Effect s t op) (hf : s.Finishes source_id)
    (hok : Finishing source_id s op) {stored source : SourceRow}
    (hsource : source ∈ t.db.sources.rows) (hid : source.id = source_id)
    (hstoredId : stored.id = source_id) (hstart : stored.start_block = source.start_block) :
    checkpoint_frontier s.db stored ≤ checkpoint_frontier t.db source := by
  rcases checkpoint_frontier_cases s.db stored with ⟨c, hc, hcid, hfrontier⟩ | ⟨-, hfrontier⟩
  · obtain ⟨new, hnew, hnewId, hle⟩ := h.checkpoint_stays hc
    have hnewFrontier := checkpoint_frontier_of_mem hnew
      (hnewId.trans (hcid.trans (hstoredId.trans hid.symm)))
    rw [hfrontier, hnewFrontier]
    exact hle
  · rcases checkpoint_frontier_cases t.db source with ⟨c, hc, hcid, hnewFrontier⟩ |
      ⟨-, hnewFrontier⟩
    · have hreached := (h.reached hf hok source hsource hid).1 c hc (hcid.trans hid)
      omega
    · omega

/-- The target of an execution is within the finalized block it has observed. -/
theorem target_le_observed (hs : s.WellFormed) {slot : Nat} {e : Execution} {source : SourceRow}
    {observed target : Int} (he : s.executions slot = some e)
    (hphase : e.phase = .Ingested source observed)
    (htarget : next_contiguous_checkpoint_target s.db source e.job.range = .ok (some target))
    (hobserved : ∀ row ∈ s.db.jobs.rows, row.ingests source.id → ∀ r, row.range = some r →
      r.2 ≤ observed) : target ≤ observed := by
  have hpast := (next_contiguous_checkpoint_target_spec (hs.range_fits he) htarget).2 target rfl
  rcases target_covered (hs.range_fits he) htarget rfl hpast (le_refl target) with
    ⟨row, hrow, hingests, -, r, hr, hcontains⟩ | ⟨r, hr, hcontains⟩
  · exact hcontains.2.trans (hobserved row hrow hingests r hr)
  · obtain ⟨row, hrow, hsame⟩ := hs.stored slot e he
    have hingests := hs.ingests he (by rw [hphase]; rfl) (by rw [hphase]; rfl)
    exact hcontains.2.trans (hobserved row hrow (hsame.ingests_iff.2 hingests) r
      (hsame.range.trans hr))

theorem Effect.stretch (h : Effect s t op) (hf : s.Finishes source_id)
    (hok : Finishing source_id s op) (horder : InOrder source_id s op) :
    t.NoStretchLost source_id := by
  intro source hsource hid last hcovered
  have hs := hf.wellFormed
  rcases h.source_mem hok hsource hid with ⟨stored, hstored, hstoredId, hstart⟩ |
    ⟨hfree, hjobs, hcheckpoints⟩
  · have hmono := h.frontier_le hf hok hsource hid hstoredId hstart
    by_cases hall : ∀ b, source.start_block ≤ b → b ≤ last → s.computed_covers source_id b
    · -- nothing new is covered: the frontier and the targets only moved on
      rcases hf.stretch stored hstored hstoredId last (by rwa [hstart]) with hle |
        ⟨slot, e, loaded, observed, target, he, hphase, hloaded, hle⟩
      · exact Or.inl (hle.trans hmono)
      · rcases h.targeted_stays hs hok he hphase hloaded with hstays | ⟨c, hc, hcid, hreached⟩
        · exact Or.inr ⟨slot, e, loaded, observed, target, hstays, hphase, hloaded, hle⟩
        · rw [checkpoint_frontier_of_mem hc (hcid.trans hid.symm)]
          exact Or.inl (hle.trans hreached)
    · -- an execution has just computed its target, and its range is new
      push Not at hall
      obtain ⟨gap, hgapStart, hgapLast, hgap⟩ := hall
      rcases h.computed_covers hf hok (hcovered gap hgapStart hgapLast) with hbad |
        ⟨slot, e, loaded, observed, target, hcomputed, hloaded, -⟩
      · exact absurd hbad hgap
      have hfixed := hf.started slot e loaded hcomputed.before (by rw [hcomputed.phase]; rfl) hloaded
        stored hstored hstoredId
      -- the execution reads the source as the run has kept it
      have hsameFrontier : checkpoint_frontier s.db loaded = checkpoint_frontier s.db stored := by
        unfold checkpoint_frontier
        rw [hloaded, hstoredId, hfixed]
      -- so far only the range of this execution is new
      have hwithOwn : ∀ b, loaded.start_block ≤ b → b ≤ last →
          s.computed_covers source_id b ∨ e.job.contains b := by
        intro b hb hlast
        have hbStart : source.start_block ≤ b := by omega
        rcases h.computed_covers hf hok (hcovered b hbStart hlast) with hold |
          ⟨slot', e', loaded', observed', target', hcomputed', -, hown⟩
        · exact Or.inl hold
        · have hslots := hcomputed'.op_eq.symm.trans hcomputed.op_eq
          injection hslots with hslots
          subst hslots
          have hsame := Option.some_inj.1 (hcomputed'.before.symm.trans hcomputed.before)
          exact Or.inr (hsame ▸ hown)
      have hinOrder := horder
      rw [hcomputed.op_eq] at hinOrder
      rcases hinOrder e loaded observed hcomputed.before hcomputed.phase hloaded last hwithOwn with
        hbad | hseen
      · exact absurd (hbad gap (by omega) hgapLast) hgap
      · have hle := le_target_of_covered (hs.range_fits hcomputed.before) hcomputed.computes
          (t := last) (by rwa [hloaded])
        cases htarget : target with
        | none =>
          rw [htarget, Option.getD_none, hsameFrontier] at hle
          exact Or.inl (hle.trans hmono)
        | some T =>
          rw [htarget, Option.getD_some] at hle
          rcases hcomputed.result with ⟨T', after, hT, hafter, hphase⟩ | hpast
          · have hT' : T' = T := Option.some_inj.1 (hT.symm.trans htarget)
            subst hT'
            exact Or.inr ⟨slot, after, loaded, observed, T', hafter, hphase, hloaded, hle⟩
          · have hfinalized := hok
            rw [hcomputed.op_eq] at hfinalized
            have hwithin := target_le_observed hs hcomputed.before hcomputed.phase
              (htarget ▸ hcomputed.computes) (by
                rw [hloaded]
                exact hfinalized e loaded observed hcomputed.before hcomputed.phase hloaded)
            exact absurd (hpast T htarget) (not_lt.2 hwithin)
  · -- the source is new: it has no job and no checkpoint
    have hnone : ∀ c ∈ t.db.checkpoints.rows, c.source_id ≠ source.id := by
      intro c hc hcid
      obtain ⟨known, hknown, hknownId⟩ := hs.checkpointed c ((hcheckpoints c).1 hc)
      exact hfree known hknown (hknownId.trans (hcid.trans hid))
    rcases checkpoint_frontier_cases t.db source with ⟨c, hc, hcid, -⟩ | ⟨-, hfrontier⟩
    · exact absurd hcid (hnone c hc)
    · rw [hfrontier]
      refine Or.inl ?_
      by_contra hlast
      obtain ⟨row, hrow, hingests, -⟩ := hcovered source.start_block (le_refl _) (by omega)
      obtain ⟨known, hknown, hknownId⟩ := hs.sourced row ((hjobs row).1 hrow) source_id hingests.2
      exact hfree known hknown hknownId

theorem Effect.finishes (h : Effect s t op) (hf : s.Finishes source_id)
    (hok : Finishing source_id s op) (horder : InOrder source_id s op) : t.Finishes source_id where
  wellFormed := h.wellFormed hf.wellFormed
  started := h.started hf hok
  held := h.held hf hok
  alone := h.alone hf hok
  taken := h.taken hf hok
  reached := h.reached hf hok
  targets := h.targetsCovered hf.wellFormed (h.taken_covers hf.wellFormed hok)
    hf.covered_with_taken hf.targets
  checkpoint := h.checkpointCovered hf.wellFormed (h.taken_covers hf.wellFormed hok) hf.targets
    hf.checkpoint (hf.keepsCovered hok)
  stretch := h.stretch hf hok horder

end Step

/-! ## Over whole runs

In a state with no job leased or running, no execution is under way, so no target is waited
for and the computed ranges are the succeeded ones. Then the invariant says that the
checkpoint is at or past the end of the stretch. That it is not past it is soundness, which
needs no condition on the order.
-/

/-- The states reached by executions that finish and compute their targets in
order. -/
def InOrderReachable (parseAmount : AmountParser) (source_id : Uuid) : Indexer → Prop :=
  Reachable (Guarded (IndexerStep parseAmount) fun s op =>
    Finishing source_id s op ∧ InOrder source_id s op) Indexer.Initial

theorem Indexer.Initial.finishes {s : Indexer} (h : s.Initial) (source_id : Uuid) :
    s.Finishes source_id := by
  have hcovered := h.covered (s.taken_covers source_id)
  have hs := h.wellFormed
  obtain ⟨hdb, hexecutions, -⟩ := h
  refine { wellFormed := hs, targets := hcovered.2, checkpoint := hcovered.1, started := ?_,
           held := ?_, alone := ?_, taken := ?_, reached := ?_, stretch := ?_ }
  all_goals simp [hdb, hexecutions, Db.empty, Indexer.NoStretchLost]

theorem InOrderReachable.finishes {parseAmount : AmountParser} {source_id : Uuid} {s : Indexer}
    (h : InOrderReachable parseAmount source_id s) : s.Finishes source_id := by
  refine Reachable.invariant (fun _ hs => hs.finishes source_id) ?_ h
  rintro s op t hf ⟨hstep, hok, horder⟩
  exact hstep.effect.finishes hf hok horder

/-- Where no job is leased or running, the checkpoint of the source is at the last
block of the stretch its succeeded jobs cover. -/
theorem no_advance_is_lost {parseAmount : AmountParser} {source_id : Uuid} {s : Indexer}
    (h : InOrderReachable parseAmount source_id s) (hquiescent : s.Quiescent) {source : SourceRow}
    (hsource : source ∈ s.db.sources.rows) (hid : source.id = source_id) :
    IsGreatest {t | ∀ b, source.start_block ≤ b → b ≤ t →
      s.db.ingest_covers source_id (fun row => row.status = .Succeeded) b}
      (checkpoint_frontier s.db source) := by
  have hf := h.finishes
  constructor
  · -- below the frontier: a range that was taken has succeeded once nothing runs
    intro b hstart hb
    rcases checkpoint_frontier_cases s.db source with ⟨c, hc, hcid, hfrontier⟩ | ⟨-, hfrontier⟩
    · have htaken := hf.checkpoint c hc source hsource hcid.symm b hstart (hfrontier ▸ hb) hid
      refine htaken.mono fun row hrow hrowTaken => ?_
      obtain ⟨hleased, hrunning⟩ := hquiescent row hrow
      rcases hrowTaken with hstatus | hstatus | hstatus
      · exact absurd hstatus hleased
      · exact absurd hstatus hrunning
      · exact hstatus
    · omega
  · -- past the frontier: a covered stretch would be held by an execution under way
    intro last hlast
    have hcomputed : ∀ b, source.start_block ≤ b → b ≤ last → s.computed_covers source_id b :=
      fun b hstart hb => (hlast b hstart hb).mono fun _ _ => Or.inl
    rcases hf.stretch source hsource hid last hcomputed with hle |
      ⟨slot, e, loaded, observed, target, he, hphase, hloaded, -⟩
    · exact hle
    · -- the job of that execution would be leased or running
      have hingests := hf.wellFormed.ingests he (by rw [hphase]; rfl) (by rw [hphase]; rfl)
      rw [hloaded] at hingests
      obtain ⟨row, hrow, hsame⟩ := hf.wellFormed.stored slot e he
      obtain ⟨hleased, hrunning⟩ := hquiescent row hrow
      rcases hf.held slot e he hingests row hrow hsame.id with hstatus | hstatus
      · exact absurd hstatus hleased
      · exact absurd hstatus hrunning

/-- A check of `Finishing` that takes every call to be about the source. -/
def checks_finishing (s : Indexer) : IndexerOp → Bool
  | .ensure_source _ _ _ _ start_block =>
    s.db.sources.rows.all fun source => start_block == source.start_block
  | .lease _ _ _ _ _ _ selected_at _ => s.db.jobs.rows.all fun row => !row.lease_expired selected_at
  | .next_contiguous_checkpoint_target slot => (s.executions slot).all fun e =>
    match e.phase with
    | .Ingested _ observed =>
      s.db.jobs.rows.all fun row => row.range.all fun r => decide (r.2 ≤ observed)
    | _ => true
  | .mark_failed .. => false
  | .mark_interrupted_for_retry .. => false
  | .crash _ => false
  | _ => true

theorem finishing_of_checks {source_id : Uuid} (s : Indexer) (op : IndexerOp)
    (h : checks_finishing s op = true) : Finishing source_id s op := by
  unfold Finishing
  split
  · intro source hsource _ _ _
    exact beq_iff_eq.1 (List.all_eq_true.1 h source hsource)
  · intro row hlock _
    simpa using List.all_eq_true.1 h row (lock_next_candidate_spec hlock).mem
  · intro e source observed he hphase _ row hrow _ r hr
    simp only [checks_finishing, he, Option.all_some, hphase, List.all_eq_true] at h
    have hfits := h row hrow
    rw [hr, Option.all_some, decide_eq_true_eq] at hfits
    exact hfits
  · cases h
  · cases h
  · cases h
  · trivial

/-- A check of `InOrder` where every other job has succeeded. -/
def checks_in_order (s : Indexer) : IndexerOp → Bool
  | .next_contiguous_checkpoint_target slot => (s.executions slot).all fun e =>
    e.phase.source.all fun source =>
      decide (source.start_block - 1 ≤ checkpoint_frontier s.db source) &&
        s.db.jobs.rows.all fun row => row.status == .Succeeded || row.range == e.job.range
  | _ => true

theorem inOrder_of_checks {source_id : Uuid} (s : Indexer) (op : IndexerOp)
    (h : checks_in_order s op = true) : InOrder source_id s op := by
  unfold InOrder
  split
  · intro e source observed he hphase _ last hcovered
    have hsource : e.phase.source = some source := by
      rw [hphase]
      rfl
    simp only [checks_in_order, he, Option.all_some, hsource, Bool.and_eq_true, decide_eq_true_eq,
      List.all_eq_true, Bool.or_eq_true, beq_iff_eq] at h
    obtain ⟨hfrontier, hrows⟩ := h
    refine Or.inr fun b hb hlast => ?_
    rcases hcovered b (by omega) hlast with ⟨row, hrow, hingests, -, r, hr, hcontains⟩ | hown
    · rcases hrows row hrow with hsucceeded | hrange
      · exact Or.inl ⟨row, hrow, hingests, hsucceeded, r, hr, hcontains⟩
      · exact Or.inr ⟨r, hrange.symm.trans hr, hcontains⟩
    · exact Or.inr hown
  · trivial

/-- Blocks 111 to 120 are ingested after 100 to 110. -/
def ingested_to_120 : List IndexerOp :=
  ingested_to_110 ++ [.enqueue .Ingest 0 111 120 5 0] ++ ingest_in 0 "a" ++ finish_in 0 "0xbb"

theorem no_advance_is_lost_to_120 :
    let s := Indexer.after plain_digits ingested_to_120
    ∃ source ∈ s.db.sources.rows, checkpoint_frontier s.db source = 120 ∧
      IsGreatest {t | ∀ b, source.start_block ≤ b → b ≤ t →
        s.db.ingest_covers 0 (fun row => row.status = .Succeeded) b}
        (checkpoint_frontier s.db source) := by
  intro s
  have hquiescent : s.Quiescent := by
    show ∀ row ∈ s.db.jobs.rows, row.status ≠ .Leased ∧ row.status ≠ .Running
    decide +kernel
  have hstored : ∃ source ∈ s.db.sources.rows, source.id = 0 ∧
      checkpoint_frontier s.db source = 120 := by decide +kernel
  obtain ⟨source, hsource, hid, hfrontier⟩ := hstored
  have hchecks : ∀ s op, (checks_finishing s op && checks_in_order s op) = true →
      Finishing 0 s op ∧ InOrder 0 s op := by
    intro s op hok
    rw [Bool.and_eq_true] at hok
    exact ⟨finishing_of_checks s op hok.1, inOrder_of_checks s op hok.2⟩
  have hreach : InOrderReachable plain_digits 0 s := run_of_possible hchecks (by decide +kernel)
  exact ⟨source, hsource, hfrontier, no_advance_is_lost hreach hquiescent hsource hid⟩

/-- Two workers ingest blocks 0 to 9 and 10 to 19. The second computes its target
before the first has marked its job succeeded. -/
def overlapping_executions : List IndexerOp :=
  [ensure_token 0, .enqueue .Ingest 0 0 9 5 0, .enqueue .Ingest 0 10 19 5 0] ++
    ingest_in 0 "a" ++ ingest_in 1 "b" ++
    [.next_contiguous_checkpoint_target 0, .next_contiguous_checkpoint_target 1,
     .advance_checkpoint 0 "0xaa", .mark_succeeded 0 0, .mark_succeeded 1 0]

/-- The state they leave: both jobs succeeded, and the checkpoint at 9. -/
def advance_lost : Indexer := Indexer.after plain_digits overlapping_executions

theorem overlapping_executions_lose_an_advance :
    Reachable (Guarded (IndexerStep plain_digits) (Finishing 0)) Indexer.Initial advance_lost ∧
      advance_lost.Quiescent ∧
      ∃ source ∈ advance_lost.db.sources.rows, source.id = 0 ∧
        ¬ IsGreatest {t | ∀ b, source.start_block ≤ b → b ≤ t →
          advance_lost.db.ingest_covers 0 (fun row => row.status = .Succeeded) b}
          (checkpoint_frontier advance_lost.db source) := by
  have hquiescent : advance_lost.Quiescent := by
    show ∀ row ∈ advance_lost.db.jobs.rows, row.status ≠ .Leased ∧ row.status ≠ .Running
    decide +kernel
  have hstored : ∃ source ∈ advance_lost.db.sources.rows, source.id = 0 ∧ source.start_block = 0 ∧
      checkpoint_frontier advance_lost.db source = 9 := by decide +kernel
  have hfirst : ∃ row ∈ advance_lost.db.jobs.rows, row.ingests 0 ∧ row.status = .Succeeded ∧
      row.range = some (0, 9) := by decide +kernel
  have hsecond : ∃ row ∈ advance_lost.db.jobs.rows, row.ingests 0 ∧ row.status = .Succeeded ∧
      row.range = some (10, 19) := by decide +kernel
  obtain ⟨source, hsource, hid, hstart, hfrontier⟩ := hstored
  refine ⟨run_of_possible finishing_of_checks (by decide +kernel),
    hquiescent, source, hsource, hid, fun hgreatest => ?_⟩
  have hlast : (19 : Int) ≤ checkpoint_frontier advance_lost.db source := by
    refine hgreatest.2 fun b hb hlast => ?_
    by_cases hbFirst : b ≤ 9
    · obtain ⟨row, hrow, hingests, hstatus, hrange⟩ := hfirst
      exact ⟨row, hrow, hingests, hstatus, (0, 9), hrange, by omega, hbFirst⟩
    · obtain ⟨row, hrow, hingests, hstatus, hrange⟩ := hsecond
      exact ⟨row, hrow, hingests, hstatus, (10, 19), hrange, by omega, hlast⟩
  omega

end EvmIndexer
