/-
The blocks behind a checkpoint were ingested, while no start block moves down.

The coverage here is `Indexer.ingested_covers`: the block lies in the range of an
ingest job of the source whose `ingest_source_range` has returned. Targets are
always sound, because a succeeded job was ingested and an execution computes its
target after ingesting its own range. Checkpoints are not: the start block of a
source is overwritten by each command that ensures it, and nothing looks at the
checkpoint when it moves down.
-/
import EvmIndexer.Frontier
import EvmIndexer.Ledger

set_option autoImplicit false

namespace EvmIndexer

open Sql Transition

/-- The block lies in an ingest job of the source that was ingested. -/
def Indexer.ingested_covers (s : Indexer) (source_id : Uuid) (b : Int) : Prop :=
  s.db.ingest_covers source_id (fun row => row.id ∈ s.ingested) b

/-- Every block from the start block of a source to its checkpoint was ingested, by some job
whose `ingest_source_range` has returned. The job may have failed afterwards. -/
def Indexer.CheckpointSound (s : Indexer) : Prop := s.CheckpointCovered s.ingested_covers

/-- The steps that put only ingested blocks behind a checkpoint. Two steps can put others
there: a command that ensures the source with a lower start block, and an execution that
advances to a target it computed before the start block went down. Either is harmless over
blocks that were ingested, and over blocks ahead of the checkpoint. -/
def KeepsCoverage (s : Indexer) (op : IndexerOp) : Prop := KeepsCovered s s.ingested_covers op

section Step

variable {s t : Indexer} {op : IndexerOp}

/-- What was ingested stays ingested. -/
theorem Effect.ingested_covers (h : Effect s t op) (source_id : Uuid) (b : Int)
    (hb : s.ingested_covers source_id b) : t.ingested_covers source_id b := by
  obtain ⟨row, hrow, hingests, hid, hcontains⟩ := hb
  obtain ⟨new, hnew, hsame⟩ := h.job_stays hrow
  have hnoted : new.id ∈ t.ingested := by
    rw [hsame.id]
    exact h.ingested_stays hid
  exact ⟨new, hnew, hsame.ingests_iff.2 hingests, hnoted, hsame.contains_iff.2 hcontains⟩

/-- The succeeded ranges and the range of an execution that computes its target
were ingested. -/
theorem covered_with_ingested (hs : s.WellFormed) (slot : Nat) (e : Execution) (source : SourceRow)
    (observed b : Int) (he : s.executions slot = some e) (hphase : e.phase = .Ingested source observed)
    (hb : covered_with s.db source.id e.job.range b) : s.ingested_covers source.id b := by
  rcases hb with hsucceeded | ⟨r, hr, hcontains⟩
  · exact hsucceeded.mono fun row hrow => hs.succeeded row hrow
  · obtain ⟨row, hrow, hsame⟩ := hs.stored slot e he
    have hingests := hs.ingests he (by rw [hphase]; rfl) (by rw [hphase]; rfl)
    have hnoted : row.id ∈ s.ingested := by
      rw [hsame.id]
      exact hs.noted slot e he (by rw [hphase]; rfl)
    exact ⟨row, hrow, hsame.ingests_iff.2 hingests, hnoted, r, hsame.range.trans hr, hcontains⟩

end Step

/-! ## Over whole runs

The condition is on a step and the state before it, and it is the exact one: where it fails,
the state after the step has a checkpoint over a block that was not ingested. A check that
can be evaluated is stronger and looks at start blocks only (`starts_kept`), since whether a
block was ingested is not in the tables.
-/

variable {parseAmount : AmountParser}

/-- The states reached by steps that meet the condition. The condition is asked of each step
in the state before it. -/
def CoverageReachable (parseAmount : AmountParser) : Indexer → Prop :=
  Reachable (Guarded (IndexerStep parseAmount) KeepsCoverage) Indexer.Initial

theorem CoverageReachable.sound {s : Indexer} (h : CoverageReachable parseAmount s) :
    s.WellFormed ∧ s.CheckpointSound ∧ s.TargetsCovered s.ingested_covers := by
  refine Reachable.invariant
    (I := fun s => s.WellFormed ∧ s.CheckpointSound ∧ s.TargetsCovered s.ingested_covers)
    (fun s hs => ⟨hs.wellFormed, hs.covered _⟩) ?_ h
  rintro s op t ⟨hs, hsound, htargets⟩ ⟨hstep, hok⟩
  have heffect := hstep.effect
  exact ⟨heffect.wellFormed hs,
    heffect.checkpointCovered hs heffect.ingested_covers htargets hsound hok,
    heffect.targetsCovered hs heffect.ingested_covers (covered_with_ingested hs) htargets⟩

/-- In every run whose steps meet the condition every checkpoint is sound in
every state reached, and the next step leaves them sound just when it meets it
too. -/
theorem checkpoint_is_sound {s : Indexer} (h : CoverageReachable parseAmount s) :
    s.CheckpointSound ∧
      ∀ op t, IndexerStep parseAmount s op t → (t.CheckpointSound ↔ KeepsCoverage s op) := by
  obtain ⟨hs, hsound, htargets⟩ := h.sound
  refine ⟨hsound, fun op t hstep => ⟨hstep.effect.keepsCovered ?_, fun hok => ?_⟩⟩
  · rintro hjobs hingested source_id b ⟨row, hrow, hingests, hid, hcontains⟩
    exact ⟨row, (hjobs row).1 hrow, hingests, hingested ▸ hid, hcontains⟩
  · have heffect := hstep.effect
    exact heffect.checkpointCovered hs heffect.ingested_covers htargets hsound hok

/-- A check of the condition that does not look at what was ingested: no start
block is moved down. -/
def starts_kept (s : Indexer) : IndexerOp → Bool
  | .ensure_source chain_id _ contract_address _ start_block =>
    s.db.sources.rows.all fun source => !(source.chain_id == chain_id &&
      source.contract_address == to_ascii_lowercase contract_address) ||
        decide (source.start_block ≤ start_block)
  | .advance_checkpoint slot _ => (s.executions slot).all fun e => e.phase.source.all fun source =>
    s.db.sources.rows.all fun stored => !(stored.id == source.id) ||
      decide (source.start_block ≤ stored.start_block)
  | _ => true

/-- Where no start block is moved down the condition is met. -/
theorem keepsCoverage_of_starts_kept (s : Indexer) (op : IndexerOp)
    (h : starts_kept s op = true) : KeepsCoverage s op := by
  unfold KeepsCoverage KeepsCovered
  split
  · intro source hsource hchain hcontract _ _ _ b hstart hbelow
    simp only [starts_kept, List.all_eq_true, Bool.or_eq_true, Bool.not_eq_true',
      Bool.and_eq_false_iff, beq_eq_false_iff_ne, decide_eq_true_eq] at h
    rcases h source hsource with (hne | hne) | hle
    · exact absurd hchain hne
    · exact absurd hcontract hne
    · omega
  · intro e source observed target hslot hphase stored hstored hid b hstart hbelow
    have hsource : e.phase.source = some source := by
      rw [hphase]
      rfl
    simp only [starts_kept, hslot, hsource, Option.all_some, List.all_eq_true, Bool.or_eq_true,
      Bool.not_eq_true', beq_eq_false_iff_ne, decide_eq_true_eq] at h
    rcases h stored hstored with hne | hle
    · exact absurd hid hne
    · omega
  · trivial

theorem checkpoint_is_sound_to_110 :
    let s := Indexer.after plain_digits (ingested_to_110 ++ [ensure_token 100])
    s.db.checkpoints.rows.map (·.processed_block) = [110] ∧ s.CheckpointSound ∧
      ∀ op t, IndexerStep plain_digits s op t → (t.CheckpointSound ↔ KeepsCoverage s op) :=
  ⟨by decide +kernel, checkpoint_is_sound
    (run_of_possible keepsCoverage_of_starts_kept (by decide +kernel))⟩

/-- The start block is moved down to 50 under a checkpoint at 110. -/
def moved_to_50 : Indexer := Indexer.after plain_digits (ingested_to_110 ++ [ensure_token 50])

/-- Block 50 is behind the checkpoint, and in the range of no job. -/
theorem start_block_moved_below_ingested :
    IndexerReachable plain_digits moved_to_50 ∧ ¬ moved_to_50.CheckpointSound := by
  refine ⟨reachable_of_possible (by decide +kernel), fun hsound => ?_⟩
  have hgap : ∃ c ∈ moved_to_50.db.checkpoints.rows, ∃ source ∈ moved_to_50.db.sources.rows,
      source.id = c.source_id ∧ source.start_block ≤ 50 ∧ 50 ≤ c.processed_block ∧
        ∀ row ∈ moved_to_50.db.jobs.rows, ¬ row.contains 50 := by decide +kernel
  obtain ⟨c, hc, source, hsource, hid, hstart, hb, hnone⟩ := hgap
  obtain ⟨row, hrow, -, -, hcontains⟩ := hsound c hc source hsource hid 50 hstart hb
  exact hnone row hrow hcontains

end EvmIndexer
