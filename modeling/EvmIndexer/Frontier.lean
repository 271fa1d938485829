/-
What a checkpoint covers, and what the targets of executions cover.

Both are statements about a notion of coverage that steps only add to. Every
block from a source's start block to its checkpoint is covered, and so is every
block an execution is about to advance the checkpoint over, from the start block
it knows on. A new target is covered where the succeeded ranges and the
execution's own are. A checkpoint stays covered unless a start block moves down:
every command that ensures a source overwrites its start block, which puts blocks
behind the checkpoint, and an execution that loaded the source before the move
does the same when it writes the checkpoint. `KeepsCovered` asks that in these
two steps the blocks in question are covered.
-/
import EvmIndexer.Interleaving

set_option autoImplicit false

namespace EvmIndexer

open Sql Transition

/-- Every block from the start block of a source to its checkpoint is covered. -/
def Indexer.CheckpointCovered (s : Indexer) (covers : Uuid → Int → Prop) : Prop :=
  ∀ c ∈ s.db.checkpoints.rows, ∀ source ∈ s.db.sources.rows, source.id = c.source_id →
    ∀ b, source.start_block ≤ b → b ≤ c.processed_block → covers source.id b

/-- No checkpoint of the source reaches the block. -/
def Indexer.Ahead (s : Indexer) (source_id : Uuid) (b : Int) : Prop :=
  ∀ c ∈ s.db.checkpoints.rows, c.source_id = source_id → c.processed_block < b

/-- What an execution is about to advance the checkpoint over is covered, from
the start block it knows on. -/
def Indexer.TargetsCovered (s : Indexer) (covers : Uuid → Int → Prop) : Prop :=
  ∀ slot e source observed target, s.executions slot = some e →
    e.phase = .Targeted source observed target →
    ∀ b, source.start_block ≤ b → b ≤ target → s.Ahead source.id b → covers source.id b

/-- The steps that put only covered blocks behind a checkpoint. A start block is
moved down over covered blocks, as far as the checkpoint reaches; and a checkpoint
is advanced over covered blocks, where the start block is now below the one the
execution knows. -/
def KeepsCovered (s : Indexer) (covers : Uuid → Int → Prop) : IndexerOp → Prop
  | .ensure_source chain_id _ contract_address _ start_block =>
    ∀ source ∈ s.db.sources.rows, source.chain_id = chain_id →
      source.contract_address = to_ascii_lowercase contract_address →
      ∀ c ∈ s.db.checkpoints.rows, c.source_id = source.id →
      ∀ b, start_block ≤ b → b < source.start_block → b ≤ c.processed_block → covers source.id b
  | .advance_checkpoint slot _ =>
    ∀ e source observed target, s.executions slot = some e →
      e.phase = .Targeted source observed target →
      ∀ stored ∈ s.db.sources.rows, stored.id = source.id →
      ∀ b, stored.start_block ≤ b → b < source.start_block → b ≤ target → s.Ahead source.id b →
        covers source.id b
  | _ => True

theorem Indexer.Initial.covered {s : Indexer} (h : s.Initial) (covers : Uuid → Int → Prop) :
    s.CheckpointCovered covers ∧ s.TargetsCovered covers := by
  obtain ⟨hdb, hexecutions, -⟩ := h
  constructor
  · intro c hc
    rw [hdb] at hc
    cases hc
  · intro slot e source observed target he
    rw [hexecutions] at he
    cases he

section Step

variable {s t : Indexer} {op : IndexerOp} {covers covers' : Uuid → Int → Prop}

/-- A block ahead of the checkpoints after a step was ahead of them before. -/
theorem Effect.ahead (h : Effect s t op) {source_id : Uuid} {b : Int} (hb : t.Ahead source_id b) :
    s.Ahead source_id b := by
  intro c hc hid
  obtain ⟨new, hnew, hnewId, hle⟩ := h.checkpoint_stays hc
  exact lt_of_le_of_lt hle (hb new hnew (hnewId.trans hid))

/-- A block ahead of the checkpoints, from the start block on, is past the
frontier. -/
theorem Indexer.Ahead.frontier_lt {source : SourceRow} {b : Int} (h : s.Ahead source.id b)
    (hstart : source.start_block ≤ b) : checkpoint_frontier s.db source < b := by
  rcases checkpoint_frontier_cases s.db source with ⟨c, hc, hid, hfrontier⟩ | ⟨-, hfrontier⟩
  · rw [hfrontier]
    exact h c hc hid
  · omega

/-- The range an execution holds fits a `BIGINT`. -/
theorem Indexer.WellFormed.range_fits (hs : s.WellFormed) {slot : Nat} {e : Execution}
    (he : s.executions slot = some e) (r : Int × Int) (hr : e.job.range = some r) :
    r.2 < 2 ^ 63 := by
  obtain ⟨row, hrow, hsame⟩ := hs.stored slot e he
  exact (EvmIndexer.range_fits hrow (hsame.range.trans hr)).2.2

/-- The job of an execution on its way to the checkpoint ingests the source the
execution has loaded. -/
theorem Indexer.WellFormed.ingests (hs : s.WellFormed) {slot : Nat} {e : Execution}
    {source : SourceRow} (he : s.executions slot = some e) (hphase : e.phase.to_checkpoint = true)
    (hsource : e.phase.source = some source) : e.job.ingests source.id :=
  ⟨hs.ingesting slot e he hphase, hs.loaded slot e source he hsource⟩

/-- Targets stay covered: a new one lies between the frontier and what the
succeeded ranges and the execution's own reach. -/
theorem Effect.targetsCovered (h : Effect s t op) (hs : s.WellFormed)
    (hmono : ∀ source_id b, covers source_id b → covers' source_id b)
    (hnew : ∀ slot e source observed b, s.executions slot = some e →
      e.phase = .Ingested source observed → covered_with s.db source.id e.job.range b →
      covers source.id b)
    (hcovered : s.TargetsCovered covers) : t.TargetsCovered covers' := by
  intro slot e source observed target he hphase b hstart hb hahead
  apply hmono
  rcases h.execution_mem he with hold | ⟨hleased, -⟩ | ⟨old, hold, ⟨hrunning, -⟩ | ⟨-, -, hchange⟩⟩
  · exact hcovered slot e source observed target hold hphase b hstart hb (h.ahead hahead)
  · exact nomatch hleased.symm.trans hphase
  · exact nomatch hrunning.symm.trans hphase
  · rw [hphase] at hchange
    cases hchange with
    | moved hstep =>
      cases hstep with
      | targeted hbefore htarget =>
        have hfrontier := (h.ahead hahead).frontier_lt hstart
        exact hnew slot old source observed b hold hbefore
          (target_covered (hs.range_fits hold) htarget rfl hfrontier hb)
    | ingested hstep => cases hstep

/-- Checkpoints stay covered in the steps that keep them so. -/
theorem Effect.checkpointCovered (h : Effect s t op) (hs : s.WellFormed)
    (hmono : ∀ source_id b, covers source_id b → covers' source_id b)
    (htargets : s.TargetsCovered covers) (hcovered : s.CheckpointCovered covers)
    (hok : KeepsCovered s covers op) : t.CheckpointCovered covers' := by
  intro c hc source hsource hid b hstart hb
  apply hmono
  cases h with
  | idle _ hsources hcheckpoints | enqueued _ _ _ hsources hcheckpoints
  | leased _ _ _ _ hsources hcheckpoints | running _ _ _ _ hsources hcheckpoints
  | succeeded _ _ _ _ hsources hcheckpoints | gave_up _ _ _ _ _ hsources hcheckpoints
  | dropped _ _ _ hsources hcheckpoints | moved _ _ _ _ hsources hcheckpoints
  | ingested _ _ _ hsources hcheckpoints =>
    exact hcovered c ((hcheckpoints c).1 hc) source ((hsources source).1 hsource) hid b hstart hb
  | @ensured _ _ _ _ _ row hensured hcheckpoints =>
    have hcold := (hcheckpoints c).1 hc
    rcases hensured.change with ⟨old, hold, hchain, hcontract, hrowId, hrows⟩ | ⟨hfree, hrows⟩
    · rcases (hrows source).1 hsource with rfl | ⟨hsource, -⟩
      · -- the overwritten row: below its old start block the condition speaks
        have holdId : old.id = c.source_id := hrowId.symm.trans hid
        rw [hrowId]
        by_cases hbelow : b < old.start_block
        · rw [hensured.starts_at] at hstart
          exact hok old hold hchain hcontract c hcold holdId.symm b hstart hbelow hb
        · exact hcovered c hcold old hold holdId b (not_lt.1 hbelow) hb
      · exact hcovered c hcold source hsource hid b hstart hb
    · rcases (hrows source).1 hsource with rfl | hsource
      · obtain ⟨known, hknown, hknownId⟩ := hs.checkpointed c hcold
        exact absurd (hknownId.trans hid.symm) (hfree known hknown).1
      · exact hcovered c hcold source hsource hid b hstart hb
  | @advanced slot _ e loaded observed target row hslot hphase hadvanced hjobs hsources =>
    have hstored := (hsources source).1 hsource
    rcases (hadvanced.mem_iff c).1 hc with rfl | ⟨hc, -⟩
    · have hloadedId : source.id = loaded.id := hid.trans hadvanced.of_source
      -- below an old checkpoint nothing is new; past it the target reached the block
      by_cases hbehind : ∃ old ∈ s.db.checkpoints.rows, old.source_id = loaded.id ∧
          b ≤ old.processed_block
      · obtain ⟨old, hold, holdId, hle⟩ := hbehind
        exact hcovered old hold source hstored (hloadedId.trans holdId.symm) b hstart hle
      · have hahead : s.Ahead loaded.id b := by
          intro old hold holdId
          by_contra hle
          exact hbehind ⟨old, hold, holdId, not_lt.1 hle⟩
        have hbt : b ≤ target := by
          rcases hadvanced.processed_from with htarget | ⟨old, hold, holdId, hprocessed⟩
          · exact htarget ▸ hb
          · exact absurd ⟨old, hold, holdId, hprocessed ▸ hb⟩ hbehind
        rw [hloadedId]
        -- the source may start earlier than the execution loaded it
        by_cases hbelow : b < loaded.start_block
        · exact hok e loaded observed target hslot hphase source hstored hloadedId b hstart hbelow
            hbt hahead
        · exact htargets slot e loaded observed target hslot hphase b (not_lt.1 hbelow) hbt hahead
    · exact hcovered c hc source hstored hid b hstart hb

/-- A step after which the checkpoints are covered has kept them so, where it
adds no coverage itself. -/
theorem Effect.keepsCovered (h : Effect s t op) (hback : SameJobs s t → t.ingested = s.ingested →
      ∀ source_id b, covers' source_id b → covers source_id b)
    (hcovered : t.CheckpointCovered covers') : KeepsCovered s covers op := by
  cases h with
  | enqueued | leased | running | succeeded | ingested => trivial
  | idle hop => cases op <;> trivial
  | gave_up hop => rcases hop with ⟨_, _, rfl⟩ | ⟨_, rfl⟩ <;> trivial
  | dropped _ hop => rcases hop with rfl | ⟨_, rfl⟩ <;> trivial
  | moved _ _ hphase => cases hphase <;> trivial
  | @ensured _ _ _ _ _ row hensured hcheckpoints hjobs _ hingested =>
    intro source hsource hchain hcontract c hc hid b hstart hbelow hb
    apply hback hjobs hingested
    rcases hensured.change with ⟨old, hold, holdChain, holdContract, hrowId, hrows⟩ | ⟨hfree, -⟩
    · -- the source was there: its checkpoint covers from its start block on
      have hsame : source = old := s.db.sources.eq_of_clash hsource hold
        (Or.inr ⟨hchain.trans holdChain.symm, hcontract.trans holdContract.symm⟩)
      subst hsame
      have hcovers := hcovered c ((hcheckpoints c).2 hc) row ((hrows row).2 (Or.inl rfl))
        (hrowId.trans hid.symm) b (hensured.starts_at ▸ hstart) hb
      exact hrowId ▸ hcovers
    · -- a new source has no checkpoint yet
      exact absurd ⟨hchain, hcontract⟩ (hfree source hsource).2
  -- the checkpoint that is written covers what the execution is about to
  | @advanced slot _ e loaded observed target row hslot hphase hadvanced hjobs hsources _ hingested =>
    intro e' source observed' target' hslot' hphase' stored hstored hid b hstart _ hb _
    apply hback hjobs hingested
    obtain rfl := Option.some_inj.1 (hslot.symm.trans hslot')
    have hsame := hphase.symm.trans hphase'
    injection hsame with hsource _ htarget
    subst hsource htarget
    have hcovers := hcovered row ((hadvanced.mem_iff row).2 (Or.inl rfl)) stored
      ((hsources stored).2 hstored) (hid.trans hadvanced.of_source.symm) b hstart
      (hb.trans hadvanced.le_processed)
    exact hid ▸ hcovers

end Step

end EvmIndexer
