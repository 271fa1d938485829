/-
What the checkpoint of a source is set to.

`next_contiguous_checkpoint_target` is exact: its target is the last block the ranges
reach from the frontier without a gap. That the query leaves out the ranges that end
behind the frontier makes no difference, because no such range covers a block past it.

`advance_checkpoint` is a join: the calls leave the largest processed block, with the hash
it was given with, and the largest finalized block, in whatever order they are made. The
one call it refuses is one that has another hash for the block the checkpoint is at.
-/
import EvmIndexer.Checkpoints
import EvmIndexer.Ledger
import Mathlib.Data.List.Induction
import Mathlib.Order.Bounds.Basic

set_option autoImplicit false

namespace EvmIndexer

open Sql

/-! ## The target is exact

The function loads the succeeded ranges that end past the frontier, adds the completed one,
sorts and sweeps them. Exactness is a fact about sets of blocks, so it neither sees the order
of the ranges nor those that were left out. The additions saturate at the largest `BIGINT`,
where a range ends at most.
-/

/-- The target is the last block the ranges reach past the frontier, if they reach any. -/
structure ExactTarget (frontier : Int) (ranges : List (Int × Int)) (target : Option Int) : Prop where
  some_iff : ∀ t, target = some t ↔
    IsGreatest {t | frontier < t ∧ Coverage.Reaches frontier ranges t} t
  none_iff : target = none ↔ ¬ ∃ t, frontier < t ∧ Coverage.Reaches frontier ranges t

/-- The loop of `next_contiguous_checkpoint_target` over the sorted ranges. -/
def contiguous_target (frontier : Int) (ranges : List (Int × Int)) : Option Int :=
  let target := (ranges.insertionSort range_le).foldl extend_target frontier
  if frontier < target then some target else none

theorem covers_insertionSort {ranges : List (Int × Int)} {b : Int} :
    Coverage.Covers (ranges.insertionSort range_le) b ↔ Coverage.Covers ranges b :=
  exists_congr fun _ => and_congr_left fun _ => List.mem_insertionSort range_le

/-- The loop is exact for any list of ranges, whatever their order and overlaps. -/
theorem contiguous_target_exact {ranges : List (Int × Int)} (hfits : ∀ r ∈ ranges, r.2 < 2 ^ 63)
    (frontier : Int) : ExactTarget frontier ranges (contiguous_target frontier ranges) := by
  have hfits_sorted : ∀ r ∈ ranges.insertionSort range_le, r.2 < 2 ^ 63 :=
    fun r hr => hfits r ((List.mem_insertionSort range_le).1 hr)
  -- sorted ranges reach as far as the sweep does, and sorting moves no block
  have hreaches : ∀ t, Coverage.Reaches frontier ranges t ↔
      t ≤ Coverage.sweep frontier (ranges.insertionSort range_le) := fun t =>
    (Coverage.reaches_congr (fun b _ => covers_insertionSort.symm) t).trans
      (Coverage.reaches_iff_le_sweep (insertionSort_range_le_sorted ranges))
  unfold contiguous_target
  simp only [foldl_extend_target hfits_sorted]
  by_cases hpast : frontier < Coverage.sweep frontier (ranges.insertionSort range_le)
  · -- the sweep got past the frontier, so where it stopped is the target
    have hgreatest : IsGreatest {t | frontier < t ∧ Coverage.Reaches frontier ranges t}
        (Coverage.sweep frontier (ranges.insertionSort range_le)) :=
      ⟨⟨hpast, (hreaches _).2 (le_refl _)⟩, fun t ht => (hreaches t).1 ht.2⟩
    rw [if_pos hpast]
    refine ⟨fun t => ?_, ?_⟩
    · rw [Option.some_inj]
      constructor
      · rintro rfl
        exact hgreatest
      · exact hgreatest.unique
    · constructor
      · intro h
        cases h
      · intro hnone
        exact absurd ⟨_, hgreatest.1⟩ hnone
  · -- the block after the frontier is in no range
    have hnone : ¬ ∃ t, frontier < t ∧ Coverage.Reaches frontier ranges t := by
      rintro ⟨t, hlt, ht⟩
      exact hpast (lt_of_lt_of_le hlt ((hreaches t).1 ht))
    rw [if_neg hpast]
    refine ⟨fun t => ?_, fun _ => hnone, fun _ => rfl⟩
    constructor
    · intro h
      cases h
    · intro h
      exact absurd ⟨t, h.1⟩ hnone

/-- Ranges that cover the same blocks past the frontier have the same exact target. -/
theorem ExactTarget.congr {frontier : Int} {ranges ranges' : List (Int × Int)} {target : Option Int}
    (h : ExactTarget frontier ranges target)
    (hsame : ∀ b, frontier < b → (Coverage.Covers ranges b ↔ Coverage.Covers ranges' b)) :
    ExactTarget frontier ranges' target := by
  have hreaches := Coverage.reaches_congr hsame
  constructor
  · intro t
    rw [h.some_iff]
    simp only [hreaches]
  · rw [h.none_iff]
    simp only [hreaches]

theorem ExactTarget.unique {frontier : Int} {ranges : List (Int × Int)} {a b : Option Int}
    (ha : ExactTarget frontier ranges a) (hb : ExactTarget frontier ranges b) : a = b := by
  refine Option.ext fun t => ?_
  exact (ha.some_iff t).trans (hb.some_iff t).symm

/-- The ranges of the succeeded ingest jobs of a source, wherever they end. -/
def succeeded_ranges (db : Db) (source_id : Uuid) : List (Int × Int) :=
  (db.jobs.rows.filter fun row => row.ingests source_id ∧ row.status = .Succeeded).filterMap
    JobRow.range

theorem mem_succeeded_ranges {db : Db} {source_id : Uuid} {r : Int × Int} :
    r ∈ succeeded_ranges db source_id ↔
      ∃ row ∈ db.jobs.rows, row.ingests source_id ∧ row.status = .Succeeded ∧ row.range = some r := by
  unfold succeeded_ranges
  rw [List.mem_filterMap]
  constructor
  · rintro ⟨row, hrow, hrange⟩
    obtain ⟨hmem, hsucceeded⟩ := List.mem_filter.1 hrow
    obtain ⟨hingests, hstatus⟩ := of_decide_eq_true hsucceeded
    exact ⟨row, hmem, hingests, hstatus, hrange⟩
  · rintro ⟨row, hmem, hingests, hstatus, hrange⟩
    exact ⟨row, List.mem_filter.2 ⟨hmem, decide_eq_true ⟨hingests, hstatus⟩⟩, hrange⟩

/-- Past the frontier the query's ranges cover what all succeeded ranges do. -/
theorem covers_checkpoint_ranges_iff {db : Db} {source_id : Uuid} {frontier : Int}
    {completed_range : Option (Int × Int)} {b : Int} (hb : frontier < b) :
    Coverage.Covers (checkpoint_ranges db source_id frontier completed_range) b ↔
      Coverage.Covers (succeeded_ranges db source_id ++ completed_range.toList) b := by
  rw [covers_checkpoint_ranges hb]
  constructor
  · rintro (⟨row, hrow, hingests, hstatus, r, hrange, hrb⟩ | ⟨r, hr, hrb⟩)
    · have hmem := mem_succeeded_ranges.2 ⟨row, hrow, hingests, hstatus, hrange⟩
      exact ⟨r, List.mem_append_left _ hmem, hrb⟩
    · exact ⟨r, List.mem_append_right _ (Option.mem_toList.2 hr), hrb⟩
  · rintro ⟨r, hr, hrb⟩
    rcases List.mem_append.1 hr with hr | hr
    · obtain ⟨row, hrow, hingests, hstatus, hrange⟩ := mem_succeeded_ranges.1 hr
      exact Or.inl ⟨row, hrow, hingests, hstatus, r, hrange, hrb⟩
    · exact Or.inr ⟨r, Option.mem_toList.1 hr, hrb⟩

/-- The completed range is one the function does not refuse: neither end is negative, and
they are in order. The ranges of jobs are such by the checks of the table. -/
def CompletedRangeValid (completed_range : Option (Int × Int)) : Prop :=
  ∀ r, completed_range = some r → 0 ≤ r.1 ∧ r.1 ≤ r.2

/-- The ranges the query loads: those that end past the frontier. -/
def loaded_ranges (db : Db) (source_id : Uuid) (frontier : Int) : List (Int × Int) :=
  (db.jobs.rows.filter (JobRow.succeeded_past source_id frontier)).filterMap JobRow.range

theorem next_contiguous_checkpoint_target_eq_ok {db : Db} {source : SourceRow}
    {completed_range : Option (Int × Int)} {target : Option Int} :
    next_contiguous_checkpoint_target db source completed_range = .ok target ↔
      CompletedRangeValid completed_range ∧
        target = contiguous_target (checkpoint_frontier db source)
          (loaded_ranges db source.id (checkpoint_frontier db source) ++ completed_range.toList) := by
  have hvalid : CompletedRangeValid completed_range ↔
      ¬ (completed_range.any fun r => decide (r.1 < 0 ∨ r.2 < 0)) = true ∧
        ¬ (completed_range.any fun r => decide (r.2 < r.1)) = true := by
    unfold CompletedRangeValid
    cases completed_range with
    | none => simp
    | some r =>
      simp only [Option.any_some, decide_eq_true_eq, Option.some_inj, forall_eq']
      omega
  unfold next_contiguous_checkpoint_target
  rw [bail_eq_ok, bail_eq_ok, ← and_assoc, ← hvalid]
  refine and_congr_right fun _ => ?_
  rw [Except.ok.injEq, eq_comm]
  rfl

/-- `next_contiguous_checkpoint_target` returns the exact target of a list of ranges: of
any list, as a loop, and of the stored ranges with the completed one, as a function of the
database; the ranges the query leaves out make no difference. -/
theorem checkpoint_target_is_exact :
    (∀ (frontier : Int) (ranges : List (Int × Int)), (∀ r ∈ ranges, r.2 < 2 ^ 63) →
      ExactTarget frontier ranges (contiguous_target frontier ranges)) ∧
    ∀ (db : Db) (source : SourceRow) (completed_range : Option (Int × Int)),
      (∀ r, completed_range = some r → r.2 < 2 ^ 63) →
      (CompletedRangeValid completed_range ↔
        ∃ target, next_contiguous_checkpoint_target db source completed_range = .ok target) ∧
      ∀ target, next_contiguous_checkpoint_target db source completed_range = .ok target →
        ExactTarget (checkpoint_frontier db source)
          (succeeded_ranges db source.id ++ completed_range.toList) target ∧
        target = contiguous_target (checkpoint_frontier db source)
          (succeeded_ranges db source.id ++ completed_range.toList) := by
  refine ⟨fun frontier ranges hfits => contiguous_target_exact hfits frontier, ?_⟩
  intro db source completed_range hfits
  have hfits_all : ∀ r ∈ succeeded_ranges db source.id ++ completed_range.toList, r.2 < 2 ^ 63 := by
    intro r hr
    rcases List.mem_append.1 hr with hr | hr
    · obtain ⟨row, hrow, -, -, hrange⟩ := mem_succeeded_ranges.1 hr
      exact (range_fits hrow hrange).2.2
    · exact hfits r (Option.mem_toList.1 hr)
  constructor
  · constructor
    · intro hvalid
      exact ⟨_, next_contiguous_checkpoint_target_eq_ok.2 ⟨hvalid, rfl⟩⟩
    · rintro ⟨target, h⟩
      exact (next_contiguous_checkpoint_target_eq_ok.1 h).1
  · intro target h
    obtain ⟨-, rfl⟩ := next_contiguous_checkpoint_target_eq_ok.1 h
    have hfits_loaded : ∀ r ∈ loaded_ranges db source.id (checkpoint_frontier db source) ++
        completed_range.toList, r.2 < 2 ^ 63 := by
      intro r hr
      rcases List.mem_append.1 hr with hr | hr
      · obtain ⟨row, hrow, hrange⟩ := List.mem_filterMap.1 hr
        exact (range_fits (List.mem_filter.1 hrow).1 hrange).2.2
      · exact hfits r (Option.mem_toList.1 hr)
    -- the ranges the query leaves out cover nothing past the frontier
    have hexact := (contiguous_target_exact hfits_loaded (checkpoint_frontier db source)).congr
      fun b hb => covers_insertionSort.symm.trans (covers_checkpoint_ranges_iff hb)
    exact ⟨hexact, hexact.unique (contiguous_target_exact hfits_all _)⟩

/-- Three ranges out of order, two of them nested, and an empty database with a completed
range: the frontier 99 is extended to 299, and the one of a new source to 9. -/
theorem checkpoint_target_is_exact_to_299 :
    ExactTarget 99 [(200, 299), (100, 199), (150, 180)] (some 299) ∧
      ∃ target, next_contiguous_checkpoint_target Db.empty small_source (some (0, 9)) = .ok target ∧
        ExactTarget (-1) [(0, 9)] target := by
  have hloop := checkpoint_target_is_exact.1 99 [(200, 299), (100, 199), (150, 180)] (by decide)
  have hreached : contiguous_target 99 [(200, 299), (100, 199), (150, 180)] = some 299 := by decide
  rw [hreached] at hloop
  have hcode := checkpoint_target_is_exact.2 Db.empty small_source (some (0, 9))
    (fun r hr => by rw [← Option.some_inj.1 hr]; decide)
  obtain ⟨target, htarget⟩ := hcode.1.1 fun r hr => by rw [← Option.some_inj.1 hr]; decide
  exact ⟨hloop, target, htarget, (hcode.2 target htarget).1⟩

/-! ## Updates are a join

A call takes the larger of two processed blocks with the hash that goes with it, and the
larger of two finalized blocks. So the row after a list of calls is a join over the list, and
the order of commits does not show in it. Hashes are compared without letter case, and only
between calls for one processed block.
-/

/-- A call of `advance_checkpoint` for a source. -/
structure AdvanceCall where
  processed_block : Int
  processed_block_hash : String
  finalized_block : Int
  deriving DecidableEq, Repr

/-- The call, on a database. -/
def AdvanceCall.run (source_id : Uuid) (db : Db) (call : AdvanceCall) :
    Result (CheckpointRow × Db) :=
  advance_checkpoint db source_id call.processed_block call.processed_block_hash call.finalized_block

/-- The database after the call: what its transaction left, or what it was rolled back to. -/
def AdvanceCall.commit (source_id : Uuid) (db : Db) (call : AdvanceCall) : Db :=
  match call.run source_id db with
  | .ok (_, db') => db'
  | .error _ => db

/-- The database after the calls, one after the other. -/
def commit_calls (source_id : Uuid) (db : Db) (calls : List AdvanceCall) : Db :=
  calls.foldl (AdvanceCall.commit source_id) db

/-- The row is the join of the calls: the largest processed block, the hash it was given
with, the largest finalized block. -/
structure IsJoin (calls : List AdvanceCall) (row : CheckpointRow) : Prop where
  processed : IsGreatest {n | ∃ call ∈ calls, call.processed_block = n} row.processed_block
  hash : ∀ call ∈ calls, call.processed_block = row.processed_block →
    row.processed_block_hash = to_ascii_lowercase call.processed_block_hash
  finalized : IsGreatest {n | ∃ call ∈ calls, call.finalized_block = n} row.finalized_block

/-- The row a call inserts where the source has no checkpoint. -/
def AdvanceCall.row (id source_id : Uuid) (call : AdvanceCall) : CheckpointRow :=
  { id
    source_id
    processed_block := call.processed_block
    processed_block_hash := to_ascii_lowercase call.processed_block_hash
    finalized_block := call.finalized_block }

/-- The identifiers of the checkpoints were all handed out, so the identifier drawn for a new
row is none of theirs and the insert is not refused. -/
def FreshCheckpointIds (db : Db) : Prop := ∀ row ∈ db.checkpoints.rows, row.id < db.next_uuid

/-- The call is one `advance_checkpoint` does not refuse for its blocks. -/
def AdvanceCall.Valid (call : AdvanceCall) : Prop :=
  0 ≤ call.processed_block ∧ call.processed_block ≤ call.finalized_block

instance (call : AdvanceCall) : Decidable call.Valid := inferInstanceAs (Decidable (_ ∧ _))

section Join

variable {db : Db} {source_id : Uuid} {call : AdvanceCall}

/-- Without a checkpoint the call inserts one, and a valid call is not refused: the
identifier is fresh, no row is of the source, and the values are those the call has checked.
-/
theorem run_inserts (hvalid : call.Valid) (hfresh : FreshCheckpointIds db)
    (hnone : checkpoint_for_source db source_id = none) :
    ∃ db', call.run source_id db = .ok (call.row db.next_uuid source_id, db') ∧
      FreshCheckpointIds db' := by
  unfold AdvanceCall.Valid at hvalid
  have hfree : ∀ row ∈ db.checkpoints.rows, row.source_id ≠ source_id := by
    intro row hrow hid
    have hfound := checkpoint_for_source_eq_some.2 ⟨hrow, hid⟩
    rw [hnone] at hfound
    cases hfound
  -- neither the fresh id nor the source is in the table
  have hunclashing : ∀ row ∈ db.checkpoints.rows,
      ¬ Schema.Clash row (call.row db.next_uuid source_id) := by
    rintro row hrow (hid | hid)
    · exact absurd hid (ne_of_lt (hfresh row hrow))
    · exact hfree row hrow hid
  have hcheck : Schema.Check (call.row db.next_uuid source_id) :=
    ⟨hvalid.1, le_trans hvalid.1 hvalid.2, hvalid.2⟩
  obtain ⟨checkpoints, hinsert⟩ := Table.exists_insert hcheck hunclashing
  refine ⟨{ db with next_uuid := db.next_uuid + 1, checkpoints }, ?_, ?_⟩
  · unfold AdvanceCall.row at hinsert
    unfold AdvanceCall.run advance_checkpoint
    -- a valid call passes the three checks
    rw [if_neg (by omega), if_neg (by omega), if_neg (by omega), hnone]
    simp only [hinsert]
    rfl
  · intro row hrow
    show row.id < db.next_uuid + 1
    rw [(Table.insert_eq_some.1 hinsert).2] at hrow
    rcases List.mem_append.1 hrow with hrow | hrow
    · exact lt_trans (hfresh row hrow) (Nat.lt_succ_self _)
    · rw [List.mem_singleton.1 hrow]
      exact Nat.lt_succ_self _

/-- The join of a checkpoint and a valid call passes the `CHECK`s. -/
theorem advance_check (hvalid : call.Valid) {row : CheckpointRow} (hcheck : Schema.Check row) :
    Schema.Check (row.advance call.processed_block (to_ascii_lowercase call.processed_block_hash)
      call.finalized_block) := by
  obtain ⟨hprocessed, hfinalized, hordered⟩ := hcheck
  refine ⟨le_trans hprocessed (le_max_left _ _), le_trans hfinalized (le_max_left _ _), ?_⟩
  exact max_le_max hordered hvalid.2

/-- A call that agrees with the checkpoint about the hash of its block joins it. -/
theorem run_joins (hvalid : call.Valid) (hfresh : FreshCheckpointIds db) {existing : CheckpointRow}
    (hexisting : checkpoint_for_source db source_id = some existing)
    (hhash : call.processed_block = existing.processed_block →
      to_ascii_lowercase call.processed_block_hash = existing.processed_block_hash) :
    ∃ db', call.run source_id db = .ok (existing.advance call.processed_block
        (to_ascii_lowercase call.processed_block_hash) call.finalized_block, db') ∧
      FreshCheckpointIds db' := by
  have hnonneg := hvalid
  unfold AdvanceCall.Valid at hnonneg
  have hagrees : ¬ (call.processed_block = existing.processed_block ∧
      to_ascii_lowercase call.processed_block_hash ≠ existing.processed_block_hash) :=
    fun h => h.2 (hhash h.1)
  by_cases hbehind : call.processed_block < existing.processed_block ∧
      call.finalized_block ≤ existing.finalized_block
  · -- the early return: the join is the stored row
    have hsame : existing.advance call.processed_block (to_ascii_lowercase call.processed_block_hash)
        call.finalized_block = existing := by
      unfold CheckpointRow.advance
      rw [max_eq_left (le_of_lt hbehind.1), max_eq_left hbehind.2, if_neg (by omega)]
    refine ⟨db, ?_, hfresh⟩
    unfold AdvanceCall.run advance_checkpoint
    rw [if_neg (by omega), if_neg (by omega), if_neg (by omega), hexisting]
    simp only
    rw [if_neg hagrees, if_pos hbehind, hsame]
  · -- the update: every row it writes passes the `CHECK`s
    have hexists : ∃ checkpoints, db.checkpoints.update (fun r => r.id == existing.id)
        (CheckpointRow.advance call.processed_block (to_ascii_lowercase call.processed_block_hash)
          call.finalized_block) (fun _ _ => Iff.rfl) = some checkpoints :=
      Table.exists_update fun row hrow _ => advance_check hvalid (db.checkpoints.checked row hrow)
    obtain ⟨checkpoints, hupdate⟩ := hexists
    refine ⟨{ db with checkpoints }, ?_, ?_⟩
    · unfold AdvanceCall.run advance_checkpoint
      rw [if_neg (by omega), if_neg (by omega), if_neg (by omega), hexisting]
      simp only
      rw [if_neg hagrees, if_neg hbehind, hupdate]
      rfl
    · intro row hrow
      rw [(Table.update_eq_some.1 hupdate).2] at hrow
      obtain ⟨old, hold, rfl⟩ := List.mem_map.1 hrow
      rw [Table.setRow_keeps CheckpointRow.id]
      exact hfresh old hold

/-- A call that has another hash for the block of the checkpoint is refused. -/
theorem run_refuses {existing : CheckpointRow}
    (hexisting : checkpoint_for_source db source_id = some existing)
    (hblock : call.processed_block = existing.processed_block)
    (hhash : to_ascii_lowercase call.processed_block_hash ≠ existing.processed_block_hash) :
    ∃ e, call.run source_id db = .error e := by
  unfold AdvanceCall.run advance_checkpoint
  by_cases hprocessed : call.processed_block < 0
  · rw [if_pos hprocessed]
    exact ⟨_, rfl⟩
  · rw [if_neg hprocessed]
    by_cases hfinalized : call.finalized_block < 0
    · rw [if_pos hfinalized]
      exact ⟨_, rfl⟩
    · rw [if_neg hfinalized]
      by_cases hordered : call.finalized_block < call.processed_block
      · rw [if_pos hordered]
        exact ⟨_, rfl⟩
      · rw [if_neg hordered, hexisting]
        simp only
        rw [if_pos ⟨hblock, hhash⟩]
        exact ⟨_, rfl⟩

/-- The join of earlier calls and one more, which agrees with them about the hash of its
block. -/
theorem IsJoin.snoc {done : List AdvanceCall} {existing : CheckpointRow} (h : IsJoin done existing)
    (hagree : ∀ earlier ∈ done, earlier.processed_block = call.processed_block →
      to_ascii_lowercase earlier.processed_block_hash
        = to_ascii_lowercase call.processed_block_hash) :
    IsJoin (done ++ [call]) (existing.advance call.processed_block
      (to_ascii_lowercase call.processed_block_hash) call.finalized_block) := by
  obtain ⟨top, htop, htop_block⟩ := h.processed.1
  obtain ⟨deep, hdeep, hdeep_block⟩ := h.finalized.1
  have hbelow : ∀ earlier ∈ done, earlier.processed_block ≤ existing.processed_block :=
    fun earlier hearlier => h.processed.2 ⟨earlier, hearlier, rfl⟩
  unfold CheckpointRow.advance
  refine ⟨⟨?_, ?_⟩, ?_, ?_, ?_⟩
  · -- the greater of the two blocks is one of a call
    by_cases hnew : existing.processed_block < call.processed_block
    · exact ⟨call, by simp, (max_eq_right (le_of_lt hnew)).symm⟩
    · exact ⟨top, List.mem_append_left _ htop, by simp only [htop_block]; omega⟩
  · rintro _ ⟨made, hmade, rfl⟩
    rcases List.mem_append.1 hmade with hmade | hmade
    · exact le_trans (hbelow made hmade) (le_max_left _ _)
    · rw [List.mem_singleton.1 hmade]
      exact le_max_right _ _
  · intro made hmade hblock
    simp only at hblock ⊢
    by_cases hnew : existing.processed_block < call.processed_block
    · -- the block is the new call's, and no earlier call has it
      rw [if_pos hnew]
      rcases List.mem_append.1 hmade with hmade | hmade
      · have hle := hbelow made hmade
        omega
      · rw [List.mem_singleton.1 hmade]
    · rw [if_neg hnew]
      rcases List.mem_append.1 hmade with hmade | hmade
      · exact h.hash made hmade (by omega)
      · -- the call has the block the checkpoint is at, so it agrees with the call that set it
        rw [List.mem_singleton.1 hmade] at hblock ⊢
        rw [h.hash top htop htop_block]
        exact hagree top htop (by omega)
  · by_cases hnew : existing.finalized_block < call.finalized_block
    · exact ⟨call, by simp, (max_eq_right (le_of_lt hnew)).symm⟩
    · exact ⟨deep, List.mem_append_left _ hdeep, by simp only [hdeep_block]; omega⟩
  · rintro _ ⟨made, hmade, rfl⟩
    rcases List.mem_append.1 hmade with hmade | hmade
    · exact le_trans (h.finalized.2 ⟨made, hmade, rfl⟩) (le_max_left _ _)
    · rw [List.mem_singleton.1 hmade]
      exact le_max_right _ _

theorem isJoin_single (id : Uuid) : IsJoin [call] (call.row id source_id) := by
  refine ⟨⟨⟨call, List.mem_singleton_self call, rfl⟩, ?_⟩, ?_,
    ⟨call, List.mem_singleton_self call, rfl⟩, ?_⟩
  · rintro _ ⟨made, hmade, rfl⟩
    rw [List.mem_singleton.1 hmade]
    exact le_refl _
  · intro made hmade _
    rw [List.mem_singleton.1 hmade]
    rfl
  · rintro _ ⟨made, hmade, rfl⟩
    rw [List.mem_singleton.1 hmade]
    exact le_refl _

/-- After the calls in `done`: no checkpoint, or their join. -/
structure Joined (db : Db) (source_id : Uuid) (done : List AdvanceCall) : Prop where
  fresh : FreshCheckpointIds db
  checkpoint : (done = [] ∧ checkpoint_for_source db source_id = none) ∨
    ∃ row, checkpoint_for_source db source_id = some row ∧ IsJoin done row

/-- Two calls with the same processed block have the same hash, up to letter case. Where they
do not, the second of the two is refused, and which of them that is depends on the order. -/
def HashesAgree (calls : List AdvanceCall) : Prop :=
  ∀ a ∈ calls, ∀ b ∈ calls, a.processed_block = b.processed_block →
    to_ascii_lowercase a.processed_block_hash = to_ascii_lowercase b.processed_block_hash

theorem commit_of_run {row : CheckpointRow} {db' : Db} (h : call.run source_id db = .ok (row, db')) :
    call.commit source_id db = db' := by
  unfold AdvanceCall.commit
  rw [h]

theorem commit_of_refused {e : String} (h : call.run source_id db = .error e) :
    call.commit source_id db = db := by
  unfold AdvanceCall.commit
  rw [h]

theorem commit_calls_snoc (done : List AdvanceCall) :
    commit_calls source_id db (done ++ [call])
      = call.commit source_id (commit_calls source_id db done) := by
  unfold commit_calls
  rw [List.foldl_append]
  rfl

/-- What a call returns is the checkpoint it leaves. -/
theorem checkpoint_of_run {row : CheckpointRow} {db' : Db}
    (h : call.run source_id db = .ok (row, db')) : checkpoint_for_source db' source_id = some row := by
  obtain ⟨-, hadvanced⟩ := advance_checkpoint_spec h
  exact checkpoint_for_source_eq_some.2 ⟨(hadvanced.mem_iff row).2 (Or.inl rfl), hadvanced.of_source⟩

/-- One more valid call that agrees with the earlier ones succeeds, moves nothing back and
leaves the join. -/
theorem Joined.step {done : List AdvanceCall} (h : Joined db source_id done) (hvalid : call.Valid)
    (hagree : HashesAgree (done ++ [call])) :
    ∃ row db', call.run source_id db = .ok (row, db') ∧ Joined db' source_id (done ++ [call]) ∧
      ∀ old, checkpoint_for_source db source_id = some old →
        old.processed_block ≤ row.processed_block ∧ old.finalized_block ≤ row.finalized_block := by
  have hagree_call : ∀ earlier ∈ done, earlier.processed_block = call.processed_block →
      to_ascii_lowercase earlier.processed_block_hash
        = to_ascii_lowercase call.processed_block_hash :=
    fun earlier hearlier => hagree earlier (List.mem_append_left _ hearlier) call (by simp)
  -- the first call inserts its row, a later one joins the row that is there
  rcases h.checkpoint with ⟨rfl, hnone⟩ | ⟨existing, hexisting, hjoin⟩
  · obtain ⟨db', hrun, hfresh⟩ := run_inserts hvalid h.fresh hnone
    refine ⟨_, db', hrun, ⟨hfresh, Or.inr ⟨_, checkpoint_of_run hrun, isJoin_single _⟩⟩, ?_⟩
    intro old hold
    rw [hnone] at hold
    cases hold
  · obtain ⟨top, htop, htop_block⟩ := hjoin.processed.1
    -- the checkpoint has the hash of the call that set it, and this call agrees with that one
    have hhash : call.processed_block = existing.processed_block →
        to_ascii_lowercase call.processed_block_hash = existing.processed_block_hash := by
      intro hblock
      rw [hjoin.hash top htop htop_block]
      exact (hagree_call top htop (htop_block.trans hblock.symm)).symm
    obtain ⟨db', hrun, hfresh⟩ := run_joins hvalid h.fresh hexisting hhash
    refine ⟨_, db', hrun,
      ⟨hfresh, Or.inr ⟨_, checkpoint_of_run hrun, hjoin.snoc hagree_call⟩⟩, ?_⟩
    intro old hold
    rw [hexisting] at hold
    rw [← Option.some_inj.1 hold]
    exact ⟨le_max_left _ _, le_max_left _ _⟩

/-- After every run of calls the checkpoint is their join. -/
theorem Joined.run (hfresh : FreshCheckpointIds db)
    (hnone : checkpoint_for_source db source_id = none) (done : List AdvanceCall)
    (hvalid : ∀ call ∈ done, call.Valid) (hagree : HashesAgree done) :
    Joined (commit_calls source_id db done) source_id done := by
  induction done using List.reverseRecOn with
  | nil => exact ⟨hfresh, Or.inl ⟨rfl, hnone⟩⟩
  | append_singleton earlier last ih =>
    have hearlier := ih (fun call hcall => hvalid call (List.mem_append_left _ hcall))
      (fun a ha b hb => hagree a (List.mem_append_left _ ha) b (List.mem_append_left _ hb))
    obtain ⟨row, db', hrun, hjoined, -⟩ := hearlier.step (hvalid last (by simp)) hagree
    rw [commit_calls_snoc, commit_of_run hrun]
    exact hjoined

end Join

/-- The calls of a source without a checkpoint, in any order, all succeed, move nothing
back, keep the processed block at or below the finalized one, and leave their join; a call
with another hash for the block of the checkpoint fails and changes nothing. -/
theorem checkpoint_updates_are_a_join (db : Db) (source_id : Uuid) (hfresh : FreshCheckpointIds db)
    (hnone : checkpoint_for_source db source_id = none) :
    (∀ calls : List AdvanceCall, (∀ call ∈ calls, call.Valid) → HashesAgree calls →
      ∀ order, order.Perm calls →
        (∀ done call rest, order = done ++ call :: rest →
          ∃ row db', call.run source_id (commit_calls source_id db done) = .ok (row, db') ∧
            checkpoint_for_source db' source_id = some row ∧
            row.processed_block ≤ row.finalized_block ∧
            ∀ old, checkpoint_for_source (commit_calls source_id db done) source_id = some old →
              old.processed_block ≤ row.processed_block ∧
                old.finalized_block ≤ row.finalized_block) ∧
        (calls ≠ [] → ∃ row,
          checkpoint_for_source (commit_calls source_id db order) source_id = some row ∧
            IsJoin calls row)) ∧
    ∀ (done : List AdvanceCall) (call : AdvanceCall) (row : CheckpointRow),
      checkpoint_for_source (commit_calls source_id db done) source_id = some row →
      call.processed_block = row.processed_block →
      to_ascii_lowercase call.processed_block_hash ≠ row.processed_block_hash →
      (∃ e, call.run source_id (commit_calls source_id db done) = .error e) ∧
        commit_calls source_id db (done ++ [call]) = commit_calls source_id db done := by
  constructor
  · intro calls hvalid hagree order hperm
    have hvalid_order : ∀ call ∈ order, call.Valid :=
      fun call hcall => hvalid call (hperm.mem_iff.1 hcall)
    have hagree_order : HashesAgree order :=
      fun a ha b hb => hagree a (hperm.mem_iff.1 ha) b (hperm.mem_iff.1 hb)
    constructor
    · rintro done call rest rfl
      -- the calls made so far are calls of the list
      have hsub : ∀ made ∈ done ++ [call], made ∈ done ++ call :: rest := by
        intro made hmade
        rw [List.append_cons]
        exact List.mem_append_left _ hmade
      have hjoined := Joined.run hfresh hnone done
        (fun made hmade => hvalid_order made (hsub made (List.mem_append_left _ hmade)))
        (fun a ha b hb => hagree_order a (hsub a (List.mem_append_left _ ha)) b
          (hsub b (List.mem_append_left _ hb)))
      obtain ⟨row, db', hrun, -, hkeeps⟩ := hjoined.step (hvalid_order call (hsub call (by simp)))
        (fun a ha b hb => hagree_order a (hsub a ha) b (hsub b hb))
      have hcheckpoint := checkpoint_of_run hrun
      have hcheck := db'.checkpoints.checked row (checkpoint_for_source_eq_some.1 hcheckpoint).1
      exact ⟨row, db', hrun, hcheckpoint, hcheck.2.2, hkeeps⟩
    · intro hne
      rcases (Joined.run hfresh hnone order hvalid_order hagree_order).checkpoint with
        ⟨rfl, -⟩ | ⟨row, hrow, hjoin⟩
      · exact absurd hperm.nil_eq.symm hne
      · refine ⟨row, hrow, ?_⟩
        -- the join of a list is that of any order of it
        have hsame : ∀ p : AdvanceCall → Prop, (∃ call ∈ order, p call) ↔ ∃ call ∈ calls, p call :=
          fun p => exists_congr fun call => and_congr_left fun _ => hperm.mem_iff
        refine ⟨?_, fun call hcall => hjoin.hash call (hperm.mem_iff.2 hcall), ?_⟩
        · simpa only [hsame] using hjoin.processed
        · simpa only [hsame] using hjoin.finalized
  · intro done call row hrow hblock hhash
    obtain ⟨e, hrun⟩ := run_refuses hrow hblock hhash
    refine ⟨⟨e, hrun⟩, ?_⟩
    rw [commit_calls_snoc]
    exact commit_of_refused hrun

/-- Three calls, two for block 10 with its hash in different letter case. -/
def three_calls : List AdvanceCall :=
  [{ processed_block := 10, processed_block_hash := "0xAA", finalized_block := 20 },
   { processed_block := 12, processed_block_hash := "0xBB", finalized_block := 15 },
   { processed_block := 10, processed_block_hash := "0xaa", finalized_block := 30 }]

/-- The database with the row of the source, which a checkpoint refers to. -/
def source_stored : Db := (small_ledger []).foldl (LedgerOp.commit plain_digits) Db.empty

/-- Made in the opposite order they leave block 12 with its hash, and block 30. -/
theorem checkpoint_updates_are_a_join_three_calls :
    source_stored.sources.rows = [small_source] ∧
    (∃ row, checkpoint_for_source (commit_calls 0 source_stored three_calls.reverse) 0 = some row ∧
      IsJoin three_calls row) ∧
    (checkpoint_for_source (commit_calls 0 source_stored three_calls.reverse) 0).map (fun row =>
      (row.processed_block, row.processed_block_hash, row.finalized_block)) = some (12, "0xbb", 30) := by
  have hfresh : FreshCheckpointIds source_stored := by
    unfold FreshCheckpointIds
    decide +kernel
  have hnone : checkpoint_for_source source_stored 0 = none := by decide +kernel
  have hjoin := (checkpoint_updates_are_a_join source_stored 0 hfresh hnone).1 three_calls (by decide)
    (by unfold HashesAgree; decide +kernel) three_calls.reverse (List.reverse_perm three_calls)
  exact ⟨by decide +kernel, hjoin.2 (by decide), by decide +kernel⟩

end EvmIndexer
