/-
What the checkpoint of a source is computed from, and what advancing it does.

`next_contiguous_checkpoint_target` sorts ranges and sweeps them, so it is an
instance of `Coverage.sweep`: the target ends the stretch that the succeeded
ranges and the completed one cover without a gap from the frontier on
(`target_covered`), and no such stretch goes further (`le_target_of_covered`).
The statements are about job rows rather than ranges: `Db.ingest_covers` says
that a block lies in an ingest job of the source whose row has some property,
and each result about the checkpoint chooses the property.
-/
import EvmIndexer.LedgerRepository
import EvmIndexer.Lib.Coverage

set_option autoImplicit false

namespace EvmIndexer

open Sql

/-! ## Blocks and jobs

A block is covered for a source when an ingest job of the source has it in its range and the
row of the job has the property in question: it succeeded, it was ingested, it can still be
leased. The range is read from two nullable columns, and the `CHECK` of the table keeps their
order.
-/

/-- The job ingests blocks of the source. -/
def JobRow.ingests (source_id : Uuid) (row : JobRow) : Prop :=
  row.job_type = .IngestRange ∧ row.source_id = some source_id

instance (source_id : Uuid) (row : JobRow) : Decidable (row.ingests source_id) :=
  inferInstanceAs (Decidable (_ ∧ _))

/-- The block lies in the range of the job. -/
def JobRow.contains (row : JobRow) (b : Int) : Prop :=
  ∃ r, row.range = some r ∧ Coverage.Contains r b

instance (row : JobRow) (b : Int) : Decidable (row.contains b) :=
  decidable_of_iff (row.range.any fun r => decide (Coverage.Contains r b)) (by
    simp [JobRow.contains, Option.any_eq_true])

/-- The block lies in the range of an ingest job of the source whose row has the
property. -/
def Db.ingest_covers (db : Db) (source_id : Uuid) (p : JobRow → Prop) (b : Int) : Prop :=
  ∃ row ∈ db.jobs.rows, row.ingests source_id ∧ p row ∧ row.contains b

theorem Db.ingest_covers.mono {db : Db} {source_id : Uuid} {p q : JobRow → Prop} {b : Int}
    (h : db.ingest_covers source_id p b) (hpq : ∀ row ∈ db.jobs.rows, p row → q row) :
    db.ingest_covers source_id q b := by
  obtain ⟨row, hrow, hingests, hp, hb⟩ := h
  exact ⟨row, hrow, hingests, hpq row hrow hp, hb⟩

theorem JobRow.range_eq_some {row : JobRow} {r : Int × Int} :
    row.range = some r ↔ row.from_block = some r.1 ∧ row.to_block = some r.2 := by
  unfold JobRow.range
  split
  · rename_i from_block to_block hfrom hto
    rw [hfrom, hto, Option.some_inj, Option.some_inj, Option.some_inj, Prod.ext_iff]
  · rename_i hnone
    constructor
    · intro h
      cases h
    · rintro ⟨hfrom, hto⟩
      exact absurd hto (hnone _ _ hfrom)

theorem succeeded_past_iff {source_id : Uuid} {frontier : Int} {row : JobRow} :
    row.succeeded_past source_id frontier = true ↔
      row.ingests source_id ∧ row.status = .Succeeded ∧
        ∃ r, row.range = some r ∧ frontier < r.2 := by
  simp only [JobRow.succeeded_past, JobRow.ingests, JobRow.range_eq_some, Bool.and_eq_true,
    beq_iff_eq, Option.isSome_iff_exists, Option.any_eq_true, decide_eq_true_eq]
  constructor
  · rintro ⟨⟨⟨⟨hsource, htype⟩, hstatus⟩, from_block, hfrom⟩, to_block, hto, hpast⟩
    exact ⟨⟨htype, hsource⟩, hstatus, (from_block, to_block), ⟨hfrom, hto⟩, hpast⟩
  · rintro ⟨⟨htype, hsource⟩, hstatus, r, ⟨hfrom, hto⟩, hpast⟩
    exact ⟨⟨⟨⟨hsource, htype⟩, hstatus⟩, r.1, hfrom⟩, r.2, hto, hpast⟩

/-- The range of a stored job fits a `BIGINT`. -/
theorem range_fits {db : Db} {row : JobRow} (hrow : row ∈ db.jobs.rows) {r : Int × Int}
    (hr : row.range = some r) : 0 ≤ r.1 ∧ r.1 ≤ r.2 ∧ r.2 < 2 ^ 63 := by
  obtain ⟨hfrom, hto⟩ := JobRow.range_eq_some.1 hr
  have hcheck := db.jobs.checked row hrow
  obtain ⟨hfromCheck, htoCheck, hordered, -⟩ := hcheck
  rw [hfrom] at hfromCheck hordered
  rw [hto] at htoCheck hordered
  exact ⟨hfromCheck.1, hordered, htoCheck.2⟩

/-! ## The target

Two of the three things that could spoil the sweep do not happen. The saturating addition
never saturates on ranges that fit the column, and the ranges that the query drops end at or
before the frontier. The third, that the completed range is of a job that did not ingest it,
is up to the caller.
-/

theorem range_le_total (a b : Int × Int) : range_le a b ∨ range_le b a := by
  unfold range_le
  omega

theorem range_le_trans {a b c : Int × Int} (h : range_le a b) (k : range_le b c) :
    range_le a c := by
  unfold range_le at *
  omega

theorem insertionSort_range_le_sorted (ranges : List (Int × Int)) :
    Coverage.Sorted (ranges.insertionSort range_le) := by
  have : Std.Total range_le := ⟨range_le_total⟩
  have : IsTrans (Int × Int) range_le := ⟨fun _ _ _ => range_le_trans⟩
  refine (List.pairwise_insertionSort range_le ranges).imp fun {a b} hab => ?_
  unfold range_le at hab
  omega

/-- Saturating the addition changes nothing for a range that fits a `BIGINT`. -/
theorem extend_target_eq {target : Int} {r : Int × Int} (hr : r.2 < 2 ^ 63) :
    extend_target target r = Coverage.extend target r := by
  have hsame : (r.1 ≤ i64_saturating_add target 1 ∧ target < r.2) ↔
      (r.1 ≤ target + 1 ∧ target < r.2) := by
    unfold i64_saturating_add
    omega
  unfold extend_target Coverage.extend
  simp only [hsame]

theorem foldl_extend_target {ranges : List (Int × Int)} (h : ∀ r ∈ ranges, r.2 < 2 ^ 63)
    (frontier : Int) : ranges.foldl extend_target frontier = Coverage.sweep frontier ranges := by
  induction ranges generalizing frontier with
  | nil => rfl
  | cons r rest ih =>
    have hr : extend_target frontier r = Coverage.extend frontier r :=
      extend_target_eq (h r (List.mem_cons_self ..))
    have hrest := ih (fun s hs => h s (List.mem_cons_of_mem _ hs)) (extend_target frontier r)
    rw [List.foldl_cons, hrest, hr]
    rfl

theorem mem_checkpoint_ranges {db : Db} {source_id : Uuid} {frontier : Int}
    {completed_range : Option (Int × Int)} {r : Int × Int} :
    r ∈ checkpoint_ranges db source_id frontier completed_range ↔
      (∃ row ∈ db.jobs.rows, row.ingests source_id ∧ row.status = .Succeeded ∧
        row.range = some r ∧ frontier < r.2) ∨ completed_range = some r := by
  unfold checkpoint_ranges
  rw [List.mem_insertionSort, List.mem_append, List.mem_filterMap, Option.mem_toList]
  constructor
  · rintro (⟨row, hrow, hr⟩ | hr)
    · obtain ⟨hmem, hpast⟩ := List.mem_filter.1 hrow
      obtain ⟨hingests, hstatus, s, hs, hlt⟩ := succeeded_past_iff.1 hpast
      obtain rfl := Option.some_inj.1 (hr.symm.trans hs)
      exact Or.inl ⟨row, hmem, hingests, hstatus, hs, hlt⟩
    · exact Or.inr hr
  · rintro (⟨row, hrow, hingests, hstatus, hr, hlt⟩ | hr)
    · have hpast := succeeded_past_iff.2 ⟨hingests, hstatus, r, hr, hlt⟩
      exact Or.inl ⟨row, List.mem_filter.2 ⟨hrow, hpast⟩, hr⟩
    · exact Or.inr hr

/-- The block lies in a succeeded ingest job of the source, or in the range just
completed. -/
def covered_with (db : Db) (source_id : Uuid) (completed_range : Option (Int × Int)) (b : Int) :
    Prop :=
  db.ingest_covers source_id (fun row => row.status = .Succeeded) b ∨
    ∃ r, completed_range = some r ∧ Coverage.Contains r b

theorem covers_checkpoint_ranges {db : Db} {source_id : Uuid} {frontier : Int}
    {completed_range : Option (Int × Int)} {b : Int} (hb : frontier < b) :
    Coverage.Covers (checkpoint_ranges db source_id frontier completed_range) b ↔
      covered_with db source_id completed_range b := by
  constructor
  · rintro ⟨r, hr, hrb⟩
    rcases mem_checkpoint_ranges.1 hr with ⟨row, hrow, hingests, hstatus, hrange, -⟩ | hrange
    · exact Or.inl ⟨row, hrow, hingests, hstatus, r, hrange, hrb⟩
    · exact Or.inr ⟨r, hrange, hrb⟩
  · rintro (⟨row, hrow, hingests, hstatus, r, hrange, hrb⟩ | ⟨r, hrange, hrb⟩)
    · -- a range that holds a block past the frontier ends past it, so the filter keeps it
      have hpast : frontier < r.2 := by
        unfold Coverage.Contains at hrb
        omega
      exact ⟨r, mem_checkpoint_ranges.2 (Or.inl ⟨row, hrow, hingests, hstatus, hrange, hpast⟩), hrb⟩
    · exact ⟨r, mem_checkpoint_ranges.2 (Or.inr hrange), hrb⟩

section Target

variable {db : Db} {source : SourceRow} {completed_range : Option (Int × Int)} {target : Option Int}

/-- The target is where the sweep ends, if that is past the frontier. -/
theorem next_contiguous_checkpoint_target_spec
    (hfits : ∀ r, completed_range = some r → r.2 < 2 ^ 63)
    (h : next_contiguous_checkpoint_target db source completed_range = .ok target) :
    target.getD (checkpoint_frontier db source) = Coverage.sweep (checkpoint_frontier db source)
        (checkpoint_ranges db source.id (checkpoint_frontier db source) completed_range) ∧
      ∀ t, target = some t → checkpoint_frontier db source < t := by
  -- no range ends past `i64::MAX`, so the saturating sum changes no comparison
  have hbound : ∀ r ∈ checkpoint_ranges db source.id (checkpoint_frontier db source)
      completed_range, r.2 < 2 ^ 63 := by
    intro r hr
    rcases mem_checkpoint_ranges.1 hr with ⟨row, hrow, -, -, hrange, -⟩ | hrange
    · exact (range_fits hrow hrange).2.2
    · exact hfits r hrange
  have hsweep := foldl_extend_target hbound (checkpoint_frontier db source)
  have hle := Coverage.le_sweep (checkpoint_frontier db source)
    (checkpoint_ranges db source.id (checkpoint_frontier db source) completed_range)
  unfold next_contiguous_checkpoint_target at h
  rw [bail_eq_ok, bail_eq_ok] at h
  obtain ⟨-, -, h⟩ := h
  have htarget := Except.ok.inj h
  simp only [hsweep] at htarget
  rw [← htarget]
  split
  · rename_i hlt
    refine ⟨rfl, fun t ht => ?_⟩
    rw [← Option.some_inj.1 ht]
    exact hlt
  · rename_i hge
    refine ⟨?_, fun t ht => nomatch ht⟩
    rw [Option.getD_none]
    omega

/-- Everything from the frontier to the target is covered. -/
theorem target_covered (hfits : ∀ r, completed_range = some r → r.2 < 2 ^ 63)
    (h : next_contiguous_checkpoint_target db source completed_range = .ok target) {t b : Int}
    (ht : target = some t) (hb : checkpoint_frontier db source < b) (hbt : b ≤ t) :
    covered_with db source.id completed_range b := by
  obtain ⟨hsweep, -⟩ := next_contiguous_checkpoint_target_spec hfits h
  rw [ht, Option.getD_some] at hsweep
  exact (covers_checkpoint_ranges hb).1 (Coverage.covers_of_le_sweep hb (hsweep ▸ hbt))

/-- A stretch that is covered from the frontier on ends at or before the target. -/
theorem le_target_of_covered (hfits : ∀ r, completed_range = some r → r.2 < 2 ^ 63)
    (h : next_contiguous_checkpoint_target db source completed_range = .ok target) {t : Int}
    (ht : ∀ b, checkpoint_frontier db source < b → b ≤ t →
      covered_with db source.id completed_range b) :
    t ≤ target.getD (checkpoint_frontier db source) := by
  obtain ⟨hsweep, -⟩ := next_contiguous_checkpoint_target_spec hfits h
  rw [hsweep]
  refine Coverage.le_sweep_of (insertionSort_range_le_sorted _) fun b hb hbt => ?_
  exact (covers_checkpoint_ranges hb).2 (ht b hb hbt)

end Target

/-! ## The checkpoint of a source

The frontier is where a sweep begins: the processed block of the checkpoint, or the block
before the start block where there is none. It is read from two tables, and only the first of
them is written by `advance_checkpoint`.
-/

theorem checkpoint_for_source_eq_some {db : Db} {source_id : Uuid} {row : CheckpointRow} :
    checkpoint_for_source db source_id = some row ↔
      row ∈ db.checkpoints.rows ∧ row.source_id = source_id := by
  unfold checkpoint_for_source
  rw [Table.find?_eq_some_iff, beq_iff_eq]
  intro a _ b _ ha hb
  exact Or.inr ((beq_iff_eq.1 ha).trans (beq_iff_eq.1 hb).symm)

/-- The frontier is the checkpoint of the source, or the block before it starts. -/
theorem checkpoint_frontier_cases (db : Db) (source : SourceRow) :
    (∃ c ∈ db.checkpoints.rows, c.source_id = source.id ∧
        checkpoint_frontier db source = c.processed_block) ∨
      ((∀ c ∈ db.checkpoints.rows, c.source_id ≠ source.id) ∧
        checkpoint_frontier db source = source.start_block - 1) := by
  unfold checkpoint_frontier
  cases hc : checkpoint_for_source db source.id with
  | none =>
    refine Or.inr ⟨fun c hmem hid => ?_, rfl⟩
    rw [checkpoint_for_source_eq_some.2 ⟨hmem, hid⟩] at hc
    cases hc
  | some c =>
    obtain ⟨hmem, hid⟩ := checkpoint_for_source_eq_some.1 hc
    exact Or.inl ⟨c, hmem, hid, rfl⟩

/-- A stored checkpoint of the source is the frontier. -/
theorem checkpoint_frontier_of_mem {db : Db} {source : SourceRow} {c : CheckpointRow}
    (hc : c ∈ db.checkpoints.rows) (hid : c.source_id = source.id) :
    checkpoint_frontier db source = c.processed_block := by
  unfold checkpoint_frontier
  rw [checkpoint_for_source_eq_some.2 ⟨hc, hid⟩, Option.map_some, Option.getD_some]

theorem source_by_id_eq_some {db : Db} {source_id : Uuid} {row : SourceRow} :
    source_by_id db source_id = some row ↔ row ∈ db.sources.rows ∧ row.id = source_id := by
  unfold source_by_id
  rw [Table.find?_eq_some_iff, beq_iff_eq]
  intro a _ b _ ha hb
  exact Or.inl ((beq_iff_eq.1 ha).trans (beq_iff_eq.1 hb).symm)

/-- What `advance_checkpoint` leaves in `checkpoints`: the row of the source does
not go back, and every other row is as it was. -/
structure Advanced (db db' : Db) (source_id : Uuid) (processed_block : Int) (row : CheckpointRow) :
    Prop where
  mem_iff : ∀ c, c ∈ db'.checkpoints.rows ↔
    c = row ∨ (c ∈ db.checkpoints.rows ∧ c.source_id ≠ source_id)
  of_source : row.source_id = source_id
  le_processed : processed_block ≤ row.processed_block
  processed_from : row.processed_block = processed_block ∨
    ∃ c ∈ db.checkpoints.rows, c.source_id = source_id ∧ row.processed_block = c.processed_block
  keeps : ∀ c ∈ db.checkpoints.rows, c.source_id = source_id → c.processed_block ≤ row.processed_block

theorem advance_checkpoint_spec {db db' : Db} {source_id : Uuid} {processed_block : Int}
    {processed_block_hash : String} {finalized_block : Int} {row : CheckpointRow}
    (h : advance_checkpoint db source_id processed_block processed_block_hash finalized_block
      = .ok (row, db')) :
    db' = { db with next_uuid := db'.next_uuid, checkpoints := db'.checkpoints } ∧
      Advanced db db' source_id processed_block row := by
  unfold advance_checkpoint at h
  rw [bail_eq_ok, bail_eq_ok, bail_eq_ok] at h
  obtain ⟨-, -, -, h⟩ := h
  dsimp only at h
  split at h
  · -- no checkpoint yet: one is inserted, and its source has no other
    rename_i hnone
    simp only [bind_eq_ok, db_result_eq_ok] at h
    obtain ⟨checkpoints, hinsert, h⟩ := h
    cases h
    obtain ⟨⟨-, hfree⟩, hrows⟩ := Table.insert_eq_some.1 hinsert
    refine ⟨rfl, fun c => ?_, rfl, le_refl _, Or.inl rfl, fun c hc hid => ?_⟩
    · rw [hrows, List.mem_append, List.mem_singleton]
      constructor
      · rintro (hc | hc)
        · exact Or.inr ⟨hc, fun hid => hfree c hc (Or.inr hid)⟩
        · exact Or.inl hc
      · rintro (hc | ⟨hc, -⟩)
        · exact Or.inr hc
        · exact Or.inl hc
    · exact absurd (Or.inr hid) (hfree c hc)
  · rename_i existing hexisting
    obtain ⟨hmem, hsource⟩ := checkpoint_for_source_eq_some.1 hexisting
    rw [bail_eq_ok] at h
    obtain ⟨-, h⟩ := h
    -- the checkpoint of the source is the only one it has
    have hsame : ∀ c ∈ db.checkpoints.rows, c.source_id = source_id → c = existing := by
      intro c hc hid
      exact db.checkpoints.eq_of_clash hc hmem (Or.inr (hid.trans hsource.symm))
    have hother : ∀ c ∈ db.checkpoints.rows, c ≠ existing ↔ c.source_id ≠ source_id := by
      intro c hc
      rw [not_iff_not]
      constructor
      · rintro rfl
        exact hsource
      · exact hsame c hc
    split at h
    · -- the early return: behind the checkpoint in both blocks, nothing is written
      rename_i hbehind
      cases h
      refine ⟨rfl, fun c => ?_, hsource, le_of_lt hbehind.1, Or.inr ⟨_, hmem, hsource, rfl⟩,
        fun c hc hid => ?_⟩
      · constructor
        · intro hc
          by_cases hrow : c = row
          · exact Or.inl hrow
          · exact Or.inr ⟨hc, (hother c hc).1 hrow⟩
        · rintro (rfl | ⟨hc, -⟩)
          · exact hmem
          · exact hc
      · rw [hsame c hc hid]
    · -- the update: the row of the source is replaced, and no block moves back
      simp only [bind_eq_ok, db_result_eq_ok] at h
      obtain ⟨checkpoints, hupdate, h⟩ := h
      cases h
      have hrows : checkpoints.rows = replaceRow existing _ db.checkpoints.rows :=
        Table.update_eq_replace hupdate (beq_self_eq_true existing.id) fun r hr hid =>
          db.checkpoints.eq_of_clash hr hmem (Or.inl (by simpa using hid))
      refine ⟨rfl, fun c => ?_, hsource, le_max_right _ _, ?_, fun c hc hid => ?_⟩
      · rw [hrows, mem_replaceRow hmem]
        constructor
        · rintro (hc | ⟨hc, hne⟩)
          · exact Or.inl hc
          · exact Or.inr ⟨hc, (hother c hc).1 hne⟩
        · rintro (hc | ⟨hc, hid⟩)
          · exact Or.inl hc
          · exact Or.inr ⟨hc, (hother c hc).2 hid⟩
      · rcases le_total existing.processed_block processed_block with hle | hle
        · exact Or.inl (max_eq_right hle)
        · exact Or.inr ⟨existing, hmem, hsource, max_eq_left hle⟩
      · rw [hsame c hc hid]
        exact le_max_left _ _

/-! ## Sources

`ensure_source` is an upsert on the chain and the address. What matters for checkpoints is
that it overwrites the start block and leaves the row of the checkpoint alone.
-/

/-- What `ensure_source` leaves in `sources`: one row, overwritten or new, and
every other row as it was. -/
structure Ensured (db db' : Db) (chain_id : Int) (contract_address : String) (start_block : Int)
    (row : SourceRow) : Prop where
  starts_at : row.start_block = start_block
  change :
    (∃ old ∈ db.sources.rows, old.chain_id = chain_id ∧
        old.contract_address = to_ascii_lowercase contract_address ∧ row.id = old.id ∧
        ∀ r, r ∈ db'.sources.rows ↔ r = row ∨ (r ∈ db.sources.rows ∧ r.id ≠ row.id)) ∨
      ((∀ r ∈ db.sources.rows, r.id ≠ row.id ∧
          ¬ (r.chain_id = chain_id ∧ r.contract_address = to_ascii_lowercase contract_address)) ∧
        ∀ r, r ∈ db'.sources.rows ↔ r = row ∨ r ∈ db.sources.rows)

theorem ensure_source_spec {db db' : Db} {chain_id : Int} {name contract_address : String}
    {standard : TokenStandard} {start_block : Int} {row : SourceRow}
    (h : ensure_source db chain_id name contract_address standard start_block = .ok (row, db')) :
    Ensured db db' chain_id contract_address start_block row := by
  unfold ensure_source at h
  rw [bail_eq_ok] at h
  obtain ⟨-, h⟩ := h
  simp only [bind_eq_ok, db_result_eq_ok] at h
  obtain ⟨⟨stored, sources⟩, hupsert, h⟩ := h
  cases h
  obtain ⟨-, ⟨old, hfind, rfl, hupdate⟩ | ⟨-, rfl, hinsert⟩⟩ := Table.upsert_eq_some hupsert
  · -- the source is there: its one row is updated
    have hold := List.mem_of_find?_eq_some hfind
    have hfound := List.find?_some hfind
    have hkey := hfound
    simp only [Bool.and_eq_true, beq_iff_eq] at hkey
    have hrows := Table.update_eq_replace hupdate hfound fun r hr hrkey => by
      simp only [Bool.and_eq_true, beq_iff_eq] at hrkey
      exact db.sources.eq_of_clash hr hold
        (Or.inr ⟨hrkey.1.trans hkey.1.symm, hrkey.2.trans hkey.2.symm⟩)
    refine ⟨rfl, Or.inl ⟨old, hold, hkey.1, hkey.2, rfl, fun r => ?_⟩⟩
    rw [hrows, mem_replaceRow hold]
    refine or_congr Iff.rfl (and_congr_right fun hr => not_congr ?_)
    constructor
    · rintro rfl
      rfl
    · intro hid
      exact db.sources.eq_of_clash hr hold (Or.inl hid)
  · -- it is new: neither its id nor its key is taken
    obtain ⟨⟨-, hfree⟩, hrows⟩ := Table.insert_eq_some.1 hinsert
    refine ⟨rfl, Or.inr ⟨fun r hr => ⟨fun hid => hfree r hr (Or.inl hid),
      fun hkey => hfree r hr (Or.inr hkey)⟩, fun r => ?_⟩⟩
    rw [hrows, List.mem_append, List.mem_singleton, or_comm]

end EvmIndexer
