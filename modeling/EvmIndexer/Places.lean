/-
The place of a ledger entry: its block number, log index and batch index.

Pages walk the active entries of a source by their places, and take two rows at one place
for one. The schema keeps only the transaction hash, the log index and the batch index
apart; a row keeps the block number it was first stored with, whatever block its log is in
when it is persisted again. So a call may leave an active row where another already is: a
log of a fork in the block of one that was not orphaned, or a log restored in the block it
has left, beside the one that is there now.

`PlacesFree` says of the logs of a call and the stored rows that this does not happen, and
`persist_keeps_places_iff` that it is exactly what keeps the places apart. It speaks of the
rows that the entries would be kept in. In terms of the logs alone, it is enough that they
are found in their blocks and that no other log's row is in the way
(`OneChain.places_free`).
-/
import EvmIndexer.Pages
import EvmIndexer.Coordinates

set_option autoImplicit false

namespace EvmIndexer

open Sql Transition

/-! ## Distinct places

The database does not keep places apart, so that they are distinct is a property of what was
persisted. It is about active rows of one source: a row that is orphaned gives its place up.
-/

/-- The row is an active entry of the source. -/
def LedgerEntryRow.active_of (source_id : Uuid) (row : LedgerEntryRow) : Prop :=
  row.source_id = source_id ∧ row.orphaned = false

theorem mem_active_entries {db : Db} {source_id : Uuid} {row : LedgerEntryRow} :
    row ∈ db.active_entries source_id ↔ row ∈ db.ledger_entries.rows ∧ row.active_of source_id := by
  unfold Db.active_entries LedgerEntryRow.active_of
  simp [List.mem_filter]

/-- Distinct places tell the active rows of a source apart. -/
theorem distinctPlaces_iff {db : Db} {source_id : Uuid} :
    DistinctPlaces db source_id ↔
      ∀ a ∈ db.ledger_entries.rows, a.active_of source_id →
        ∀ b ∈ db.ledger_entries.rows, b.active_of source_id → a.place = b.place → a = b := by
  have hnodup : (db.active_entries source_id).Nodup := by
    unfold Db.active_entries
    exact db.ledger_entries.nodup.filter _
  unfold DistinctPlaces
  rw [List.nodup_map_iff_inj_on hnodup]
  simp only [mem_active_entries]
  constructor
  · intro h a ha ha_active b hb hb_active
    exact h a ⟨ha, ha_active⟩ b ⟨hb, hb_active⟩
  · rintro h a ⟨ha, ha_active⟩ b ⟨hb, hb_active⟩
    exact h a ha ha_active b hb hb_active

theorem place_eq_iff {a b : LedgerEntryRow} : a.place = b.place ↔
    a.block_number = b.block_number ∧ a.log_index = b.log_index ∧ a.batch_index = b.batch_index := by
  unfold LedgerEntryRow.place
  rw [EmbeddingLike.apply_eq_iff_eq, Prod.mk.injEq, EmbeddingLike.apply_eq_iff_eq, Prod.mk.injEq]

/-! ## The place of a persisted entry

A persist leaves an entry at the place of the row it finds under the key, and at the place of
its log otherwise; and it shows the row if it was active or is restored. These two decide
what the entry can collide with.
-/

/-- The row whose place an entry has once it is persisted: the one stored under its key, or
the one it is stored as. -/
def kept_row (rows : List LedgerEntryRow) (values : LedgerEntryRow) : LedgerEntryRow :=
  (rows.find? values.same_entry).getD values

/-- The entry is active once it is persisted: its row is, or is restored. -/
def ShownAfter (options : PersistDecodedLogsOptions) (rows : List LedgerEntryRow)
    (values : LedgerEntryRow) : Prop :=
  (kept_row rows values).orphaned = false ∨ options.restore_orphaned_conflicts = true

instance (options : PersistDecodedLogsOptions) (rows : List LedgerEntryRow)
    (values : LedgerEntryRow) : Decidable (ShownAfter options rows values) :=
  inferInstanceAs (Decidable (_ ∨ _))

/-- The entries of a call that are active after it have different places, and none has the
place of an active row of the source that the call does not persist again. Places are those
of the rows the entries are kept in, so an entry of a log that has moved counts at its old
place. -/
structure PlacesFree (options : PersistDecodedLogsOptions) (source_id : Uuid)
    (rows vs : List LedgerEntryRow) : Prop where
  among : vs.Pairwise fun v w => ShownAfter options rows v → ShownAfter options rows w →
    (kept_row rows v).place ≠ (kept_row rows w).place
  others : ∀ v ∈ vs, ShownAfter options rows v → ∀ r ∈ rows, r.active_of source_id →
    (∀ w ∈ vs, ¬ w.same_entry r = true) → (kept_row rows v).place ≠ r.place

section Persist

variable {parseAmount : AmountParser} {source : SourceRef} {options : PersistDecodedLogsOptions}
  {rows vs : List LedgerEntryRow}

/-- What an upsert leaves is at the place of the kept row. -/
theorem touched_place (values : LedgerEntryRow) :
    (touched options rows values).place = (kept_row rows values).place := by
  unfold touched kept_row
  cases rows.find? values.same_entry with
  | none => rfl
  | some old => exact (stored_place options values old).2

theorem touched_active_iff {values : LedgerEntryRow} (hactive : values.orphaned = false) :
    (touched options rows values).orphaned = false ↔ ShownAfter options rows values := by
  unfold touched ShownAfter kept_row
  cases rows.find? values.same_entry with
  | none => simp [hactive]
  | some old =>
    rw [(LedgerEntryRow.stored_takes options values old).2.2]
    simp only [Option.getD_some]
    cases old.orphaned <;> cases options.restore_orphaned_conflicts <;> simp

/-- The row an entry leaves is the source's. -/
theorem touched_source {rows' : List LedgerEntryRow} {source_id : Uuid}
    (hstored : StoredAs options source_id rows vs rows') (hkeys : DistinctKeys vs)
    {v : LedgerEntryRow} (hv : v ∈ vs) (hvalues : v.source_id = source_id) :
    (touched options rows v).source_id = source_id := by
  obtain ⟨-, hmine⟩ := hstored.touched_mem hkeys hv
  unfold touched
  cases hfind : rows.find? v.same_entry with
  | none => exact hvalues
  | some old =>
    rw [LedgerEntryRow.stored_source_id]
    exact hmine old hfind

/-- The row an entry leaves is the source's, and active when the entry is shown. -/
theorem touched_active_of {rows' : List LedgerEntryRow} {source_id : Uuid}
    (hstored : StoredAs options source_id rows vs rows') (hkeys : DistinctKeys vs)
    {v : LedgerEntryRow} (hv : v ∈ vs) (hvalues : v.source_id = source_id ∧ v.orphaned = false) :
    (touched options rows v).active_of source_id ↔ ShownAfter options rows v := by
  unfold LedgerEntryRow.active_of
  rw [touched_active_iff hvalues.2]
  exact and_iff_right (touched_source hstored hkeys hv hvalues.1)

/-- The rows after the loop: those the entries leave, and those under other keys. -/
theorem mem_stored_iff {db' : Db} {source_id : Uuid}
    (hstored : StoredAs options source_id rows vs db'.ledger_entries.rows) (hkeys : DistinctKeys vs)
    {r : LedgerEntryRow} : r ∈ db'.ledger_entries.rows ↔
      (∃ v ∈ vs, r = touched options rows v) ∨ (r ∈ rows ∧ ∀ v ∈ vs, ¬ v.same_entry r = true) := by
  constructor
  · intro hr
    by_cases hkey : ∃ v ∈ vs, v.same_entry r = true
    · obtain ⟨v, hv, hsame⟩ := hkey
      have htouched := (hstored.touched_mem hkeys hv).1
      have hsame_touched := touched_same_entry options rows v
      exact Or.inl ⟨v, hv, eq_of_same_entry db' hr htouched
        (same_entry_trans (same_entry_symm hsame) hsame_touched)⟩
    · have hother : ∀ v ∈ vs, ¬ v.same_entry r = true := fun v hv hsame => hkey ⟨v, hv, hsame⟩
      rcases hstored.mem hr with hrow | ⟨v, hv, hsame⟩
      · exact Or.inr ⟨hrow, hother⟩
      · exact absurd hsame (hother v hv)
  · rintro (⟨v, hv, rfl⟩ | ⟨hrow, hother⟩)
    · exact (hstored.touched_mem hkeys hv).1
    · exact hstored.mem_of_other hrow hother

/-- A loop over entries with keys of their own keeps the places of the source apart exactly
when its places are free. -/
theorem stored_places_iff {db db' : Db} {source_id : Uuid} (h : DistinctPlaces db source_id)
    (hstored : StoredAs options source_id db.ledger_entries.rows vs db'.ledger_entries.rows)
    (hkeys : DistinctKeys vs)
    (hvalues : ∀ v ∈ vs, v.source_id = source_id ∧ v.orphaned = false) :
    DistinctPlaces db' source_id ↔ PlacesFree options source_id db.ledger_entries.rows vs := by
  rw [distinctPlaces_iff] at h ⊢
  have hmem := @mem_stored_iff options db.ledger_entries.rows vs db' source_id hstored hkeys
  have hactive : ∀ v ∈ vs, (touched options db.ledger_entries.rows v).active_of source_id ↔
      ShownAfter options db.ledger_entries.rows v :=
    fun v hv => touched_active_of hstored hkeys hv (hvalues v hv)
  constructor
  · intro hdistinct
    constructor
    · refine hkeys.imp_of_mem ?_
      intro v w hv hw hother hv_shown hw_shown hplace
      -- two entries at one place would be one row, so they would have one key
      rw [← touched_place, ← touched_place] at hplace
      have hsame := hdistinct _ (hmem.2 (Or.inl ⟨v, hv, rfl⟩)) ((hactive v hv).2 hv_shown)
        _ (hmem.2 (Or.inl ⟨w, hw, rfl⟩)) ((hactive w hw).2 hw_shown) hplace
      have hw_same := touched_same_entry options db.ledger_entries.rows w
      rw [← hsame] at hw_same
      exact hother (same_entry_trans (touched_same_entry options db.ledger_entries.rows v)
        (same_entry_symm hw_same))
    · intro v hv hv_shown r hr hr_active hr_other hplace
      rw [← touched_place] at hplace
      have hsame := hdistinct _ (hmem.2 (Or.inl ⟨v, hv, rfl⟩)) ((hactive v hv).2 hv_shown)
        r (hmem.2 (Or.inr ⟨hr, hr_other⟩)) hr_active hplace
      have hv_same := touched_same_entry options db.ledger_entries.rows v
      rw [hsame] at hv_same
      exact hr_other v hv hv_same
  · rintro ⟨hamong, hothers⟩ a ha ha_active b hb hb_active hplace
    rcases hmem.1 ha with ⟨v, hv, rfl⟩ | ⟨ha, ha_other⟩
    · rcases hmem.1 hb with ⟨w, hw, rfl⟩ | ⟨hb, hb_other⟩
      · by_cases hvw : v = w
        · rw [hvw]
        · have : Std.Symm fun v w : LedgerEntryRow => ShownAfter options db.ledger_entries.rows v →
              ShownAfter options db.ledger_entries.rows w →
                (kept_row db.ledger_entries.rows v).place
                  ≠ (kept_row db.ledger_entries.rows w).place :=
            ⟨fun _ _ hne hw hv => (hne hv hw).symm⟩
          have hne := hamong.forall hv hw hvw ((hactive v hv).1 ha_active) ((hactive w hw).1 hb_active)
          rw [touched_place, touched_place] at hplace
          exact absurd hplace hne
      · rw [touched_place] at hplace
        exact absurd hplace (hothers v hv ((hactive v hv).1 ha_active) b hb hb_active hb_other)
    · rcases hmem.1 hb with ⟨w, hw, rfl⟩ | ⟨hb, hb_other⟩
      · rw [touched_place] at hplace
        exact absurd hplace.symm (hothers w hw ((hactive w hw).1 hb_active) a ha ha_active ha_other)
      · exact h a ha ha_active b hb hb_active hplace

instance (source_id : Uuid) (row : LedgerEntryRow) : Decidable (row.active_of source_id) :=
  inferInstanceAs (Decidable (_ ∧ _))

instance (options : PersistDecodedLogsOptions) (source_id : Uuid) (rows vs : List LedgerEntryRow) :
    Decidable (PlacesFree options source_id rows vs) :=
  decidable_of_iff
    (vs.Pairwise (fun v w => ¬ (ShownAfter options rows v ∧ ShownAfter options rows w ∧
        (kept_row rows v).place = (kept_row rows w).place)) ∧
      ∀ v ∈ vs, ∀ r ∈ rows, ¬ (ShownAfter options rows v ∧ r.active_of source_id ∧
        (∀ w ∈ vs, ¬ w.same_entry r = true) ∧ (kept_row rows v).place = r.place))
    ⟨fun h => ⟨h.1.imp fun hne hv hw heq => hne ⟨hv, hw, heq⟩,
      fun v hv hshown r hr hactive hother heq => h.2 v hv r hr ⟨hshown, hactive, hother, heq⟩⟩,
    fun h => ⟨h.among.imp fun hne hboth => hne hboth.1 hboth.2.1 hboth.2.2,
      fun v hv r hr hall => h.others v hv hall.1 r hr hall.2.1 hall.2.2.1 hall.2.2.2⟩⟩

/-- The response describes one chain: no two of its logs are at one place, and no two of
its entries are stored under one key. -/
structure OneChain (logs : List (RpcLog × DecodedLog)) : Prop extends DistinctStored logs where
  places : (logs.map fun log => (log.1.stored_block, (stored_key log.1).2)).Nodup

variable (parseAmount) in
/-- The places the entries of the logs have once they are persisted are free. -/
def LogPlacesFree (source : SourceRef) (options : PersistDecodedLogsOptions) (db : Db)
    (logs : List (RpcLog × DecodedLog)) : Prop :=
  ∀ vs, fresh_rows parseAmount source logs = .ok vs →
    PlacesFree options source.id db.ledger_entries.rows vs

instance (logs : List (RpcLog × DecodedLog)) : Decidable (OneChain logs) :=
  decidable_of_iff ((_ ∧ _) ∧ _)
    ⟨fun h => ⟨⟨h.1.1, h.1.2⟩, h.2⟩, fun h => ⟨⟨h.keys, h.batch⟩, h.places⟩⟩

instance (source : SourceRef) (options : PersistDecodedLogsOptions) (db : Db)
    (logs : List (RpcLog × DecodedLog)) :
    Decidable (LogPlacesFree parseAmount source options db logs) :=
  match h : fresh_rows parseAmount source logs with
  | .ok vs =>
    decidable_of_iff (PlacesFree options source.id db.ledger_entries.rows vs) (by
      unfold LogPlacesFree
      rw [h]
      exact ⟨fun hfree _ hvs => Except.ok.inj hvs ▸ hfree, fun hfree => hfree vs rfl⟩)
  | .error _ => isTrue (by
      unfold LogPlacesFree
      rw [h]
      exact fun _ hvs => nomatch hvs)

/-- A kept row does not depend on the identifiers of the proposed one. -/
theorem kept_row_forget_ids (rows : List LedgerEntryRow) (v : LedgerEntryRow) :
    (kept_row rows v.forget_ids).place = (kept_row rows v).place ∧
      (kept_row rows v.forget_ids).orphaned = (kept_row rows v).orphaned := by
  have hsame : v.forget_ids.same_entry = v.same_entry := rfl
  unfold kept_row
  rw [hsame]
  cases rows.find? v.same_entry with
  | none => exact ⟨rfl, rfl⟩
  | some old => exact ⟨rfl, rfl⟩

theorem placesFree_forget_ids {source_id : Uuid} :
    PlacesFree options source_id rows (vs.map LedgerEntryRow.forget_ids) ↔
      PlacesFree options source_id rows vs := by
  have hplace := fun v => (kept_row_forget_ids rows v).1
  have hshown : ∀ v, ShownAfter options rows (LedgerEntryRow.forget_ids v) ↔
      ShownAfter options rows v := by
    intro v
    unfold ShownAfter
    rw [(kept_row_forget_ids rows v).2]
  have hsame : ∀ v : LedgerEntryRow, v.forget_ids.same_entry = v.same_entry := fun _ => rfl
  constructor
  · rintro ⟨hamong, hothers⟩
    rw [List.pairwise_map] at hamong
    simp only [List.forall_mem_map, hplace, hshown, hsame] at hamong hothers
    exact ⟨hamong, hothers⟩
  · rintro ⟨hamong, hothers⟩
    refine ⟨?_, ?_⟩
    · rw [List.pairwise_map]
      simp only [hplace, hshown]
      exact hamong
    · simp only [List.forall_mem_map, hplace, hshown, hsame]
      exact hothers

/-- A call with the logs of one chain keeps the places of its source apart exactly when the
places of its entries are free. -/
theorem persist_keeps_places_iff {logs : List (RpcLog × DecodedLog)} {summary : ScanSummary}
    {db db' : Db} (hdistinct : DistinctStored logs) (h : DistinctPlaces db source.id)
    (hpersist : persist_decoded_logs_with_options parseAmount db source logs options
      = .ok (summary, db')) :
    DistinctPlaces db' source.id ↔ LogPlacesFree parseAmount source options db logs := by
  obtain ⟨vs, hvalues, hfresh, hstored⟩ := persist_decoded_logs_rows hpersist
  have hkeys := fresh_rows_distinct hdistinct hfresh
  rw [stored_places_iff h hstored hkeys fun v hv => ⟨(hvalues v hv).1, (hvalues v hv).2.2⟩,
    ← placesFree_forget_ids]
  unfold LogPlacesFree
  constructor
  · intro hfree ws hws
    have hsame := Except.ok.inj (hws.symm.trans hfresh)
    rw [hsame]
    exact hfree
  · intro hfree
    exact hfree _ hfresh

/-- A call does not touch the rows of other sources. -/
theorem persist_other_places {logs : List (RpcLog × DecodedLog)} {summary : ScanSummary}
    {db db' : Db} (hdistinct : DistinctStored logs) {source_id : Uuid} (hother : source_id ≠ source.id)
    (h : DistinctPlaces db source_id)
    (hpersist : persist_decoded_logs_with_options parseAmount db source logs options
      = .ok (summary, db')) : DistinctPlaces db' source_id := by
  obtain ⟨vs, hvalues, hfresh, hstored⟩ := persist_decoded_logs_rows hpersist
  have hkeys := fresh_rows_distinct hdistinct hfresh
  rw [distinctPlaces_iff] at h ⊢
  have hold : ∀ r ∈ db'.ledger_entries.rows, r.active_of source_id → r ∈ db.ledger_entries.rows := by
    intro r hr hactive
    rcases (mem_stored_iff hstored hkeys).1 hr with ⟨v, hv, rfl⟩ | ⟨hrow, -⟩
    · have hsource := touched_source hstored hkeys hv (hvalues v hv).1
      exact absurd (hactive.1.symm.trans hsource) hother
    · exact hrow
  intro a ha ha_active b hb hb_active
  exact h a (hold a ha ha_active) ha_active b (hold b hb hb_active) hb_active

/-! ## Logs that stay in their blocks

The condition on rows is met by logs that describe one chain, if each is found in the block
it is in and no other log's active row is where it is. So an index has its places distinct as
long as what a fork has left is orphaned before the canonical logs are persisted, and no log
is found elsewhere.
-/

/-- The rows a fresh index would store have no identifiers yet. -/
theorem fresh_rows_forget_ids {logs : List (RpcLog × DecodedLog)}
    (h : fresh_rows parseAmount source logs = .ok vs) : vs.map LedgerEntryRow.forget_ids = vs := by
  refine (List.map_congr_left ?_).trans (List.map_id vs)
  intro v hv
  obtain ⟨entry, -, hproposed⟩ := exists_of_mapM_eq_ok h hv
  have hforget := new_ledger_entry_row_forget_ids hproposed
  rw [hproposed] at hforget
  exact (Except.ok.inj hforget).symm

/-- No active row of the source of another log is where one of the logs is. -/
def NoneInTheWay (source : SourceRef) (db : Db) (logs : List (RpcLog × DecodedLog)) : Prop :=
  ∀ log ∈ logs, ∀ r ∈ db.ledger_entries.rows, r.active_of source.id →
    log.1.stored_block = some r.block_number → (stored_key log.1).2 = some r.log_index →
      r.at_log source log.1

/-- The logs of one chain, found in their blocks with no other log's row in the way, have
free places. -/
theorem OneChain.places_free {db : Db} {logs : List (RpcLog × DecodedLog)} (h : OneChain logs)
    (hplace : FoundInPlace source db logs) (hway : NoneInTheWay source db logs) :
    LogPlacesFree parseAmount source options db logs := by
  intro vs hfresh
  have hkeys : DistinctKeys vs := by
    rw [← fresh_rows_forget_ids hfresh] at hfresh
    exact fresh_rows_distinct h.toDistinctStored hfresh
  -- each entry is kept at the block and the index of its log
  have hlogs : ∀ v ∈ vs, ∃ log ∈ logs, v.at_log source log.1 ∧
      log.1.stored_block = some v.block_number ∧
      (kept_row db.ledger_entries.rows v).place = v.place := by
    intro v hv
    obtain ⟨entry, hentry, hproposed⟩ := exists_of_mapM_eq_ok hfresh hv
    obtain ⟨log, hlog, hof⟩ := List.mem_flatMap.1 hentry
    obtain ⟨decoded, hdecoded, rfl⟩ := List.mem_map.1 hof
    obtain ⟨-, hat, hblock, hbatch⟩ := new_ledger_entry_row_coordinates hproposed
    refine ⟨log, hlog, hat, hblock, ?_⟩
    unfold kept_row
    cases hfind : db.ledger_entries.rows.find? v.same_entry with
    | none => rfl
    | some old =>
      obtain ⟨hchain, hhash, hindex, hold_batch⟩ := same_entry_iff.1 (List.find?_some hfind)
      have hold_at : old.at_log source log.1 := by
        unfold LedgerEntryRow.at_log at hat ⊢
        rw [hchain, hhash, hindex]
        exact hat
      have hold_block := hplace.entries log hlog old (List.mem_of_find?_eq_some hfind) hold_at
        ⟨decoded, hdecoded, hbatch.symm.trans hold_batch.symm⟩
      rw [hblock] at hold_block
      unfold LedgerEntryRow.place
      rw [Option.getD_some, Option.some.inj hold_block, hindex, hold_batch]
  constructor
  · refine hkeys.imp_of_mem ?_
    intro v w hv hw hother _ _ hsame
    obtain ⟨a, ha, ⟨hv_chain, hv_key⟩, hv_block, hv_kept⟩ := hlogs v hv
    obtain ⟨b, hb, ⟨hw_chain, hw_key⟩, hw_block, hw_kept⟩ := hlogs w hw
    rw [hv_kept, hw_kept, place_eq_iff] at hsame
    obtain ⟨hblock, hindex, hbatch⟩ := hsame
    have hlog_place : (a.1.stored_block, (stored_key a.1).2) = (b.1.stored_block, (stored_key b.1).2) := by
      rw [hv_block, hw_block, ← hv_key, ← hw_key, hblock, hindex]
    have hab : a = b := List.inj_on_of_nodup_map h.places ha hb hlog_place
    rw [← hab, ← hv_key] at hw_key
    exact hother (same_entry_iff.2
      ⟨hw_chain.trans hv_chain.symm, (Prod.ext_iff.1 hw_key).1, hindex.symm, hbatch.symm⟩)
  · intro v hv _ r hr hactive hr_other hsame
    obtain ⟨log, hlog, ⟨hchain, hkey⟩, hblock, hkept⟩ := hlogs v hv
    rw [hkept, place_eq_iff] at hsame
    obtain ⟨hr_block, hr_index, hr_batch⟩ := hsame
    have hr_at : r.at_log source log.1 := by
      refine hway log hlog r hr hactive ?_ ?_
      · rw [hblock, hr_block]
      · rw [← hkey, hr_index]
    obtain ⟨hr_chain, hr_key⟩ := hr_at
    rw [← hkey] at hr_key
    exact hr_other v hv (same_entry_iff.2
      ⟨hr_chain.trans hchain.symm, (Prod.ext_iff.1 hr_key).1, hr_index.symm, hr_batch.symm⟩)

end Persist

/-- Orphaning leaves fewer active rows, where they were. -/
theorem orphan_keeps_places {source : SourceRow} {from_block to_block : Int}
    {summary : OrphanRangeSummary} {db db' : Db} {source_id : Uuid} (h : DistinctPlaces db source_id)
    (horphan : orphan_source_range db source from_block to_block = .ok (summary, db')) :
    DistinctPlaces db' source_id := by
  obtain ⟨-, -, -, hrows, -⟩ := orphan_source_range_spec horphan
  rw [distinctPlaces_iff] at h ⊢
  -- a row that is still active is as it was
  have hold : ∀ r ∈ db'.ledger_entries.rows, r.active_of source_id → r ∈ db.ledger_entries.rows := by
    rw [hrows]
    intro r' hr' hactive
    obtain ⟨r, hr, rfl⟩ := List.mem_map.1 hr'
    unfold Table.setRow at hactive ⊢
    split at hactive
    · cases hactive.2
    · rename_i hnot
      rw [if_neg hnot]
      exact hr
  intro a ha ha_active b hb hb_active
  exact h a (hold a ha ha_active) ha_active b (hold b hb hb_active) hb_active

theorem DistinctPlaces.of_sameRows {db db' : Db} {source_id : Uuid} (h : DistinctPlaces db source_id)
    (hsame : db.SameRows db') : DistinctPlaces db' source_id := by
  rw [distinctPlaces_iff] at h ⊢
  intro a ha ha_active b hb hb_active
  exact h a (hsame.ledger_entries.mem_iff.2 ha) ha_active b (hsame.ledger_entries.mem_iff.2 hb)
    hb_active

/-! ## Runs

A persist needs the condition for its own source. Other sources are not touched, orphaning
hides rows, and the rest leaves the entries alone.
-/

/-- The calls of ingests and replays, each persist with the logs of one chain. Two calls may
be of two chains, with a reorganisation in between. -/
def OneChainStep : LedgerOp → Prop
  | .persist_decoded_logs_with_options _ logs _ => OneChain logs
  | .update_log_metadata _ _ => False
  | _ => True

theorem OneChainStep.moves_no_row {op : LedgerOp} (h : OneChainStep op) : op.moves_no_row = true := by
  cases op with
  | update_log_metadata source log => exact absurd h not_false
  | _ => rfl

section Runs

variable (parseAmount : AmountParser)

/-- A call that persists finds the places of its entries free, both of each other and of the
active rows it does not write. Orphaning and repairs are not asked: the first only takes rows
away, and the second is not part of such runs. -/
def StepPlacesFree (db : Db) : LedgerOp → Prop
  | .persist_decoded_logs_with_options source logs options =>
    LogPlacesFree parseAmount source options db logs
  | _ => True

variable {parseAmount}

/-- One call keeps the places apart: a persist those of its own source because its places
are free, and those of the others because it does not touch them; an orphaning because
fewer rows are active after it. -/
theorem DistinctPlaces.apply {db db' : Db} {op : LedgerOp}
    (h : ∀ source_id, DistinctPlaces db source_id) (hchain : OneChainStep op)
    (hfree : StepPlacesFree parseAmount db op) (hop : op.apply parseAmount db = .ok db') :
    ∀ source_id, DistinctPlaces db' source_id := by
  intro source_id
  cases op with
  | ensure_source chain_id name contract_address standard start_block =>
    obtain ⟨row, hrow⟩ := map_snd_eq_ok.1 hop
    have hentries : db'.ledger_entries = db.ledger_entries := by rw [ensure_source_frame hrow]
    have hactive : db'.active_entries source_id = db.active_entries source_id := by
      unfold Db.active_entries
      rw [hentries]
    have hplaces := h source_id
    unfold DistinctPlaces at hplaces ⊢
    rw [hactive]
    exact hplaces
  | persist_decoded_logs_with_options source logs options =>
    obtain ⟨summary, hsummary⟩ := map_snd_eq_ok.1 hop
    by_cases hsource : source_id = source.id
    · -- its own source: here the condition is needed
      subst hsource
      exact (persist_keeps_places_iff hchain.toDistinctStored (h _) hsummary).2 hfree
    · exact persist_other_places hchain.toDistinctStored hsource (h source_id) hsummary
  | orphan_source_range source from_block to_block =>
    obtain ⟨summary, hsummary⟩ := map_snd_eq_ok.1 hop
    exact orphan_keeps_places (h source_id) hsummary
  -- a repair is no step on one chain
  | update_log_metadata source log => exact absurd hchain not_false

/-- What a run of such calls leaves, from any database whose places are distinct. -/
theorem run_distinctPlaces {ops : List LedgerOp} {db db' : Db}
    (h : Run (Guarded (LedgerStep parseAmount) fun db op =>
      OneChainStep op ∧ StepPlacesFree parseAmount db op) db ops db')
    (hdb : ∀ source_id, DistinctPlaces db source_id) : ∀ source_id, DistinctPlaces db' source_id := by
  refine guarded_ledger_invariant (I := fun db => ∀ source_id, DistinctPlaces db source_id)
    ?_ ?_ h hdb
  · intro s op t hs hstep hok
    exact DistinctPlaces.apply hs hstep.1 hstep.2 hok
  · exact fun _ _ hs hsame source_id => (hs source_id).of_sameRows hsame

/-- In every run of ingests and replays whose persists find the places of their entries
free, the active rows of each source are at different places. -/
theorem places_stay_distinct {ops : List LedgerOp} {db : Db}
    (h : Run (Guarded (LedgerStep parseAmount) fun db op =>
      OneChainStep op ∧ StepPlacesFree parseAmount db op) Db.empty ops db) (source_id : Uuid) :
    DistinctPlaces db source_id :=
  run_distinctPlaces h (fun _ => List.nodup_nil) source_id

/-- A call that persists finds no row of another log where its logs are. -/
def StepUnobstructed (db : Db) : LedgerOp → Prop
  | .persist_decoded_logs_with_options source logs _ => NoneInTheWay source db logs
  | _ => True

theorem StepInPlace.places_free {db : Db} {op : LedgerOp} (h : StepInPlace db op)
    (hchain : OneChainStep op) (hway : StepUnobstructed db op) : StepPlacesFree parseAmount db op := by
  cases op with
  | persist_decoded_logs_with_options source logs options =>
    exact OneChain.places_free hchain h hway
  | ensure_source => trivial
  | orphan_source_range => trivial
  | update_log_metadata => trivial

/-- An index that follows one chain: every log that is persisted again is where it was, and
where a log of another fork had been there is no active row left. Its places are distinct,
and every row stays where it was. -/
theorem in_place_run {ops : List LedgerOp} {db db' : Db}
    (h : Run (Guarded (LedgerStep parseAmount) fun db op =>
      OneChainStep op ∧ StepInPlace db op ∧ StepUnobstructed db op) db ops db')
    (hdb : ∀ source_id, DistinctPlaces db source_id) :
    (∀ source_id, DistinctPlaces db' source_id) ∧ KeepsPlaces db db' := by
  constructor
  · have hfree : Run (Guarded (LedgerStep parseAmount) fun db op =>
        OneChainStep op ∧ StepPlacesFree parseAmount db op) db ops db' := by
      refine h.mono ?_
      rintro s op t ⟨hstep, hchain, hplace, hway⟩
      exact ⟨hstep, hchain, hplace.places_free hchain hway⟩
    exact run_distinctPlaces hfree hdb
  · have hkept : Run (Guarded (LedgerStep parseAmount) fun _ op => op.moves_no_row = true)
        db ops db' := by
      refine h.mono ?_
      rintro s op t ⟨hstep, hchain, -⟩
      exact ⟨hstep, hchain.moves_no_row⟩
    exact run_keepsPlaces hkept

instance (db : Db) (op : LedgerOp) : Decidable (StepPlacesFree parseAmount db op) :=
  match op with
  | .persist_decoded_logs_with_options source logs options =>
    inferInstanceAs (Decidable (LogPlacesFree parseAmount source options db logs))
  | .ensure_source .. => isTrue trivial
  | .orphan_source_range .. => isTrue trivial
  | .update_log_metadata .. => isTrue trivial

instance (op : LedgerOp) : Decidable (OneChainStep op) :=
  match op with
  | .persist_decoded_logs_with_options _ logs _ => inferInstanceAs (Decidable (OneChain logs))
  | .ensure_source .. => isTrue trivial
  | .orphan_source_range .. => isTrue trivial
  | .update_log_metadata .. => isFalse not_false

instance (source : SourceRef) (db : Db) (logs : List (RpcLog × DecodedLog)) :
    Decidable (NoneInTheWay source db logs) :=
  inferInstanceAs (Decidable (∀ log ∈ logs, ∀ r ∈ db.ledger_entries.rows, _ → _ → _ → _))

instance (db : Db) (op : LedgerOp) : Decidable (StepUnobstructed db op) :=
  match op with
  | .persist_decoded_logs_with_options source logs _ =>
    inferInstanceAs (Decidable (NoneInTheWay source db logs))
  | .ensure_source .. => isTrue trivial
  | .orphan_source_range .. => isTrue trivial
  | .update_log_metadata .. => isTrue trivial

end Runs

/-! ## A log beside the one that has its place -/

/-- A mint in block 1 and the transfer of it in block 2, orphaned and persisted again from a
fork. -/
def replayed_with (fork : List (RpcLog × DecodedLog)) : List LedgerOp :=
  small_ledger mint_then_transfer ++
    [.orphan_source_range small_source 1 2,
     .persist_decoded_logs_with_options small_source.from_source fork
       { restore_orphaned_conflicts := true }]

/-- A fork with one more mint, log 0 of block 3. -/
def fork_with_another_mint : List (RpcLog × DecodedLog) :=
  [erc20_transfer "0x1" "0xc1" "0xd1" zero_address alice,
   erc20_transfer "0x2" "0xc2" "0xd2" alice bob,
   erc20_transfer "0x3" "0xc3" "0xd3" zero_address bob]

/-- A fork that has the first mint in block 2, and another in block 1. -/
def fork_with_mint_moved : List (RpcLog × DecodedLog) :=
  [erc20_transfer "0x1" "0xc1" "0xd3" zero_address bob,
   erc20_transfer "0x2" "0xc2" "0xd1" zero_address alice]

theorem places_stay_distinct_another_mint :
    DistinctPlaces ((replayed_with fork_with_another_mint).foldl (LedgerOp.commit plain_digits)
      Db.empty) 0 :=
  places_stay_distinct (run_of_allowed (by decide +kernel)) 0

/-- The first mint is restored in block 1, where the other one is. -/
theorem moved_mint_shares_its_place :
    ¬ ∀ (ops : List LedgerOp) (db : Db), (∀ op ∈ ops, OneChainStep op) →
      Run (LedgerStep plain_digits) Db.empty ops db → ∀ source_id, DistinctPlaces db source_id := by
  intro h
  have hchain : ∀ op ∈ replayed_with fork_with_mint_moved, OneChainStep op := by decide +kernel
  have hdistinct := h _ _ hchain
    (run_of_commits Db.empty (replayed_with fork_with_mint_moved)) 0
  have hshared : ¬ DistinctPlaces ((replayed_with fork_with_mint_moved).foldl
      (LedgerOp.commit plain_digits) Db.empty) 0 := by
    unfold DistinctPlaces
    decide +kernel
  exact hshared hdistinct

end EvmIndexer
