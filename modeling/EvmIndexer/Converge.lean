/-
Replays that were retried, or that overlapped, end where one replay ends.

A replay is two transactions: orphan the range, then persist the canonical logs with
`restore_orphaned_conflicts`. Attempts that fail between the two, and workers that
replay the same range at the same time, leave some sequence of the two on the ledger.

The first orphaning empties the range, so the first persist leaves only its own rows
active there (`Replayed`). From then on the ledger is in one of two phases: as that
persist left it, or the same with the range marked orphaned (`ReplayPhase`). Orphaning leads
to the second phase and persisting back to the first, because what is marked is
exactly what persisting takes the mark off again.
-/
import EvmIndexer.Reingest

set_option autoImplicit false

namespace EvmIndexer

open Sql

/-! ## The steps of replays

The options restore: a conflicting row takes the mark off. The steps of several attempts are
one list here, whoever made them, since each is a transaction under the lock of the source.
-/

/-- A transaction of a replay attempt. -/
inductive ReplayStep
  | orphan
  | persist
  deriving DecidableEq, Repr

/-- The options a replay persists with. -/
def replay_options : PersistDecodedLogsOptions := { restore_orphaned_conflicts := true }

section Replays

variable (parseAmount : AmountParser) (source : SourceRow) (from_block to_block : Int)
  (logs : List (RpcLog × DecodedLog))

/-- A transaction of a replay of the logs of a range. -/
def replay_step (db : Db) : ReplayStep → Result Db
  | .orphan => (orphan_source_range db source from_block to_block).map (·.2)
  | .persist => (persist_decoded_logs_with_options parseAmount db source.from_source logs
      replay_options).map (·.2)

variable {parseAmount source from_block to_block logs}

/-! ## Orphaning twice

An orphaning selects active rows. Once the range has none, another reverses nothing and marks
nothing, and leaves the database as it is.
-/

/-- Marking where nothing is selected changes nothing. -/
theorem map_setRow_of_none {ρ : Type} [Schema ρ] {p : ρ → Bool} {set : ρ → ρ} {rows : List ρ}
    (h : ∀ r ∈ rows, ¬ p r = true) : rows.map (Table.setRow p set) = rows := by
  conv_rhs => rw [← List.map_id rows]
  refine List.map_congr_left fun r hr => ?_
  unfold Table.setRow
  rw [if_neg (h r hr), id]

/-- Orphaning a range without active rows changes nothing. -/
theorem orphan_again {db db' : Db} {summary : OrphanRangeSummary}
    (hevents : ∀ e ∈ db.events.rows, ¬ e.active_in source.id from_block to_block = true)
    (hentries : ∀ r ∈ db.ledger_entries.rows, ¬ r.active_in source.id from_block to_block = true)
    (h : orphan_source_range db source from_block to_block = .ok (summary, db')) : db' = db := by
  obtain ⟨mid, hmid, hdb, hentry_rows, hevent_rows⟩ := orphan_source_range_spec h
  have hnone : active_rows_in db source.id from_block to_block = [] := by
    unfold active_rows_in
    rw [List.filter_eq_nil_iff.2 hentries]
    rfl
  rw [hnone, List.foldlM_nil, pure_eq_ok] at hmid
  subst hmid
  rw [map_setRow_of_none hentries] at hentry_rows
  rw [map_setRow_of_none hevents] at hevent_rows
  rw [hdb, Table.ext hentry_rows, Table.ext hevent_rows]

/-! ## What the first replay leaves

After the first persist every log of the range is settled: persisting it again would write
what is stored. And nothing else is active in the range, because the orphaning before it had
emptied it. Both are needed, the first for the persists to come and the second for the
orphanings.
-/

variable (parseAmount source from_block to_block logs) in
/-- The logs are settled, and only their rows are active in the range. -/
structure Replayed (db : Db) : Prop where
  settled : ∀ log ∈ logs, SettledLog parseAmount source.from_source replay_options db log
  events : ∀ e ∈ db.events.rows, e.active_in source.id from_block to_block = true →
    ∃ log ∈ logs, ∃ values, new_event_row 0 source.from_source log.1 log.2 = .ok values ∧
      values.same_log e = true
  entries : ∀ r ∈ db.ledger_entries.rows, r.active_in source.id from_block to_block = true →
    ∃ entry ∈ log_entries logs, ∃ values,
      new_ledger_entry_row parseAmount 0 source.from_source entry.1 0 entry.2 = .ok values ∧
        values.same_entry r = true

theorem replayed_of_orphaned (hdistinct : DistinctStored logs) {db₁ db₂ : Db}
    (hevents : ∀ e ∈ db₁.events.rows, ¬ e.active_in source.id from_block to_block = true)
    (hentries : ∀ r ∈ db₁.ledger_entries.rows, ¬ r.active_in source.id from_block to_block = true)
    {summary : ScanSummary}
    (h : persist_decoded_logs_with_options parseAmount db₁ source.from_source logs replay_options
      = .ok (summary, db₂)) : Replayed parseAmount source from_block to_block logs db₂ := by
  obtain ⟨⟨es, -, hfresh_events, hevent_rows⟩, vs, -, hfresh_entries, hstored⟩ :=
    persist_decoded_logs_stores h
  refine ⟨persist_settles hdistinct h, ?_, ?_⟩
  · intro e he hactive
    rw [hevent_rows] at he
    rcases Upsert.mem_storeAll he with he | ⟨value, hvalue, hsame⟩
    · exact absurd hactive (hevents e he)
    · obtain ⟨log, hlog, hvalues⟩ := exists_of_mapM_eq_ok hfresh_events (List.mem_map_of_mem hvalue)
      exact ⟨log, hlog, _, hvalues, hsame⟩
  · intro r hr hactive
    rcases hstored.mem hr with hr | ⟨value, hvalue, hsame⟩
    · exact absurd hactive (hentries r hr)
    · obtain ⟨entry, hentry, hvalues⟩ :=
        exists_of_mapM_eq_ok hfresh_entries (List.mem_map_of_mem hvalue)
      exact ⟨entry, hentry, _, hvalues, hsame⟩

/-! ## The two phases

The phases are one function of the database the first persist left: its rows, with those of
the range marked or not. Orphaning and persisting both map the rows, and they undo each
other's mark. The balances follow from the books.
-/

/-- Restoring takes the mark off an event that was settled before it was marked. -/
theorem EventRow.stored_marked {values old : EventRow}
    (h : values.stored replay_options old = old) :
    values.stored replay_options (old.set_orphaned true) = old := by
  have hactive : old.orphaned = false := by
    by_contra hne
    have ho : old.orphaned = true := by simpa using hne
    have hflag := congrArg EventRow.orphaned h
    simp [EventRow.stored, replay_options, ho, EventRow.set_orphaned] at hflag
  unfold EventRow.stored at h ⊢
  rw [if_neg (by simp [hactive])] at h
  rw [if_pos (by simp [replay_options, EventRow.set_orphaned])]
  have hmarked : (values.on_conflict (old.set_orphaned true)).set_orphaned false
      = (values.on_conflict old).set_orphaned false := rfl
  rw [hmarked, h]
  unfold EventRow.set_orphaned
  rw [← hactive]

/-- Restoring takes the mark off an entry that was settled before it was marked. -/
theorem LedgerEntryRow.stored_marked {values old : LedgerEntryRow}
    (h : values.stored replay_options old = old) :
    values.stored replay_options (old.set_orphaned true) = old := by
  have hactive : old.orphaned = false := by
    by_contra hne
    have ho : old.orphaned = true := by simpa using hne
    have hflag := congrArg LedgerEntryRow.orphaned h
    simp [LedgerEntryRow.stored, replay_options, ho, LedgerEntryRow.set_orphaned] at hflag
  unfold LedgerEntryRow.stored at h ⊢
  rw [if_neg (by simp [hactive])] at h
  rw [if_pos (by simp [replay_options, LedgerEntryRow.set_orphaned])]
  have hmarked : (values.on_conflict (old.set_orphaned true)).set_orphaned false
      = (values.on_conflict old).set_orphaned false := rfl
  rw [hmarked, h]
  unfold LedgerEntryRow.set_orphaned
  rw [← hactive]

/-- The rows of `db`, those of the range marked if `marked`, with the books kept. -/
structure ReplayPhase (source_id : Uuid) (from_block to_block : Int) (db : Db) (marked : Bool) (s : Db) :
    Prop where
  events : s.events.rows = db.events.rows.map (Upsert.markIf (EventRow.set_orphaned true)
    fun e => marked && e.active_in source_id from_block to_block)
  entries : s.ledger_entries.rows = db.ledger_entries.rows.map
    (Upsert.markIf (LedgerEntryRow.set_orphaned true)
      fun r => marked && r.active_in source_id from_block to_block)
  books : KeepsBooks db s

theorem map_markIf_false {ρ : Type} (mark : ρ → ρ) (rows : List ρ) :
    rows.map (Upsert.markIf mark fun _ => false) = rows := by
  conv_rhs => rw [← List.map_id rows]
  exact List.map_congr_left fun r _ => rfl

theorem ReplayPhase.refl (source_id : Uuid) (from_block to_block : Int) (db : Db) :
    ReplayPhase source_id from_block to_block db false db :=
  ⟨(map_markIf_false _ _).symm, (map_markIf_false _ _).symm, KeepsBooks.refl db⟩

/-- Orphaning leads to the marked phase, from either phase. -/
theorem ReplayPhase.orphan {db s t : Db} {marked : Bool} {summary : OrphanRangeSummary}
    (hphase : ReplayPhase source.id from_block to_block db marked s)
    (h : orphan_source_range s source from_block to_block = .ok (summary, t)) :
    ReplayPhase source.id from_block to_block db true t := by
  obtain ⟨-, -, -, hentry_rows, hevent_rows⟩ := orphan_source_range_spec h
  refine ⟨?_, ?_, hphase.books.trans (orphan_source_range_keepsBooks h)⟩
  · rw [hevent_rows, hphase.events, List.map_map]
    refine List.map_congr_left fun e _ => ?_
    by_cases he : e.active_in source.id from_block to_block = true
    · have hmarked : ¬ (e.set_orphaned true).active_in source.id from_block to_block = true := by
        unfold EventRow.active_in EventRow.set_orphaned
        simp
      cases marked <;> simp [Upsert.markIf, Table.setRow, he, hmarked]
    · simp [Upsert.markIf, Table.setRow, he]
  · rw [hentry_rows, hphase.entries, List.map_map]
    refine List.map_congr_left fun r _ => ?_
    by_cases hr : r.active_in source.id from_block to_block = true
    · have hmarked : ¬ (r.set_orphaned true).active_in source.id from_block to_block = true := by
        unfold LedgerEntryRow.active_in LedgerEntryRow.set_orphaned
        simp
      cases marked <;> simp [Upsert.markIf, Table.setRow, hr, hmarked]
    · simp [Upsert.markIf, Table.setRow, hr]

/-- Persisting leads back to the first phase, from either phase. -/
theorem ReplayPhase.persist (hdistinct : DistinctStored logs) {db s t : Db} {marked : Bool}
    {summary : ScanSummary}
    (hreplayed : Replayed parseAmount source from_block to_block logs db)
    (hphase : ReplayPhase source.id from_block to_block db marked s)
    (h : persist_decoded_logs_with_options parseAmount s source.from_source logs replay_options
      = .ok (summary, t)) : ReplayPhase source.id from_block to_block db false t := by
  obtain ⟨⟨es, -, hfresh_events, hevent_rows⟩, vs, -, hfresh_entries, hstored⟩ :=
    persist_decoded_logs_stores h
  -- what is proposed only differs from what is settled in its identifiers
  have hevent : ∀ e ∈ es, Upsert.Settled (event_rule replay_options) db.events.rows e := by
    intro e he
    obtain ⟨log, hlog, hvalues⟩ := exists_of_mapM_eq_ok hfresh_events (List.mem_map_of_mem he)
    obtain ⟨values, hvalues', -, hsettled⟩ := (hreplayed.settled log hlog).event
    rw [hvalues] at hvalues'
    cases hvalues'
    exact hsettled
  have hentry : ∀ v ∈ vs, Upsert.Settled (entry_rule replay_options) db.ledger_entries.rows v := by
    intro v hv
    obtain ⟨⟨log, entry⟩, hmem, hvalues⟩ :=
      exists_of_mapM_eq_ok hfresh_entries (List.mem_map_of_mem hv)
    obtain ⟨pair, hpair, hpair_entry⟩ := List.mem_flatMap.1 hmem
    obtain ⟨entry', hentry', heq⟩ := List.mem_map.1 hpair_entry
    cases heq
    obtain ⟨values, hvalues', -, old, hold, hsame, hmerge, -⟩ :=
      (hreplayed.settled pair hpair).entries _ hentry'
    rw [hvalues] at hvalues'
    cases hvalues'
    exact ⟨old, hold, hsame, hmerge⟩
  refine ⟨?_, ?_, hphase.books.trans (persist_decoded_logs_keepsBooks h)⟩
  · have hmark : ∀ e : EventRow, (event_rule replay_options).same e (e.set_orphaned true) = true :=
      fun e => same_log_iff.2 ⟨rfl, rfl, rfl⟩
    rw [hevent_rows, hphase.events, Upsert.storeAll_unmarks hmark (events_apart replay_options db)
      (fresh_events_apart hdistinct hfresh_events) (fun _ _ => EventRow.stored_marked) hevent]
    · exact (map_markIf_false _ _).symm
    · intro e he hmarked
      rw [Bool.and_eq_true] at hmarked
      obtain ⟨log, hlog, values, hvalues, hsame⟩ := hreplayed.events e he hmarked.2
      obtain ⟨value', hvalue', hvalues'⟩ := exists_result_of_mapM hfresh_events hlog
      rw [hvalues] at hvalues'
      cases hvalues'
      obtain ⟨value, hvalue, rfl⟩ := List.mem_map.1 hvalue'
      exact ⟨value, hvalue, hsame⟩
  · have hmark : ∀ r : LedgerEntryRow,
        (entry_rule replay_options).same r (r.set_orphaned true) = true :=
      fun r => same_entry_iff.2 ⟨rfl, rfl, rfl, rfl⟩
    rw [hstored.storeAll, hphase.entries, Upsert.storeAll_unmarks hmark
      (entries_apart replay_options db) (fresh_rows_distinct hdistinct hfresh_entries)
      (fun _ _ => LedgerEntryRow.stored_marked) hentry]
    · exact (map_markIf_false _ _).symm
    · intro r hr hmarked
      rw [Bool.and_eq_true] at hmarked
      obtain ⟨entry, hmem, values, hvalues, hsame⟩ := hreplayed.entries r hr hmarked.2
      obtain ⟨value', hvalue', hvalues'⟩ := exists_result_of_mapM hfresh_entries hmem
      rw [hvalues] at hvalues'
      cases hvalues'
      obtain ⟨value, hvalue, rfl⟩ := List.mem_map.1 hvalue'
      exact ⟨value, hvalue, hsame⟩

/-! ## Runs of replay steps

The induction is on the steps from the end, because the phase is decided by the last of them.
A run may begin with several orphanings before its first persist, which is why the phases
start where the first persist ends.
-/

theorem replay_step_orphan {db db' : Db} :
    replay_step parseAmount source from_block to_block logs db .orphan = .ok db' ↔
      ∃ summary, orphan_source_range db source from_block to_block = .ok (summary, db') :=
  map_snd_eq_ok

theorem replay_step_persist {db db' : Db} :
    replay_step parseAmount source from_block to_block logs db .persist = .ok db' ↔
      ∃ summary, persist_decoded_logs_with_options parseAmount db source.from_source logs
        replay_options = .ok (summary, db') :=
  map_snd_eq_ok

/-- What ends with a persist does not end with the orphaning it starts with. -/
theorem getLast?_of_cons_orphan {rest : List ReplayStep}
    (h : (ReplayStep.orphan :: rest).getLast? = some .persist) : rest.getLast? = some .persist := by
  rw [List.getLast?_cons, Option.some.injEq] at h
  cases hrest : rest.getLast? with
  | none =>
    rw [hrest] at h
    cases h
  | some last =>
    rw [hrest] at h
    exact congrArg some h

/-- From a replayed ledger on, a run that ends with a persist ends in the first phase. -/
theorem ReplayPhase.run (hdistinct : DistinctStored logs) {db : Db}
    (hreplayed : Replayed parseAmount source from_block to_block logs db)
    {steps : List ReplayStep} {s t : Db} {marked : Bool}
    (hphase : ReplayPhase source.id from_block to_block db marked s)
    (h : steps.foldlM (replay_step parseAmount source from_block to_block logs) s = .ok t)
    (hlast : (steps = [] ∧ marked = false) ∨ steps.getLast? = some .persist) :
    ReplayPhase source.id from_block to_block db false t := by
  induction steps generalizing s marked with
  | nil =>
    rw [List.foldlM_nil, pure_eq_ok] at h
    rcases hlast with ⟨-, rfl⟩ | hlast
    · exact h ▸ hphase
    · cases hlast
  | cons step rest ih =>
    rw [List.foldlM_cons, bind_eq_ok] at h
    obtain ⟨mid, hstep, hrest⟩ := h
    rcases hlast with ⟨hnil, -⟩ | hlast
    · cases hnil
    -- an orphaning marks the range, and the persist after it takes the marks off
    cases step with
    | orphan =>
      obtain ⟨summary, horphan⟩ := replay_step_orphan.1 hstep
      exact ih (hphase.orphan horphan) hrest (Or.inr (getLast?_of_cons_orphan hlast))
    | persist =>
      obtain ⟨summary, hpersist⟩ := replay_step_persist.1 hstep
      refine ih (hphase.persist hdistinct hreplayed hpersist) hrest ?_
      cases rest with
      | nil => exact Or.inl ⟨rfl, rfl⟩
      | cons next rest => exact Or.inr hlast

/-- From an emptied range on, a run that ends with a persist ends in the first phase of
what its first persist left, and what was orphaned again meanwhile was empty already. -/
theorem run_from_orphaned (hdistinct : DistinctStored logs) {db₁ t : Db}
    (hevents : ∀ e ∈ db₁.events.rows, ¬ e.active_in source.id from_block to_block = true)
    (hentries : ∀ r ∈ db₁.ledger_entries.rows, ¬ r.active_in source.id from_block to_block = true)
    {steps : List ReplayStep}
    (h : steps.foldlM (replay_step parseAmount source from_block to_block logs) db₁ = .ok t)
    (hlast : steps.getLast? = some .persist) :
    ∃ db₂, replay_step parseAmount source from_block to_block logs db₁ .persist = .ok db₂ ∧
      ReplayPhase source.id from_block to_block db₂ false t := by
  induction steps with
  | nil => cases hlast
  | cons step rest ih =>
    rw [List.foldlM_cons, bind_eq_ok] at h
    obtain ⟨mid, hstep, hrest⟩ := h
    cases step with
    | orphan =>
      obtain ⟨summary, horphan⟩ := replay_step_orphan.1 hstep
      -- nothing is left to orphan, so the tables are as before
      rw [orphan_again hevents hentries horphan] at hrest
      exact ih hrest (getLast?_of_cons_orphan hlast)
    | persist =>
      obtain ⟨summary, hpersist⟩ := replay_step_persist.1 hstep
      have hreplayed := replayed_of_orphaned hdistinct hevents hentries hpersist
      refine ⟨mid, hstep, (ReplayPhase.refl ..).run hdistinct hreplayed hrest ?_⟩
      cases rest with
      | nil => exact Or.inl ⟨rfl, rfl⟩
      | cons next rest => exact Or.inr hlast

end Replays

/-- Any committed sequence of orphanings of a range and persists of its logs that starts
with an orphaning and ends with a persist leaves the events, the entries and the
balances that one orphaning and one persist leave. -/
theorem replays_converge {parseAmount : AmountParser} {source : SourceRow}
    {from_block to_block : Int} {logs : List (RpcLog × DecodedLog)}
    (hdistinct : DistinctStored logs) {steps : List ReplayStep}
    (hfirst : steps.head? = some .orphan) (hlast : steps.getLast? = some .persist) {db t : Db}
    (h : steps.foldlM (replay_step parseAmount source from_block to_block logs) db = .ok t) :
    ∃ db₂, [ReplayStep.orphan, .persist].foldlM
        (replay_step parseAmount source from_block to_block logs) db = .ok db₂ ∧
      t.events.rows = db₂.events.rows ∧ t.ledger_entries.rows = db₂.ledger_entries.rows ∧
      ∀ source_id a, t.balance source_id a = db₂.balance source_id a := by
  obtain ⟨rest, rfl⟩ : ∃ rest, steps = .orphan :: rest := by
    cases steps with
    | nil => cases hfirst
    | cons step rest =>
      cases hfirst
      exact ⟨rest, rfl⟩
  rw [List.foldlM_cons, bind_eq_ok] at h
  obtain ⟨db₁, hstep, hrest⟩ := h
  obtain ⟨summary, horphan⟩ := replay_step_orphan.1 hstep
  have hentries : ∀ r ∈ db₁.ledger_entries.rows,
      ¬ r.active_in source.id from_block to_block = true :=
    List.filter_eq_nil_iff.1 (active_in_orphaned horphan)
  have hrest_last := getLast?_of_cons_orphan hlast
  -- from an orphaned range on, every step keeps to what one persist would write
  obtain ⟨db₂, hpersist, hphase⟩ :=
    run_from_orphaned hdistinct (events_orphaned horphan) hentries hrest hrest_last
  -- the last step is a persist, so nothing of the range is marked
  have hevents_rows : t.events.rows = db₂.events.rows := by
    rw [hphase.events]
    exact map_markIf_false _ _
  have hentries_rows : t.ledger_entries.rows = db₂.ledger_entries.rows := by
    rw [hphase.entries]
    exact map_markIf_false _ _
  refine ⟨db₂, ?_, hevents_rows, hentries_rows, fun source_id a => ?_⟩
  · simp only [List.foldlM_cons, List.foldlM_nil, bind_eq_ok, pure_eq_ok]
    exact ⟨db₁, hstep, db₂, hpersist, rfl⟩
  · have hbooks := hphase.books source_id a
    rw [net_congr (Table.ext hentries_rows)] at hbooks
    omega

/-- A mint replayed by two workers, one of which orphaned twice, as a canonical mint
under another block hash. -/
theorem replays_converge_minted :
    ∃ t db₂, [ReplayStep.orphan, .orphan, .persist, .orphan, .persist].foldlM
        (replay_step plain_digits small_source 1 2
          [erc20_transfer "0x1" "0xb9" "0xd1" zero_address alice]) minted = .ok t ∧
      [ReplayStep.orphan, .persist].foldlM (replay_step plain_digits small_source 1 2
        [erc20_transfer "0x1" "0xb9" "0xd1" zero_address alice]) minted = .ok db₂ ∧
      t.events.rows = db₂.events.rows ∧ t.ledger_entries.rows = db₂.ledger_entries.rows ∧
      ∀ source_id a, t.balance source_id a = db₂.balance source_id a := by
  obtain ⟨t, ht⟩ := exists_ok_of_isOk
    (r := [ReplayStep.orphan, .orphan, .persist, .orphan, .persist].foldlM
      (replay_step plain_digits small_source 1 2
        [erc20_transfer "0x1" "0xb9" "0xd1" zero_address alice]) minted) (by decide +kernel)
  obtain ⟨db₂, hdb₂, hsame⟩ :=
    replays_converge ⟨by decide +kernel, by decide +kernel⟩ rfl rfl ht
  exact ⟨t, db₂, ht, hdb₂, hsame⟩

end EvmIndexer
