/-
What any number of workers make of one chain.

Workers take jobs in any order, in parallel, again after a failure and again after a lease has
run out; ranges of different commands overlap. If the chain answers with the logs of one
history, then at every moment the entries of a source are rows of that history, none of them
twice; and once every log lies in the range of a job that has succeeded, they are what
persisting the whole history at once leaves, balances included (`workers_ingest_exactly_once`).

A log the chain has moved would not be one history: nothing here is about a reorg. A replay
flags rows before it restores them, so where there were replays the second part waits until no
row is flagged.
-/
import EvmIndexer.IndexerLedger
import EvmIndexer.CommitOrder
import EvmIndexer.Isolation

set_option autoImplicit false

namespace EvmIndexer

open Sql Transition Bookkeeping

/-! ## The rows of a history

Identifiers are drawn when a row is stored, and flags come and go with replays. What is left
of a row without them is its content, and that is a function of the log and the source. So a
row of the source can be told to be one of the history's by its content, and there is one row
for each content because the key is part of it.
-/

/-- A row without its identifiers and its flag. -/
def LedgerEntryRow.content (row : LedgerEntryRow) : LedgerEntryRow :=
  (row.set_orphaned false).forget_ids

theorem content_owned_key (row : LedgerEntryRow) : row.content.owned_key = row.owned_key := rfl

theorem content_of_active {row : LedgerEntryRow} (h : row.orphaned = false) :
    row.content = row.forget_ids := by
  unfold LedgerEntryRow.content LedgerEntryRow.set_orphaned
  rw [← h]

/-- Rows with distinct keys that share a key are one row. -/
theorem DistinctKeys.eq_of_owned_key {vs : List LedgerEntryRow} (h : DistinctKeys vs)
    {v w : LedgerEntryRow} (hv : v ∈ vs) (hw : w ∈ vs) (hkey : v.owned_key = w.owned_key) : v = w := by
  by_contra hne
  have hsame : v.same_entry w = true := by
    refine same_entry_iff.2 ⟨?_, ?_, ?_, ?_⟩
    · exact (congrArg OwnedKey.chain_id hkey).symm
    · exact (congrArg OwnedKey.transaction_hash hkey).symm
    · exact (congrArg OwnedKey.log_index hkey).symm
    · exact (congrArg OwnedKey.batch_index hkey).symm
  have hsymm : Std.Symm fun a b : LedgerEntryRow => ¬ a.same_entry b = true :=
    ⟨fun _ _ hab hba => hab (same_entry_symm hba)⟩
  exact h.forall hv hw hne hsame

section Stored

variable {options : PersistDecodedLogsOptions} {source_id : Uuid}
  {rows us rows' vs : List LedgerEntryRow} {flags : Prop}

/-- The row has the content of a row of the list, and is flagged only where rows may be. -/
def LedgerEntryRow.within (vs : List LedgerEntryRow) (flags : Prop) (row : LedgerEntryRow) : Prop :=
  row.content ∈ vs ∧ (row.orphaned = true → flags)

/-- A row stored over one with the same content leaves that content. -/
theorem stored_content {values old : LedgerEntryRow}
    (h : old.content = values.forget_ids) : (values.stored options old).content = old.content := by
  have hamount := congrArg LedgerEntryRow.amount h
  have htimestamp := congrArg LedgerEntryRow.block_timestamp h
  have hhash := congrArg LedgerEntryRow.block_hash h
  have hindex := congrArg LedgerEntryRow.transaction_index h
  simp only [LedgerEntryRow.content, LedgerEntryRow.set_orphaned, LedgerEntryRow.forget_ids]
    at hamount htimestamp hhash hindex
  unfold LedgerEntryRow.stored LedgerEntryRow.content LedgerEntryRow.set_orphaned
    LedgerEntryRow.on_conflict LedgerEntryRow.forget_ids
  rw [← hamount, ← htimestamp, ← hhash, ← hindex]
  split <;> rfl

/-- Storing flags no row. -/
theorem stored_flagged {values old : LedgerEntryRow}
    (h : (values.stored options old).orphaned = true) : old.orphaned = true := by
  unfold LedgerEntryRow.stored at h
  split at h
  · cases h
  · exact h

/-- Storing rows of a list with distinct keys over rows of the list leaves rows of the list. -/
theorem StoredAs.within (hvs : DistinctKeys vs) (h : StoredAs options source_id rows us rows')
    (hus : ∀ u ∈ us, u.source_id = source_id ∧ u.orphaned = false ∧ u.forget_ids ∈ vs)
    (hrows : ∀ r ∈ rows, r.source_id = source_id → r.within vs flags) :
    ∀ r ∈ rows', r.source_id = source_id → r.within vs flags := by
  induction h with
  | nil => exact hrows
  | @cons rows us rows' values hmine _ ih =>
    obtain ⟨hsource, hactive, hvalues⟩ := hus values (List.mem_cons_self ..)
    refine ih (fun u hu => hus u (List.mem_cons_of_mem _ hu)) fun r hr hmine_r => ?_
    unfold store_entry at hr
    cases hfind : rows.find? values.same_entry with
    | none =>
      rw [hfind] at hr
      rcases List.mem_append.1 hr with hr | hr
      · exact hrows r hr hmine_r
      · rw [List.mem_singleton.1 hr]
        refine ⟨?_, fun hflag => absurd hflag (by rw [hactive]; decide)⟩
        rw [content_of_active hactive]
        exact hvalues
    | some old =>
      rw [hfind] at hr
      have hold := List.mem_of_find?_eq_some hfind
      have hsame := List.find?_some hfind
      obtain ⟨hold_content, hold_flag⟩ := hrows old hold (hmine old hfind)
      -- the row found there is the row of the same entry, so it stays what it was
      have hequal : old.content = values.forget_ids := by
        refine hvs.eq_of_owned_key hold_content hvalues ?_
        rw [content_owned_key, owned_key_of_same_entry hsame, hmine old hfind, ← hsource]
        rfl
      rcases (mem_replaceRow hold).1 hr with rfl | ⟨hr, -⟩
      · refine ⟨?_, fun hflag => hold_flag (stored_flagged hflag)⟩
        rw [stored_content hequal]
        exact hold_content
      · exact hrows r hr hmine_r

/-- Storing loses no key, and the keys of what is stored are there. -/
theorem StoredAs.owned_keys (h : StoredAs options source_id rows us rows')
    (hus : ∀ u ∈ us, u.source_id = source_id) :
    rows.map (·.owned_key) ⊆ rows'.map (·.owned_key) ∧
      ∀ u ∈ us, u.owned_key ∈ rows'.map (·.owned_key) := by
  induction h with
  | nil => exact ⟨List.Subset.refl _, fun u hu => absurd hu List.not_mem_nil⟩
  | @cons rows us rows' values hmine _ ih =>
    obtain ⟨hkept, hthere⟩ := ih fun u hu => hus u (List.mem_cons_of_mem _ hu)
    have hfirst : rows.map (·.owned_key) ⊆ (store_entry options rows values).map (·.owned_key) ∧
        values.owned_key ∈ (store_entry options rows values).map (·.owned_key) := by
      unfold store_entry
      cases hfind : rows.find? values.same_entry with
      | none =>
        rw [List.map_append]
        exact ⟨List.subset_append_left _ _, List.mem_append_right _ (List.mem_singleton.2 rfl)⟩
      | some old =>
        rw [owned_keys_replaceRow (stored_owned_key options values old)]
        refine ⟨List.Subset.refl _, List.mem_map.2 ⟨old, List.mem_of_find?_eq_some hfind, ?_⟩⟩
        rw [owned_key_of_same_entry (List.find?_some hfind), hmine old hfind,
          ← hus values (List.mem_cons_self ..)]
        rfl
    refine ⟨List.Subset.trans hfirst.1 hkept, fun u hu => ?_⟩
    rcases List.mem_cons.1 hu with rfl | hu
    · exact hkept hfirst.2
    · exact hthere u hu

end Stored

section History

variable (parseAmount : AmountParser) (source : SourceRow)

/-- The entries of the logs are stored for the source. -/
def Db.holds_logs (db : Db) (logs : List (RpcLog × DecodedLog)) : Prop :=
  ∀ entry ∈ log_entries logs, ∀ values,
    new_ledger_entry_row parseAmount 0 source.from_source entry.1 0 entry.2 = .ok values →
      values.owned_key ∈ db.owned_keys

/-- The entries of the source are rows of the list, flagged only where rows may be. -/
def Db.within (db : Db) (vs : List LedgerEntryRow) (flags : Prop) : Prop :=
  ∀ row ∈ db.entries_of source.id, row.within vs flags

variable {parseAmount source} {db db' : Db} {logs history : List (RpcLog × DecodedLog)}
  {vs : List LedgerEntryRow} {flags : Prop}

/-- Of a source, a row takes the two identifiers. -/
theorem new_ledger_entry_row_of_source {a b : SourceRef} (hid : a.id = b.id)
    (hchain : a.chain_id = b.chain_id) (log : RpcLog) (entry : DecodedLedgerEntry) :
    new_ledger_entry_row parseAmount 0 a log 0 entry
      = new_ledger_entry_row parseAmount 0 b log 0 entry := by
  unfold new_ledger_entry_row
  rw [hid, hchain]

theorem Db.within.of_entries (h : db.within source vs flags)
    (hentries : (db'.entries_of source.id).Perm (db.entries_of source.id)) :
    db'.within source vs flags :=
  fun row hrow => h row (hentries.mem_iff.1 hrow)

theorem mem_entries_of {source_id : Uuid} {row : LedgerEntryRow} : row ∈ db.entries_of source_id ↔
    row ∈ db.ledger_entries.rows ∧ row.source_id = source_id := by
  unfold Db.entries_of
  rw [List.mem_filter, beq_iff_eq]

theorem Db.holds_logs.mono (h : db.holds_logs parseAmount source logs)
    (hkeys : db.owned_keys ⊆ db'.owned_keys) : db'.holds_logs parseAmount source logs :=
  fun entry hentry values hvalues => hkeys (h entry hentry values hvalues)

/-- Persisting logs of the history keeps to its rows, and leaves those of the logs. -/
theorem persist_within {loaded : SourceRef} {options : PersistDecodedLogsOptions}
    {summary : ScanSummary} (hid : loaded.id = source.id) (hchain : loaded.chain_id = source.chain_id)
    (hvs : DistinctKeys vs) (hrows : fresh_rows parseAmount source.from_source history = .ok vs)
    (hlogs : logs ⊆ history)
    (h : persist_decoded_logs_with_options parseAmount db loaded logs options = .ok (summary, db'))
    (hdb : db.within source vs flags) :
    db'.within source vs flags ∧ db'.holds_logs parseAmount source logs := by
  obtain ⟨us, hus, hvalues, hstored⟩ := persist_decoded_logs_rows h
  rw [hid] at hstored
  have hus_source : ∀ u ∈ us, u.source_id = source.id := fun u hu => (hus u hu).1.trans hid
  have hsame : ∀ entry : RpcLog × DecodedLedgerEntry,
      new_ledger_entry_row parseAmount 0 loaded entry.1 0 entry.2
        = new_ledger_entry_row parseAmount 0 source.from_source entry.1 0 entry.2 :=
    fun entry => new_ledger_entry_row_of_source hid hchain entry.1 entry.2
  have hus_rows : ∀ u ∈ us, u.source_id = source.id ∧ u.orphaned = false ∧ u.forget_ids ∈ vs := by
    intro u hu
    refine ⟨hus_source u hu, (hus u hu).2.2, ?_⟩
    obtain ⟨entry, hentry, hrow⟩ := exists_of_mapM_eq_ok hvalues (List.mem_map_of_mem hu)
    obtain ⟨log, hlog, hmem⟩ := List.mem_flatMap.1 hentry
    obtain ⟨v, hv, hvrow⟩ := exists_result_of_mapM hrows
      (List.mem_flatMap.2 ⟨log, hlogs hlog, hmem⟩)
    rw [← hsame, hrow] at hvrow
    cases hvrow
    exact hv
  refine ⟨fun row hrow => ?_, fun entry hentry values hfresh => ?_⟩
  · obtain ⟨hrow, hmine⟩ := mem_entries_of.1 hrow
    exact hstored.within hvs hus_rows
      (fun r hr hr_source => hdb r (mem_entries_of.2 ⟨hr, hr_source⟩)) row hrow hmine
  · obtain ⟨u', hu', hrow⟩ := exists_result_of_mapM hvalues hentry
    obtain ⟨u, hu, rfl⟩ := List.mem_map.1 hu'
    rw [hsame, hfresh] at hrow
    cases hrow
    exact (hstored.owned_keys hus_source).2 u hu

/-- No call of the ledger loses the key of an entry. -/
theorem LedgerOp.apply_owned_keys {call : LedgerOp} (h : call.apply parseAmount db = .ok db') :
    db.owned_keys ⊆ db'.owned_keys := by
  cases call with
  | ensure_source chain_id name contract_address standard start_block =>
    obtain ⟨row, hrow⟩ := map_snd_eq_ok.1 h
    rw [ensure_source_frame hrow]
    exact List.Subset.refl _
  | persist_decoded_logs_with_options source logs options =>
    obtain ⟨summary, hsummary⟩ := map_snd_eq_ok.1 h
    exact persist_decoded_logs_relates (R := fun s t : Db => s.owned_keys ⊆ t.owned_keys)
      (fun _ => List.Subset.refl _) List.Subset.trans (fun _ _ => List.Subset.refl _)
      (fun hentry => (persist_entry_keys hentry).1) hsummary
  | orphan_source_range source from_block to_block =>
    obtain ⟨summary, hsummary⟩ := map_snd_eq_ok.1 h
    obtain ⟨_, -, -, hentries, -⟩ := orphan_source_range_spec hsummary
    unfold Db.owned_keys
    rw [hentries]
    refine (List.Perm.of_eq (owned_keys_setRow (fun r => ?_) _).symm).subset
    rfl
  | update_log_metadata source log =>
    obtain ⟨summary, hsummary⟩ := map_snd_eq_ok.1 h
    unfold EvmIndexer.update_log_metadata at hsummary
    simp only [bind_eq_ok, db_result_eq_ok] at hsummary
    obtain ⟨_, -, _, -, _, -, events, -, ledger_entries, hentries, hdb⟩ := hsummary
    cases hdb
    unfold Db.owned_keys
    rw [(Table.update_eq_some.1 hentries).2]
    refine (List.Perm.of_eq (owned_keys_setRow (fun r => ?_) _).symm).subset
    simp only [LedgerEntryRow.owned_key]

/-- Flagging rows leaves their content. -/
theorem orphan_within {loaded : SourceRow} {from_block to_block : Int} {summary : OrphanRangeSummary}
    (h : orphan_source_range db loaded from_block to_block = .ok (summary, db')) (hflags : flags)
    (hdb : db.within source vs flags) : db'.within source vs flags := by
  obtain ⟨_, -, -, hentries, -⟩ := orphan_source_range_spec h
  intro row hrow
  obtain ⟨hrow, hmine⟩ := mem_entries_of.1 hrow
  rw [hentries] at hrow
  obtain ⟨old, hold, rfl⟩ := List.mem_map.1 hrow
  have hcontent : (Table.setRow (LedgerEntryRow.active_in loaded.id from_block to_block)
      (LedgerEntryRow.set_orphaned true) old).content = old.content :=
    Table.setRow_keeps LedgerEntryRow.content _ old fun _ => rfl
  have hsource : (Table.setRow (LedgerEntryRow.active_in loaded.id from_block to_block)
      (LedgerEntryRow.set_orphaned true) old).source_id = old.source_id :=
    Table.setRow_keeps LedgerEntryRow.source_id _ old fun _ => rfl
  rw [hsource] at hmine
  refine ⟨?_, fun _ => hflags⟩
  rw [hcontent]
  exact (hdb old (mem_entries_of.2 ⟨hold, hmine⟩)).1

end History

/-! ## Steps that touch the ledger

Of the steps of the indexer two write entries: an execution that persists logs and one that
orphans a range. Both write entries of the source that the execution has loaded, and the
source was loaded by the id that the job has. That a source of this id has not changed its
chain meanwhile is an invariant of its own (`Indexer.Chained`).
-/

section Steps

variable {parseAmount : AmountParser} {s t : Indexer} {op : IndexerOp}

/-- A step that persists logs does so for the source its execution has loaded. -/
theorem IndexerStep.persists {slot : Nat} {logs : List (RpcLog × DecodedLog)}
    (h : IndexerStep parseAmount s (.persist_decoded_logs slot logs) t) :
    ∃ e loaded options summary db, s.executions slot = some e ∧ e.phase.source = some loaded ∧
      persist_decoded_logs_with_options parseAmount s.db loaded.from_source logs options
        = .ok (summary, db) ∧ db.SameRows t.db := by
  obtain ⟨u, hexec, hsame, -, -⟩ := h
  simp only [Indexer.exec, IndexerOp.slot, Option.bind_some, Option.bind_eq_some_iff] at hexec
  obtain ⟨e, hslot, hadvance⟩ := hexec
  simp only [Indexer.advance_execution] at hadvance
  split at hadvance
  · rename_i loaded observed hphase _
    simp only [Option.map_eq_some_iff, toOption_eq_some] at hadvance
    obtain ⟨⟨summary, db⟩, hpersist, rfl⟩ := hadvance
    exact ⟨e, loaded, _, summary, db, hslot, by rw [hphase]; rfl, hpersist, hsame⟩
  · rename_i loaded observed hphase _
    simp only [Option.map_eq_some_iff, toOption_eq_some] at hadvance
    obtain ⟨⟨summary, db⟩, hpersist, rfl⟩ := hadvance
    exact ⟨e, loaded, _, summary, db, hslot, by rw [hphase]; rfl, hpersist, hsame⟩
  · cases hadvance

/-- A step that orphans a range does so for a replay and the source it has loaded. -/
theorem IndexerStep.orphans {slot : Nat}
    (h : IndexerStep parseAmount s (.orphan_source_range slot) t) :
    ∃ e loaded from_block to_block summary db, s.executions slot = some e ∧
      e.phase.source = some loaded ∧ e.job.job_type = .ReplayRange ∧
      orphan_source_range s.db loaded from_block to_block = .ok (summary, db) ∧
      db.SameRows t.db := by
  obtain ⟨u, hexec, hsame, -, -⟩ := h
  simp only [Indexer.exec, IndexerOp.slot, Option.bind_some, Option.bind_eq_some_iff] at hexec
  obtain ⟨e, hslot, hadvance⟩ := hexec
  simp only [Indexer.advance_execution] at hadvance
  split at hadvance
  · rename_i loaded observed from_block to_block hphase htype _
    simp only [Option.map_eq_some_iff, toOption_eq_some] at hadvance
    obtain ⟨⟨summary, db⟩, horphan, rfl⟩ := hadvance
    exact ⟨e, loaded, from_block, to_block, summary, db, hslot, by rw [hphase]; rfl, htype, horphan,
      hsame⟩
  · cases hadvance

/-- No step loses the key of an entry. -/
theorem IndexerStep.owned_keys (h : IndexerStep parseAmount s op t) :
    s.db.owned_keys ⊆ t.db.owned_keys := by
  obtain ⟨db, hsame, hleft⟩ := h.ledger
  have hkeys : s.db.owned_keys ⊆ db.owned_keys := by
    unfold LeftLedger at hleft
    cases hop : op.ledger_op s.executions with
    | none =>
      rw [hop] at hleft
      unfold Db.owned_keys
      rw [hleft.ledger_entries]
      exact List.Subset.refl _
    | some call =>
      rw [hop] at hleft
      exact LedgerOp.apply_owned_keys hleft
  exact List.Subset.trans hkeys (hsame.ledger_entries.map _).subset

/-- A source keeps its chain. A command that ensures it again is for the same chain and
contract, since this is how it finds the row. -/
theorem ensure_source_keeps_chain {db db' : Db} {chain_id : Int} {name contract_address : String}
    {standard : TokenStandard} {start_block : Int} {row : SourceRow}
    (h : ensure_source db chain_id name contract_address standard start_block = .ok (row, db'))
    {source : SourceRow} (hsource : source ∈ db.sources.rows) :
    ∃ kept ∈ db'.sources.rows, kept.id = source.id ∧ kept.chain_id = source.chain_id := by
  unfold ensure_source at h
  rw [bail_eq_ok] at h
  obtain ⟨-, h⟩ := h
  simp only [bind_eq_ok, db_result_eq_ok] at h
  obtain ⟨⟨stored, sources⟩, hupsert, h⟩ := h
  cases h
  obtain ⟨-, ⟨old, hfind, rfl, hupdate⟩ | ⟨-, rfl, hinsert⟩⟩ := Table.upsert_eq_some hupsert
  · have hrows := (Table.update_eq_some.1 hupdate).2
    have hkept : ∃ kept ∈ sources.rows, kept.id = source.id ∧ kept.chain_id = source.chain_id := by
      rw [hrows]
      refine ⟨_, List.mem_map_of_mem hsource, ?_⟩
      unfold Table.setRow
      split
      · exact ⟨rfl, rfl⟩
      · exact ⟨rfl, rfl⟩
    exact hkept
  · refine ⟨source, ?_, rfl, rfl⟩
    rw [(Table.insert_eq_some.1 hinsert).2]
    exact List.mem_append_left _ hsource

theorem IndexerStep.keeps_chain (h : IndexerStep parseAmount s op t) {source : SourceRow}
    (hsource : source ∈ s.db.sources.rows) :
    ∃ kept ∈ t.db.sources.rows, kept.id = source.id ∧ kept.chain_id = source.chain_id := by
  have hsame : SameSources s t → ∃ kept ∈ t.db.sources.rows, kept.id = source.id ∧
      kept.chain_id = source.chain_id :=
    fun hsources => ⟨source, (hsources source).2 hsource, rfl, rfl⟩
  cases h.effect with
  | idle _ hsources | enqueued _ _ _ hsources | leased _ _ _ _ hsources | running _ _ _ _ hsources
  | succeeded _ _ _ _ hsources | gave_up _ _ _ _ _ hsources | dropped _ _ _ hsources
  | moved _ _ _ _ hsources | ingested _ _ _ hsources | advanced _ _ _ _ hsources =>
    exact hsame hsources
  | ensured =>
    obtain ⟨db, hrows, hleft⟩ := h.ledger
    obtain ⟨row, hensure⟩ := map_snd_eq_ok.1 hleft
    obtain ⟨kept, hkept, hid⟩ := ensure_source_keeps_chain hensure hsource
    exact ⟨kept, hrows.sources.mem_iff.1 hkept, hid⟩

/-- An execution after a step has just leased its job, or was there with the same job. -/
theorem IndexerStep.same_execution (h : IndexerStep parseAmount s op t) (hs : s.WellFormed)
    {slot : Nat} {e : Execution} (he : t.executions slot = some e) :
    JustLeased s t op slot e ∨ ∃ old, s.executions slot = some old ∧ e.job.SameJob old.job := by
  rcases h.effect.execution_mem he with hold | hleased | ⟨old, hold, ⟨-, hmem, hid⟩ | ⟨hjob, -, -⟩⟩
  · exact Or.inr ⟨e, hold, .refl _⟩
  · exact Or.inl hleased
  · -- the row that was marked running is the row of the job that was held
    obtain ⟨row, hrow, hsame⟩ := hs.stored slot old hold
    obtain ⟨new, hnew, hsame'⟩ := h.effect.job_stays hrow
    obtain rfl := job_eq_of_id t.db hmem hnew ((hid.trans hsame.id.symm).trans hsame'.id.symm)
    exact Or.inr ⟨old, hold, hsame'.trans hsame⟩
  · exact Or.inr ⟨old, hold, hjob ▸ .refl _⟩

/-- The chain of a source that an execution has loaded is still that of the source. -/
def Indexer.Chained (s : Indexer) : Prop :=
  ∀ slot e loaded, s.executions slot = some e → e.phase.source = some loaded →
    ∃ row ∈ s.db.sources.rows, row.id = loaded.id ∧ row.chain_id = loaded.chain_id

theorem IndexerStep.chained (h : IndexerStep parseAmount s op t) (hs : s.Chained) : t.Chained := by
  have hstays : ∀ {loaded : SourceRow}, (∃ row ∈ s.db.sources.rows, row.id = loaded.id ∧
      row.chain_id = loaded.chain_id) → ∃ row ∈ t.db.sources.rows, row.id = loaded.id ∧
        row.chain_id = loaded.chain_id := by
    rintro loaded ⟨row, hrow, hid, hchain⟩
    obtain ⟨kept, hkept, hkept_id, hkept_chain⟩ := h.keeps_chain hrow
    exact ⟨kept, hkept, hkept_id.trans hid, hkept_chain.trans hchain⟩
  intro slot e loaded he hsource
  rcases h.effect.execution_mem he with hold | hleased | ⟨old, hold, ⟨hphase, -, -⟩ | ⟨-, -, hchange⟩⟩
  · exact hstays (hs slot e loaded hold hsource)
  · rw [hleased.phase] at hsource
    cases hsource
  · rw [hphase] at hsource
    cases hsource
  · rcases hchange.source hsource with ⟨hstored, -⟩ | hold_source
    · exact hstays ⟨loaded, hstored, rfl, rfl⟩
    · exact hstays (hs slot old loaded hold hold_source)

/-- Every job whose range was ingested is in the queue. -/
def Indexer.IngestedStored (s : Indexer) : Prop :=
  ∀ id ∈ s.ingested, ∃ job ∈ s.db.jobs.rows, job.id = id

theorem IndexerStep.ingestedStored (h : IndexerStep parseAmount s op t) (hwell : s.WellFormed)
    (hs : s.IngestedStored) : t.IngestedStored := by
  have hstays : ∀ id, (∃ job ∈ s.db.jobs.rows, job.id = id) → ∃ job ∈ t.db.jobs.rows, job.id = id := by
    rintro _ ⟨job, hjob, rfl⟩
    obtain ⟨new, hnew, hsame⟩ := h.effect.job_stays hjob
    exact ⟨new, hnew, hsame.id⟩
  intro id hid
  refine hstays id ?_
  cases h.effect with
  | idle _ _ _ _ _ hingested | ensured _ _ _ _ hingested | enqueued _ _ _ _ _ _ hingested
  | leased _ _ _ _ _ _ _ hingested | running _ _ _ _ _ _ _ hingested
  | succeeded _ _ _ _ _ _ _ hingested | gave_up _ _ _ _ _ _ _ _ hingested
  | dropped _ _ _ _ _ _ hingested | moved _ _ _ _ _ _ _ hingested
  | advanced _ _ _ _ _ _ hingested =>
    rw [hingested] at hid
    exact hs id hid
  | @ingested slot e _ hslot _ _ _ _ _ hingested =>
    rw [hingested] at hid
    rcases List.mem_cons.1 hid with rfl | hid
    · obtain ⟨row, hrow, hsame⟩ := hwell.stored slot e hslot
      exact ⟨row, hrow, hsame.id⟩
    · exact hs id hid

/-- No step of the system with its commands moves the chain of a loaded source, or loses a job
whose range was ingested. -/
theorem CommandReachable.chained_stored (h : CommandReachable parseAmount s) :
    s.WellFormed ∧ s.Chained ∧ s.IngestedStored := by
  refine Reachable.invariant (I := fun s : Indexer => s.WellFormed ∧ s.Chained ∧ s.IngestedStored)
    ?_ ?_ h
  · intro s hs
    refine ⟨hs.wellFormed, fun slot e loaded he => ?_, fun id hid => ?_⟩
    · rw [hs.2.1] at he
      cases he
    · rw [hs.2.2] at hid
      cases hid
  · rintro s op t ⟨hwell, hchained, hstored⟩ hstep
    refine ⟨hstep.wellFormed hwell, ?_⟩
    rcases hstep.cases with ⟨op, hstep⟩ | ⟨call, db, -, hframe, hsame, hexecutions, hingested⟩
    · exact ⟨hstep.chained hchained, hstep.ingestedStored hwell hstored⟩
    · refine ⟨fun slot e loaded he hsource => ?_, fun id hid => ?_⟩
      · rw [hexecutions] at he
        obtain ⟨row, hrow, hid⟩ := hchained slot e loaded he hsource
        rw [← hframe.sources] at hrow
        exact ⟨row, hsame.sources.mem_iff.1 hrow, hid⟩
      · rw [hingested] at hid
        obtain ⟨job, hjob, hjob_id⟩ := hstored id hid
        rw [← hframe.jobs] at hjob
        exact ⟨job, hsame.jobs.mem_iff.1 hjob, hjob_id⟩

theorem CommandReachable.chained (h : CommandReachable parseAmount s) : s.Chained :=
  h.chained_stored.2.1

theorem CommandReachable.ingested_stored (h : CommandReachable parseAmount s) : s.IngestedStored :=
  h.chained_stored.2.2

/-- No job is for the source, of whatever type and status. A source can have entries all the
same, if a scan has ingested it. -/
def Indexer.Untouched (source_id : Uuid) (s : Indexer) : Prop :=
  ∀ job ∈ s.db.jobs.rows, job.source_id ≠ some source_id

instance (source_id : Uuid) (s : Indexer) : Decidable (s.Untouched source_id) :=
  inferInstanceAs (Decidable (∀ _ ∈ _, _))

/-- The executions are of other sources, too. -/
theorem Indexer.Untouched.executions {source_id : Uuid} {s : Indexer} (h : s.Untouched source_id)
    (hs : s.WellFormed) {slot : Nat} {e : Execution} (he : s.executions slot = some e) :
    e.job.source_id ≠ some source_id := by
  obtain ⟨row, hrow, hsame⟩ := hs.stored slot e he
  exact fun hsource => h row hrow (hsame.source_id.trans hsource)

end Steps

/-! ## The system before one chain

Two things are added to the indexer. What the executions persist are the logs the history has
in their ranges, which is the assumption on the chain. And a note says for each slot whether
the execution there has persisted them, which is what lets a returned `ingest_source_range`
count as done. A crash in between loses the note with the execution, and the rows that were
stored stay.
-/

/-- The logs in the range of a job. -/
def job_logs (history : List (RpcLog × DecodedLog)) (job : JobRow) : List (RpcLog × DecodedLog) :=
  match job.range with
  | some (from_block, to_block) =>
    logs_in history { «from» := from_block.toNat, «to» := to_block.toNat }
  | none => []

theorem job_logs_subset (history : List (RpcLog × DecodedLog)) (job : JobRow) :
    job_logs history job ⊆ history := by
  unfold job_logs
  split
  · exact List.filter_subset_self history
  · exact List.nil_subset _

theorem job_logs_congr (history : List (RpcLog × DecodedLog)) {a b : JobRow} (h : a.SameJob b) :
    job_logs history a = job_logs history b := by
  unfold job_logs
  rw [h.range]

/-- The system, with a note for each slot whether the execution there has persisted the logs
of its job. The code needs none: it is where it is in `ingest_source_range`. -/
structure Serving where
  indexer : Indexer
  persisted : Nat → Bool

section Served

variable (parseAmount : AmountParser) (source_id : Uuid) (history : List (RpcLog × DecodedLog))

/-- What an execution for the source persists are the logs the history has in the range of its
job, and its `ingest_source_range` returns once it has persisted them. -/
def Serving.serves (s : Serving) : IndexerOp → Prop
  | .persist_decoded_logs slot logs => ∀ e ∈ s.indexer.executions slot,
      e.job.source_id = some source_id → logs.Perm (job_logs history e.job)
  | .ingest_source_range slot => ∀ e ∈ s.indexer.executions slot,
      e.job.source_id = some source_id → s.persisted slot = true
  | _ => True

/-- The notes after a step. -/
def Serving.note (s : Serving) : IndexerOp → Nat → Bool
  | .lease slot .. => Function.update s.persisted slot false
  | .persist_decoded_logs slot _ => Function.update s.persisted slot true
  | _ => s.persisted

/-- A step of the system before a chain that has this history of the source. -/
def ServingStep (s : Serving) (op : IndexerOp) (t : Serving) : Prop :=
  IndexerStep parseAmount s.indexer op t.indexer ∧ s.serves source_id history op ∧
    t.persisted = s.note op

/-- The states the system reaches before such a chain. -/
def ServingReachable : Serving → Prop :=
  Reachable (ServingStep parseAmount source_id history) fun s => s.indexer.Initial

end Served

/-- A job of the source that replays a range. -/
def Db.has_replays (db : Db) (source_id : Uuid) : Prop :=
  ∃ job ∈ db.jobs.rows, job.source_id = some source_id ∧ job.job_type = .ReplayRange

/-- The source has its chain under every row of its id. -/
def Indexer.Named (source : SourceRow) (s : Indexer) : Prop :=
  ∀ row ∈ s.db.sources.rows, row.id = source.id → row.chain_id = source.chain_id

section Ingests

variable (parseAmount : AmountParser) (source : SourceRow) (history : List (RpcLog × DecodedLog))
  (vs : List LedgerEntryRow)

/-- What the system has ingested of a history. The entries of the source are rows of the
history; the logs of an execution that has persisted are held; and so are those of every job
whose range was ingested, also when the job has failed since. -/
structure Serving.Ingests (s : Serving) : Prop where
  /-- Its entries are rows of the history. -/
  within : s.indexer.db.within source vs (s.indexer.db.has_replays source.id)
  /-- An execution that has persisted logs finds them stored. -/
  persisted : ∀ slot e, s.indexer.executions slot = some e → s.persisted slot = true →
    e.job.source_id = some source.id →
      s.indexer.db.holds_logs parseAmount source (job_logs history e.job)
  /-- And so does a job that was ingested. -/
  ingested : ∀ id ∈ s.indexer.ingested, ∃ job ∈ s.indexer.db.jobs.rows, job.id = id ∧
    (job.source_id = some source.id →
      s.indexer.db.holds_logs parseAmount source (job_logs history job))

variable {parseAmount source history vs} {s t : Serving} {op : IndexerOp}

theorem Effect.has_replays {s t : Indexer} (h : Effect s t op) {source_id : Uuid}
    (hs : s.db.has_replays source_id) : t.db.has_replays source_id := by
  obtain ⟨job, hjob, hsource, htype⟩ := hs
  obtain ⟨new, hnew, hsame⟩ := h.job_stays hjob
  exact ⟨new, hnew, hsame.source_id.trans hsource, hsame.job_type.trans htype⟩

theorem Db.within.mono {db : Db} {flags flags' : Prop} (h : db.within source vs flags)
    (himp : flags → flags') : db.within source vs flags' :=
  fun row hrow => ⟨(h row hrow).1, fun hflag => himp ((h row hrow).2 hflag)⟩

/-- A loaded source with the id has the chain. -/
theorem Indexer.Named.loaded {s : Indexer} (h : s.Named source) (hchained : s.Chained) {slot : Nat}
    {e : Execution} {loaded : SourceRow} (he : s.executions slot = some e)
    (hloaded : e.phase.source = some loaded) (hid : loaded.id = source.id) :
    loaded.chain_id = source.chain_id := by
  obtain ⟨row, hrow, hrow_id, hrow_chain⟩ := hchained slot e loaded he hloaded
  rw [← hrow_chain]
  exact h row hrow (hrow_id.trans hid)

theorem Indexer.Named.of_step {s t : Indexer} (h : IndexerStep parseAmount s op t)
    (ht : t.Named source) : s.Named source := by
  intro row hrow hid
  obtain ⟨kept, hkept, hkept_id, hkept_chain⟩ := h.keeps_chain hrow
  rw [← hkept_chain]
  exact ht kept hkept (hkept_id.trans hid)

/-- A step keeps the entries of the source to the history. -/
theorem ServingStep.within (hvs : DistinctKeys vs)
    (hrows : fresh_rows parseAmount source.from_source history = .ok vs)
    (hs : s.indexer.WellFormed) (hchained : s.indexer.Chained) (hnamed : s.indexer.Named source)
    (hwithin : s.indexer.db.within source vs (s.indexer.db.has_replays source.id))
    (h : ServingStep parseAmount source.id history s op t) :
    t.indexer.db.within source vs (t.indexer.db.has_replays source.id) ∧
      ∀ slot logs, op = .persist_decoded_logs slot logs → ∀ e,
        s.indexer.executions slot = some e → e.job.source_id = some source.id →
          t.indexer.db.holds_logs parseAmount source (job_logs history e.job) := by
  obtain ⟨hstep, hserves, -⟩ := h
  have hreplays : s.indexer.db.has_replays source.id → t.indexer.db.has_replays source.id :=
    hstep.effect.has_replays
  -- where the entries of the source are the rows they were, nothing is to show
  have hkept : ∀ db : Db, db.SameRows t.indexer.db →
      db.entries_of source.id = s.indexer.db.entries_of source.id →
      t.indexer.db.within source vs (t.indexer.db.has_replays source.id) := by
    intro db hsame hentries
    refine (hwithin.mono hreplays).of_entries ?_
    rw [← hentries]
    exact (hsame.ledger_entries.filter _).symm
  have hother : ∀ (call : LedgerOp) {db : Db}, call.apply parseAmount s.indexer.db = .ok db →
      call.source_id ≠ some source.id → db.SameRows t.indexer.db →
      t.indexer.db.within source vs (t.indexer.db.has_replays source.id) :=
    fun call _ hcall hne hsame => hkept _ hsame (LedgerOp.apply_sameBooks hcall hne).entries
  cases op with
  | persist_decoded_logs slot logs =>
    obtain ⟨e, loaded, options, summary, db, hslot, hloaded, hpersist, hsame⟩ := hstep.persists
    have hjob := hs.loaded slot e loaded hslot hloaded
    by_cases hid : loaded.id = source.id
    · have hlogs := hserves e hslot (hid ▸ hjob)
      have hloaded_id : loaded.from_source.id = source.id := hid
      obtain ⟨hleft, hthere⟩ := persist_within hloaded_id
        (hnamed.loaded hchained hslot hloaded hid) hvs hrows
        (fun log hlog => job_logs_subset history e.job (hlogs.mem_iff.1 hlog)) hpersist
        (hwithin.mono hreplays)
      refine ⟨hleft.of_entries (hsame.ledger_entries.filter _).symm, ?_⟩
      rintro slot' logs' hop e' he' -
      cases hop
      rw [hslot] at he'
      cases he'
      have hkeys : db.owned_keys ⊆ t.indexer.db.owned_keys :=
        (hsame.ledger_entries.map _).subset
      have hstored : db.holds_logs parseAmount source (job_logs history e.job) := by
        intro entry hentry
        obtain ⟨log, hlog, hmem⟩ := List.mem_flatMap.1 hentry
        exact hthere entry (List.mem_flatMap.2 ⟨log, hlogs.mem_iff.2 hlog, hmem⟩)
      exact hstored.mono hkeys
    · refine ⟨hother (.persist_decoded_logs_with_options loaded.from_source logs options)
        (map_snd_eq_ok.2 ⟨summary, hpersist⟩) (fun heq => hid (Option.some.inj heq)) hsame, ?_⟩
      rintro slot' logs' hop e' he' hsource
      cases hop
      rw [hslot] at he'
      cases he'
      exact absurd (Option.some.inj (hjob.symm.trans hsource)) hid
  | orphan_source_range slot =>
    refine ⟨?_, fun _ _ hop => by cases hop⟩
    obtain ⟨e, loaded, from_block, to_block, summary, db, hslot, hloaded, htype, horphan, hsame⟩ :=
      hstep.orphans
    by_cases hid : loaded.id = source.id
    · -- rows are flagged for the replay that the execution holds
      obtain ⟨row, hrow, hrow_job⟩ := hs.stored slot e hslot
      have hreplay : s.indexer.db.has_replays source.id := by
        refine ⟨row, hrow, ?_, hrow_job.job_type.trans htype⟩
        rw [hrow_job.source_id, hs.loaded slot e loaded hslot hloaded, hid]
      exact (orphan_within horphan (hreplays hreplay) (hwithin.mono hreplays)).of_entries
        (hsame.ledger_entries.filter _).symm
    · exact hother (.orphan_source_range loaded from_block to_block)
        (map_snd_eq_ok.2 ⟨summary, horphan⟩) (fun heq => hid (Option.some.inj heq)) hsame
  | ensure_source chain_id name contract_address standard start_block =>
    refine ⟨?_, fun _ _ hop => by cases hop⟩
    obtain ⟨db, hsame, hleft⟩ := hstep.ledger
    exact hother _ hleft (fun heq => by cases heq) hsame
  | enqueue | lease | mark_running | load_source | ingest_source_range
  | next_contiguous_checkpoint_target | advance_checkpoint | mark_succeeded | mark_failed
  | mark_interrupted_for_retry | crash =>
    refine ⟨?_, fun _ _ hop => by cases hop⟩
    obtain ⟨db, hsame, hleft⟩ := hstep.ledger
    have hentries : db.ledger_entries = s.indexer.db.ledger_entries := hleft.ledger_entries
    refine hkept db hsame ?_
    unfold Db.entries_of
    rw [hentries]

/-- An execution that has persisted its logs did so before the step or in it. -/
theorem Serving.note_eq_true {slot : Nat} (h : s.note op slot = true) :
    s.persisted slot = true ∨ ∃ logs, op = .persist_decoded_logs slot logs := by
  unfold Serving.note at h
  cases op with
  | persist_decoded_logs slot' logs =>
    by_cases hslot : slot = slot'
    · exact Or.inr ⟨logs, by rw [hslot]⟩
    · exact Or.inl (by simpa only [Function.update_of_ne hslot] using h)
  | lease slot' =>
    by_cases hslot : slot = slot'
    · simp only [hslot, Function.update_self] at h
      cases h
    · exact Or.inl (by simpa only [Function.update_of_ne hslot] using h)
  | ensure_source | enqueue | mark_running | load_source | orphan_source_range
  | ingest_source_range | next_contiguous_checkpoint_target | advance_checkpoint
  | mark_succeeded | mark_failed | mark_interrupted_for_retry | crash => exact Or.inl h

/-- A step keeps what the executions have stored. A row that is stored stays, flagged
perhaps, and a slot is noted by the step that persists the logs of its job. -/
theorem Serving.Ingests.persisted_step (hvs : DistinctKeys vs)
    (hrows : fresh_rows parseAmount source.from_source history = .ok vs)
    (hwell : s.indexer.WellFormed) (hchained : s.indexer.Chained) (hnamed : s.indexer.Named source)
    (hs : s.Ingests parseAmount source history vs)
    (h : ServingStep parseAmount source.id history s op t) {slot : Nat} {e : Execution}
    (he : t.indexer.executions slot = some e) (hpersisted : t.persisted slot = true)
    (hsource : e.job.source_id = some source.id) :
    t.indexer.db.holds_logs parseAmount source (job_logs history e.job) := by
  obtain ⟨-, hwritten⟩ := h.within hvs hrows hwell hchained hnamed hs.within
  obtain ⟨hstep, -, hnote⟩ := h
  rw [hnote] at hpersisted
  rcases hstep.same_execution hwell he with hleased | ⟨old, hold, hjob⟩
  · -- an execution that has just leased its job has a new note
    obtain ⟨_, _, _, _, _, _, _, _, _, _, hop, -⟩ := hleased.candidate
    rw [hop] at hpersisted
    unfold Serving.note at hpersisted
    simp only [Function.update_self] at hpersisted
    cases hpersisted
  · rw [job_logs_congr history hjob]
    rw [hjob.source_id] at hsource
    rcases Serving.note_eq_true hpersisted with hbefore | ⟨logs, hop⟩
    · exact (hs.persisted slot old hold hbefore hsource).mono hstep.owned_keys
    · exact hwritten slot logs hop old hold hsource

/-- A job whose logs are held stays in the table, and its logs stay held. -/
theorem IndexerStep.job_stays_held {s t : Indexer} (h : IndexerStep parseAmount s op t) {job : JobRow}
    (hjob : job ∈ s.db.jobs.rows)
    (hlogs : job.source_id = some source.id →
      s.db.holds_logs parseAmount source (job_logs history job)) :
    ∃ new ∈ t.db.jobs.rows, new.id = job.id ∧ (new.source_id = some source.id →
      t.db.holds_logs parseAmount source (job_logs history new)) := by
  obtain ⟨new, hnew, hsame⟩ := h.effect.job_stays hjob
  refine ⟨new, hnew, hsame.id, fun hsource => ?_⟩
  rw [job_logs_congr history hsame]
  exact (hlogs (hsame.source_id.symm.trans hsource)).mono h.owned_keys

/-- A step keeps what the ingested jobs have stored. A job becomes ingested by the step that
notes it, and its logs were persisted by its execution before. -/
theorem Serving.Ingests.ingested_step (hwell : s.indexer.WellFormed)
    (hs : s.Ingests parseAmount source history vs)
    (h : ServingStep parseAmount source.id history s op t) {id : Uuid}
    (hid : id ∈ t.indexer.ingested) : ∃ job ∈ t.indexer.db.jobs.rows, job.id = id ∧
      (job.source_id = some source.id →
        t.indexer.db.holds_logs parseAmount source (job_logs history job)) := by
  obtain ⟨hstep, hserves, -⟩ := h
  have hbefore : id ∈ s.indexer.ingested → ∃ new ∈ t.indexer.db.jobs.rows, new.id = id ∧
      (new.source_id = some source.id →
        t.indexer.db.holds_logs parseAmount source (job_logs history new)) := by
    intro hid
    obtain ⟨job, hjob, rfl, hlogs⟩ := hs.ingested id hid
    exact hstep.job_stays_held hjob hlogs
  cases hstep.effect with
  | idle _ _ _ _ _ hingested | ensured _ _ _ _ hingested | enqueued _ _ _ _ _ _ hingested
  | leased _ _ _ _ _ _ _ hingested | running _ _ _ _ _ _ _ hingested
  | succeeded _ _ _ _ _ _ _ hingested | gave_up _ _ _ _ _ _ _ _ hingested
  | dropped _ _ _ _ _ _ hingested | moved _ _ _ _ _ _ _ hingested
  | advanced _ _ _ _ _ _ hingested =>
    rw [hingested] at hid
    exact hbefore hid
  | @ingested slot e _ hslot _ _ _ _ _ hingested =>
    rw [hingested] at hid
    rcases List.mem_cons.1 hid with rfl | hid
    · -- the execution has persisted the logs of its job by now
      obtain ⟨row, hrow, hrow_job⟩ := hwell.stored slot e hslot
      rw [← hrow_job.id]
      refine hstep.job_stays_held hrow fun hsource => ?_
      rw [hrow_job.source_id] at hsource
      rw [job_logs_congr history hrow_job]
      exact hs.persisted slot e hslot (hserves e hslot hsource) hsource
    · exact hbefore hid

/-- A step keeps what the system has ingested. -/
theorem Serving.Ingests.step (hvs : DistinctKeys vs)
    (hrows : fresh_rows parseAmount source.from_source history = .ok vs)
    (hwell : s.indexer.WellFormed) (hchained : s.indexer.Chained) (hnamed : s.indexer.Named source)
    (hs : s.Ingests parseAmount source history vs)
    (h : ServingStep parseAmount source.id history s op t) :
    t.Ingests parseAmount source history vs := by
  refine ⟨(h.within hvs hrows hwell hchained hnamed hs.within).1, ?_, ?_⟩
  · intro slot e he hpersisted hsource
    exact hs.persisted_step hvs hrows hwell hchained hnamed h he hpersisted hsource
  · intro id hid
    exact hs.ingested_step hwell h hid

variable (parseAmount source history) in
/-- What a run before one history of the source keeps: the state is well formed, the books
balance, and the system has ingested the history, whatever rows its logs make. A source of
another chain under the id is left out, since its rows would be others. -/
structure Serving.Sound (s : Serving) : Prop where
  wellFormed : s.indexer.WellFormed
  chained : s.indexer.Chained
  balanced : Balanced s.indexer.db
  ingests : ∀ vs, DistinctKeys vs → fresh_rows parseAmount source.from_source history = .ok vs →
    s.indexer.Named source → s.Ingests parseAmount source history vs

theorem ServingStep.sound (h : ServingStep parseAmount source.id history s op t)
    (hs : s.Sound parseAmount source history) : t.Sound parseAmount source history := by
  refine ⟨h.1.effect.wellFormed hs.wellFormed, h.1.chained hs.chained,
    h.1.keeps_ledger (balanced_ledgerInvariant parseAmount) hs.balanced, ?_⟩
  intro vs hvs hrows hnamed
  -- a source of another chain under the id would have it at the end too
  have hbefore := hnamed.of_step h.1
  exact (hs.ingests vs hvs hrows hbefore).step hvs hrows hs.wellFormed hs.chained hbefore h

/-- Where the source has no job and no entry, nothing of its history was ingested yet. -/
theorem CommandReachable.sound (h : CommandReachable parseAmount s.indexer)
    (huntouched : s.indexer.Untouched source.id)
    (hempty : ∀ r ∈ s.indexer.db.ledger_entries.rows, r.source_id ≠ source.id) :
    s.Sound parseAmount source history := by
  refine ⟨h.wellFormed, h.chained, h.ledger_invariant (balanced_ledgerInvariant parseAmount),
    fun vs _ _ _ => ⟨fun row hrow => ?_, fun slot e he _ hsource => ?_, fun id hid => ?_⟩⟩
  · obtain ⟨hrow, hmine⟩ := mem_entries_of.1 hrow
    exact absurd hmine (hempty row hrow)
  · exact absurd hsource (huntouched.executions h.wellFormed he)
  · obtain ⟨job, hjob, hjob_id⟩ := h.ingested_stored id hid
    exact ⟨job, hjob, hjob_id, fun hsource => absurd hsource (huntouched job hjob)⟩

/-- What holds in every state the system reaches before one history. -/
theorem ServingReachable.sound (h : ServingReachable parseAmount source.id history s) :
    s.Sound parseAmount source history := by
  refine Reachable.invariant (fun s hs => ?_) (fun _ _ _ hs hstep => hstep.sound hs) h
  have hstart : CommandReachable parseAmount s.indexer := ⟨s.indexer, [], hs, Run.nil⟩
  refine hstart.sound (fun job hjob => ?_) (fun row hrow => ?_)
  · rw [hs.1] at hjob
    cases hjob
  · rw [hs.1] at hrow
    cases hrow

/-- The contents of the entries of a source are distinct. -/
theorem contents_nodup (db : Db) (source_id : Uuid) :
    ((db.entries_of source_id).map LedgerEntryRow.content).Nodup := by
  refine List.Nodup.map_on ?_ (db.ledger_entries.nodup.filter _)
  intro a ha b hb hcontent
  have hkey : a.owned_key = b.owned_key := by
    rw [← content_owned_key a, hcontent, content_owned_key]
  refine db.ledger_entries.eq_of_clash (mem_entries_of.1 ha).1 (mem_entries_of.1 hb).1
    (Or.inr ⟨?_, ?_, ?_, ?_⟩)
  · exact congrArg OwnedKey.chain_id hkey
  · exact congrArg OwnedKey.transaction_hash hkey
  · exact congrArg OwnedKey.log_index hkey
  · exact congrArg OwnedKey.batch_index hkey

/-- Where the logs are held, every row of the history is the content of an entry. -/
theorem Db.within.complete {db : Db} {flags : Prop} (hvs : DistinctKeys vs)
    (hrows : fresh_rows parseAmount source.from_source history = .ok vs)
    (hwithin : db.within source vs flags)
    (hheld : ∀ log ∈ history, ∃ logs, log ∈ logs ∧ db.holds_logs parseAmount source logs) :
    vs ⊆ (db.entries_of source.id).map LedgerEntryRow.content := by
  intro v hv
  obtain ⟨entry, hentry, hvalues⟩ := exists_of_mapM_eq_ok hrows hv
  obtain ⟨log, hlog, hmem⟩ := List.mem_flatMap.1 hentry
  obtain ⟨logs, hin, hlogs⟩ := hheld log hlog
  obtain ⟨row, hrow, hkey⟩ :=
    List.mem_map.1 (hlogs entry (List.mem_flatMap.2 ⟨log, hin, hmem⟩) v hvalues)
  have hmine : row.source_id = source.id :=
    (congrArg OwnedKey.source_id hkey).trans (new_ledger_entry_row_key hvalues).1
  have hentry_of := mem_entries_of.2 ⟨hrow, hmine⟩
  have hsame : row.content = v :=
    hvs.eq_of_owned_key (hwithin row hentry_of).1 hv ((content_owned_key row).trans hkey)
  rw [← hsame]
  exact List.mem_map_of_mem hentry_of

/-- Where no entry of a source is flagged, its active entries are all of them. -/
theorem active_entries_eq_entries_of {db : Db} {source_id : Uuid}
    (h : ∀ row ∈ db.entries_of source_id, row.orphaned = false) :
    (db.active_entries source_id).map LedgerEntryRow.forget_ids
      = (db.entries_of source_id).map LedgerEntryRow.content := by
  have hactive : db.active_entries source_id = db.entries_of source_id := by
    unfold Db.active_entries Db.entries_of
    refine List.filter_congr fun row hrow => ?_
    cases hid : row.source_id == source_id with
    | false => rfl
    | true =>
      rw [h row (List.mem_filter.2 ⟨hrow, hid⟩)]
      rfl
  rw [hactive]
  exact List.map_congr_left fun row hrow => (content_of_active (h row hrow)).symm

/-- A source nets to what its entries net to, identifiers apart. -/
theorem net_of_forget_ids (db : Db) (source_id : Uuid) (a : Account) : db.net source_id a
    = net (((db.active_entries source_id).map LedgerEntryRow.forget_ids).map (·.movement)) a := by
  unfold Db.net
  rw [List.map_map]
  rfl

section Scan

variable {parseAmount : AmountParser} {source : SourceRow} {history : List (RpcLog × DecodedLog)}
  {s : Serving} {db final : Db} {options : PersistDecodedLogsOptions} {summary : ScanSummary}

/-- What such a state has ingested, as rows of the one scan. -/
theorem Serving.Sound.ingests_scan (hdistinct : DistinctStored history)
    (h : s.Sound parseAmount source history)
    (hsource : source ∈ s.indexer.db.sources.rows)
    (hempty : ∀ r ∈ db.ledger_entries.rows, r.source_id ≠ source.id)
    (hscan : persist_decoded_logs_with_options parseAmount db source.from_source history options
      = .ok (summary, final)) :
    ∃ vs, DistinctKeys vs ∧ fresh_rows parseAmount source.from_source history = .ok vs ∧
      (final.active_entries source.id).map LedgerEntryRow.forget_ids = vs ∧
      s.Ingests parseAmount source history vs := by
  obtain ⟨vs, hingestible⟩ := ingestible_of_persisted hempty hdistinct hscan
  have hfinal : (final.active_entries source.id).map LedgerEntryRow.forget_ids = vs :=
    hingestible.active_entries hempty (persist_decoded_logs_iff.1 ⟨summary, hscan⟩).2
  have hnamed : s.indexer.Named source := fun row hrow hid =>
    congrArg SourceRow.chain_id (s.indexer.db.sources.eq_of_clash hrow hsource (Or.inl hid))
  exact ⟨vs, hingestible.distinct, hingestible.rows, hfinal,
    h.ingests vs hingestible.distinct hingestible.rows hnamed⟩

/-- The entries of the source are at every moment rows that the scan leaves, none twice. -/
theorem Serving.Sound.entries_subperm (hdistinct : DistinctStored history)
    (h : s.Sound parseAmount source history)
    (hsource : source ∈ s.indexer.db.sources.rows)
    (hempty : ∀ r ∈ db.ledger_entries.rows, r.source_id ≠ source.id)
    (hscan : persist_decoded_logs_with_options parseAmount db source.from_source history options
      = .ok (summary, final)) :
    ((s.indexer.db.entries_of source.id).map LedgerEntryRow.content).Subperm
      ((final.active_entries source.id).map LedgerEntryRow.forget_ids) := by
  obtain ⟨vs, -, -, rfl, hs⟩ := h.ingests_scan hdistinct hsource hempty hscan
  refine List.subperm_of_subset (contents_nodup s.indexer.db source.id) fun content hcontent => ?_
  obtain ⟨row, hrow, rfl⟩ := List.mem_map.1 hcontent
  exact (hs.within row hrow).1

/-- Where succeeded jobs cover the history and no row is flagged, they are all of them. -/
theorem Serving.Sound.same_ingested (hdistinct : DistinctStored history)
    (h : s.Sound parseAmount source history)
    (hsource : source ∈ s.indexer.db.sources.rows) (hdb : LedgerReachable parseAmount db)
    (hempty : ∀ r ∈ db.ledger_entries.rows, r.source_id ≠ source.id)
    (hscan : persist_decoded_logs_with_options parseAmount db source.from_source history options
      = .ok (summary, final))
    (hcovered : ∀ log ∈ history, ∃ job ∈ s.indexer.db.jobs.rows, job.status = .Succeeded ∧
      job.source_id = some source.id ∧ log ∈ job_logs history job)
    (hsettled : ¬ s.indexer.db.has_replays source.id ∨
      ∀ row ∈ s.indexer.db.entries_of source.id, row.orphaned = false) :
    SameIngested source.id final s.indexer.db := by
  have hsubperm := h.entries_subperm hdistinct hsource hempty hscan
  obtain ⟨vs, hdistinct_vs, hrows, hfinal, hs⟩ :=
    h.ingests_scan hdistinct hsource hempty hscan
  rw [hfinal] at hsubperm
  have hunflagged : ∀ row ∈ s.indexer.db.entries_of source.id, row.orphaned = false := by
    rcases hsettled with hnone | hunflagged
    · intro row hrow
      by_contra hflag
      exact hnone ((hs.within row hrow).2 (Bool.not_eq_false _ ▸ hflag))
    · exact hunflagged
  -- each log was persisted by the job it is covered by
  have hall := hs.within.complete hdistinct_vs hrows fun log hlog => by
    obtain ⟨job, hjob, hstatus, hjob_source, hin⟩ := hcovered log hlog
    obtain ⟨found, hfound, hid, hlogs⟩ := hs.ingested job.id (h.wellFormed.succeeded job hjob hstatus)
    obtain rfl := job_eq_of_id s.indexer.db hfound hjob hid
    exact ⟨job_logs history found, hin, hlogs hjob_source⟩
  have hvs_nodup : vs.Nodup := hdistinct_vs.imp fun {a b} hab heq => by
    rw [heq] at hab
    exact hab (same_entry_refl b)
  have hperm : ((s.indexer.db.active_entries source.id).map LedgerEntryRow.forget_ids).Perm vs := by
    rw [active_entries_eq_entries_of hunflagged]
    exact hsubperm.antisymm (List.subperm_of_subset hvs_nodup hall)
  refine ⟨hfinal ▸ hperm, fun a => ?_⟩
  have happly : LedgerOp.apply parseAmount db
      (.persist_decoded_logs_with_options source.from_source history options) = .ok final :=
    map_snd_eq_ok.2 ⟨summary, hscan⟩
  have hfinal_balanced : Balanced final := (hdb.of_apply happly).balanced
  calc s.indexer.db.balance source.id a
      = net (((s.indexer.db.active_entries source.id).map LedgerEntryRow.forget_ids).map
          (·.movement)) a := by rw [h.balanced, net_of_forget_ids]
    _ = net (vs.map (·.movement)) a := net_perm (hperm.map _) a
    _ = final.balance source.id a := by rw [hfinal_balanced, net_of_forget_ids, hfinal]

end Scan

/-- Before a chain that has one history of a source, the entries of the source are at every
moment rows that persisting the history in one go leaves, none of them twice. Once every log is
in the range of a job that has succeeded, and no row is flagged or no job replays, they are all
of those rows, and the balances are the same. -/
theorem workers_ingest_exactly_once {parseAmount : AmountParser} {source : SourceRow}
    {history : List (RpcLog × DecodedLog)} (hdistinct : DistinctStored history) {s : Serving}
    (h : ServingReachable parseAmount source.id history s)
    (hsource : source ∈ s.indexer.db.sources.rows) {db final : Db}
    (hdb : LedgerReachable parseAmount db)
    (hempty : ∀ r ∈ db.ledger_entries.rows, r.source_id ≠ source.id)
    {options : PersistDecodedLogsOptions} {summary : ScanSummary}
    (hscan : persist_decoded_logs_with_options parseAmount db source.from_source history options
      = .ok (summary, final)) :
    (((s.indexer.db.entries_of source.id).map LedgerEntryRow.content).Subperm
      ((final.active_entries source.id).map LedgerEntryRow.forget_ids)) ∧
    ((∀ log ∈ history, ∃ job ∈ s.indexer.db.jobs.rows, job.status = .Succeeded ∧
        job.source_id = some source.id ∧ log ∈ job_logs history job) →
      (¬ s.indexer.db.has_replays source.id ∨
        ∀ row ∈ s.indexer.db.entries_of source.id, row.orphaned = false) →
      SameIngested source.id final s.indexer.db) := by
  exact ⟨h.sound.entries_subperm hdistinct hsource hempty hscan, fun hcovered hsettled =>
    h.sound.same_ingested hdistinct hsource hdb hempty hscan hcovered hsettled⟩

end Ingests

/-! ## Two workers, the later range first -/

instance (source_id : Uuid) (history : List (RpcLog × DecodedLog)) (s : Serving) :
    DecidablePred (s.serves source_id history)
  | .persist_decoded_logs slot logs => inferInstanceAs (Decidable (∀ e ∈ s.indexer.executions slot,
      e.job.source_id = some source_id → logs.Perm (job_logs history e.job)))
  | .ingest_source_range slot => inferInstanceAs (Decidable (∀ e ∈ s.indexer.executions slot,
      e.job.source_id = some source_id → s.persisted slot = true))
  | .ensure_source .. | .enqueue .. | .lease .. | .mark_running .. | .load_source ..
  | .orphan_source_range .. | .next_contiguous_checkpoint_target .. | .advance_checkpoint ..
  | .mark_succeeded .. | .mark_failed .. | .mark_interrupted_for_retry .. | .crash .. =>
    isTrue trivial

/-- The state after a step, or the same indexer where the step is not possible. -/
def Serving.next (s : Serving) (op : IndexerOp) : Serving :=
  { indexer := s.indexer.next plain_digits op, persisted := s.note op }

def Serving.start : Serving := { indexer := Indexer.empty, persisted := fun _ => false }

/-- A worker takes an ingest job up to where it asks for the logs. -/
def take_in (slot : Nat) (worker_id : String) : List IndexerOp :=
  [.lease slot worker_id 60 false none (fun _ => false) 0 0, .mark_running slot 0,
   .load_source slot 200]

/-- Blocks 1 and 2 are jobs of two workers, and the worker of block 2 returns first. -/
def two_workers : List IndexerOp :=
  [ensure_token 0, .enqueue .Backfill 0 1 1 5 0, .enqueue .Backfill 0 2 2 5 1]
    ++ take_in 0 "a" ++ take_in 1 "b"
    ++ [.persist_decoded_logs 0 (mint_then_transfer.take 1),
        .persist_decoded_logs 1 (mint_then_transfer.drop 1), .ingest_source_range 1,
        .ingest_source_range 0, .next_contiguous_checkpoint_target 1,
        .next_contiguous_checkpoint_target 0, .mark_succeeded 1 0, .mark_succeeded 0 0]

theorem two_workers_serve :
    ServingReachable plain_digits small_source.id mint_then_transfer
      (two_workers.foldl Serving.next Serving.start) := by
  have hallowed : Allowed Serving.next (fun s op => (s.indexer.exec plain_digits op).isSome &&
      decide (s.serves small_source.id mint_then_transfer op)) Serving.start two_workers = true := by
    decide +kernel
  refine ⟨Serving.start, two_workers, Indexer.empty_initial,
    Run.of_allowed (fun s op hop => ?_) hallowed⟩
  rw [Bool.and_eq_true, Option.isSome_iff_exists, decide_eq_true_eq] at hop
  obtain ⟨⟨u, hu⟩, hserves⟩ := hop
  have hnext : s.indexer.next plain_digits op = u := by
    unfold Indexer.next
    rw [hu, Option.getD_some]
  refine ⟨⟨u, hu, ?_, ?_, ?_⟩, hserves, rfl⟩
  · unfold Serving.next
    rw [hnext]
    exact Db.SameRows.refl u.db
  · exact congrArg Indexer.executions hnext
  · exact congrArg Indexer.ingested hnext

theorem workers_ingest_exactly_once_two_workers :
    ∃ final, SameIngested small_source.id final
      (two_workers.foldl Serving.next Serving.start).indexer.db := by
  obtain ⟨summary, final, hscan⟩ := mint_then_transfer_ingests
  have hdistinct : DistinctStored mint_then_transfer := ⟨by decide +kernel, by decide +kernel⟩
  have hsource : small_source ∈
      (two_workers.foldl Serving.next Serving.start).indexer.db.sources.rows := by decide +kernel
  obtain ⟨-, hall⟩ := workers_ingest_exactly_once hdistinct two_workers_serve hsource
    (LedgerReachable.empty.commits _) (by decide +kernel) hscan
  exact ⟨final, hall (by decide +kernel) (Or.inr (by decide +kernel))⟩

end EvmIndexer
