/-
Persisting the same logs again.

A run of `persist_decoded_logs_with_options` settles what it stores: under the key of
every log and every entry there is then a row that storing the same values leaves
alone, whatever was there before the run and whichever way the option was. A second
run therefore replaces each row by itself, and the deltas of replacing a row by itself
are zero on every account.

Zero deltas are applied without a check that could fail: the balance they leave is one
the row holds already. They do move the two block columns, which the comparison leaves
out (`TokenBalanceRow.forget_blocks`).
-/
import EvmIndexer.Orphan
import EvmIndexer.Stored

set_option autoImplicit false

namespace EvmIndexer

open Sql

/-! ## What stays

The comparison leaves out the two block columns of a balance, which an application of zero
deltas writes again, and nothing else: rows are compared with their identifiers.
-/

/-- A balance row without the two columns that say in which blocks it moved. -/
def TokenBalanceRow.forget_blocks (row : TokenBalanceRow) : TokenBalanceRow :=
  { row with first_received_block := none, last_moved_block := none }

/-- Events and entries are as they were, and so are the balances but for the blocks. -/
structure Unmoved (db db' : Db) : Prop where
  sources : db'.sources = db.sources
  events : db'.events = db.events
  ledger_entries : db'.ledger_entries = db.ledger_entries
  balances : db'.token_balances.rows.map TokenBalanceRow.forget_blocks
    = db.token_balances.rows.map TokenBalanceRow.forget_blocks

theorem Unmoved.refl (db : Db) : Unmoved db db := ⟨rfl, rfl, rfl, rfl⟩

theorem Unmoved.trans {a b c : Db} (h : Unmoved a b) (k : Unmoved b c) : Unmoved a c :=
  ⟨k.sources.trans h.sources, k.events.trans h.events, k.ledger_entries.trans h.ledger_entries,
    k.balances.trans h.balances⟩

/-- A loop of turns that move nothing, wherever nothing has moved, moves nothing. -/
theorem foldlM_unmoved {α : Type} {f : Db → α → Result Db} {l : List α} (db : Db)
    (hstep : ∀ x ∈ l, ∀ s, Unmoved db s → ∃ t, f s x = .ok t ∧ Unmoved s t) :
    ∃ db', l.foldlM f db = .ok db' ∧ Unmoved db db' := by
  have hloop : ∀ s, Unmoved db s → ∃ t, l.foldlM f s = .ok t ∧ Unmoved s t := by
    induction l with
    | nil => exact fun s _ => ⟨s, rfl, Unmoved.refl s⟩
    | cons x rest ih =>
      intro s hs
      obtain ⟨mid, hmid, hunmoved⟩ := hstep x (List.mem_cons_self ..) s hs
      obtain ⟨t, ht, hrest⟩ := ih (fun y hy => hstep y (List.mem_cons_of_mem _ hy)) mid
        (hs.trans hunmoved)
      refine ⟨t, ?_, hunmoved.trans hrest⟩
      rw [List.foldlM_cons, bind_eq_ok]
      exact ⟨mid, hmid, ht⟩
  exact hloop db (Unmoved.refl db)

/-! ## Zero deltas

The delta of an account is zero where what a row takes back is what it brings. A zero delta
is added to the balance that is there, and for an account without a row nothing is inserted,
so it cannot fail on a balance.
-/

/-- A delta of zero is applied to any balance, and moves none. -/
theorem apply_zero_delta (db : Db) (source : SourceRef) (key : Account) {delta : BalanceDelta}
    (hzero : delta.balance_delta = 0) (hblocks : delta.BlocksFit) :
    ∃ db', apply_holder_balance_delta db source key.1 key.2 delta = .ok db' ∧ Unmoved db db' := by
  have hfits := balance_fits db source.id key
  unfold Db.balance at hfits
  unfold apply_holder_balance_delta
  simp only [bail_eq_ok, hzero, add_zero]
  cases hfind : db.token_balances.rows.find? (TokenBalanceRow.of_holder source.id key.1 key.2) with
  -- no balance is stored: a zero one is not inserted either
  | none => exact ⟨db, ⟨by simp, by simp⟩, Unmoved.refl db⟩
  | some old =>
    rw [hfind] at hfits
    have hold := db.token_balances.checked old (List.mem_of_find?_eq_some hfind)
    -- the row is written again with its balance, and with blocks its checks let through
    let set (r : TokenBalanceRow) : TokenBalanceRow :=
      { r with
        balance := old.balance
        first_received_block := min_optional_block old.first_received_block
          delta.first_received_block
        last_moved_block := max_optional_block old.last_moved_block delta.last_moved_block }
    obtain ⟨token_balances, hupdate⟩ : ∃ token_balances, db.token_balances.update
        (fun r => r.id == old.id) set (fun _ _ => Iff.rfl) = some token_balances :=
      Table.exists_update fun r hr _ =>
        ⟨(db.token_balances.checked r hr).1, hfits.1, hfits.2,
          nullOrNonneg_min hold.2.2.2.1 hblocks.1, nullOrNonneg_max hold.2.2.2.2 hblocks.2⟩
    refine ⟨{ db with token_balances }, ⟨not_lt.2 hfits.1, ?_⟩, rfl, rfl, rfl, ?_⟩
    · simp only [Option.map_some, Option.getD_some, Option.bind_some]
      rw [hupdate]
      rfl
    · rw [(Table.update_eq_some.1 hupdate).2, List.map_map]
      refine List.map_congr_left fun r hr => ?_
      simp only [Function.comp_apply, Table.setRow]
      split
      · rename_i hid
        have heq : r = old := db.token_balances.eq_of_clash hr (List.mem_of_find?_eq_some hfind)
          (Or.inl (beq_iff_eq.1 hid))
        rw [heq]
        rfl
      · rfl

/-- Replacing an entry by itself moves no balance. -/
theorem apply_balance_delta_same (db : Db) (source : SourceRef) {row : LedgerEntryRow}
    (hblock : 0 ≤ row.block_number) :
    ∃ db', apply_balance_delta db source (some row) row = .ok db' ∧ Unmoved db db' := by
  obtain ⟨hkeys, hblocks⟩ := balance_deltas_fit (some row) (fun _ => hblock)
  have hperm := List.perm_insertionSort holder_token_le (balance_deltas (some row) row)
  refine foldlM_unmoved db fun d hd s _ => ?_
  have hmem := hperm.mem_iff.1 hd
  have hzero : d.2.balance_delta = 0 := by
    rw [← worth_of_mem hkeys hmem, balance_deltas_worth, Option.map_some, Option.getD_some, sub_self]
  exact apply_zero_delta s source d.1 hzero (hblocks d hmem)

/-! ## Settled logs

A log is settled if storing it would write what is stored. That is a property of the tables
alone, whoever stored the rows, and it is the hypothesis under which a turn of the loop goes
through and leaves no trace.
-/

section Settled

variable (parseAmount : AmountParser) (source : SourceRef) (options : PersistDecodedLogsOptions)

/-- Storing the log's event leaves the events alone. -/
def SettledEvent (db : Db) (log : RpcLog × DecodedLog) : Prop :=
  ∃ values, new_event_row 0 source log.1 log.2 = .ok values ∧ Schema.Check values ∧
    Upsert.Settled (event_rule options) db.events.rows values

/-- Storing the entry leaves the entries alone, and what is stored under its key
belongs to the source. -/
def SettledEntry (db : Db) (entry : RpcLog × DecodedLedgerEntry) : Prop :=
  ∃ values, new_ledger_entry_row parseAmount 0 source entry.1 0 entry.2 = .ok values ∧
    Schema.Check values ∧ ∃ old ∈ db.ledger_entries.rows, values.same_entry old = true ∧
      values.stored options old = old ∧ old.source_id = source.id

/-- Storing the log and its entries leaves both tables alone. -/
structure SettledLog (db : Db) (log : RpcLog × DecodedLog) : Prop where
  event : SettledEvent source options db log
  entries : ∀ entry ∈ log.2.entries, SettledEntry parseAmount source options db (log.1, entry)

variable {parseAmount source options}

theorem SettledLog.of_unmoved {db db' : Db} (h : Unmoved db db') {log : RpcLog × DecodedLog}
    (hlog : SettledLog parseAmount source options db log) :
    SettledLog parseAmount source options db' log := by
  obtain ⟨hevent, hentries⟩ := hlog
  unfold SettledEvent SettledEntry at *
  rw [← h.events] at hevent
  simp only [← h.ledger_entries] at hentries
  exact ⟨hevent, hentries⟩

/-- Identifiers only go into the identifiers of a proposed event. -/
theorem new_event_row_id (id : Uuid) {log : RpcLog} {decoded : DecodedLog} {values : EventRow}
    (h : new_event_row 0 source log decoded = .ok values) :
    new_event_row id source log decoded = .ok { values with id } := by
  unfold new_event_row at h ⊢
  simp only [bind_eq_ok] at h ⊢
  obtain ⟨block_number, hblock, transaction_index, htx, log_index, hlog, hv⟩ := h
  refine ⟨block_number, hblock, transaction_index, htx, log_index, hlog, ?_⟩
  rw [← Except.ok.inj hv]

/-- Identifiers only go into the identifiers of a proposed entry. -/
theorem new_ledger_entry_row_ids (id event_id : Uuid) {log : RpcLog} {entry : DecodedLedgerEntry}
    {values : LedgerEntryRow}
    (h : new_ledger_entry_row parseAmount 0 source log 0 entry = .ok values) :
    new_ledger_entry_row parseAmount id source log event_id entry
      = .ok { values with id, event_id } := by
  unfold new_ledger_entry_row at h ⊢
  simp only [bind_eq_ok] at h ⊢
  obtain ⟨amount, hamount, block_number, hblock, transaction_index, htx, log_index, hlog, hv⟩ := h
  refine ⟨amount, hamount, block_number, hblock, transaction_index, htx, log_index, hlog, ?_⟩
  rw [← Except.ok.inj hv]

/-- A settled event is upserted without a trace. -/
theorem upsert_event_again {db : Db} {log : RpcLog × DecodedLog}
    (h : SettledEvent source options db log) :
    ∃ event_id db', upsert_event db source log.1 log.2 options = .ok (event_id, db') ∧
      Unmoved db db' := by
  obtain ⟨values, hvalues, hcheck, old, hold, hsame, hmerge⟩ := h
  have hnew := new_event_row_id db.next_uuid hvalues
  have hfind := (events_apart options db).find? hold hsame
  obtain ⟨event_id, db', hupsert⟩ := upsert_event_succeeds options hnew hcheck
    (fun hnone => by
      have hnone' : db.events.rows.find? ((event_rule options).same values) = none := hnone
      rw [hfind] at hnone'
      cases hnone')
  refine ⟨event_id, db', hupsert, ?_⟩
  obtain ⟨proposed, hproposed, -, hframe, -, hrows⟩ := upsert_event_spec hupsert
  rw [hnew] at hproposed
  cases hproposed
  have hsettled : db'.events.rows = db.events.rows := by
    rw [hrows]
    exact Upsert.store_eq_self (events_apart options db) hold hsame hmerge
  refine ⟨by rw [hframe], Table.ext hsettled, by rw [hframe], by rw [hframe]⟩

/-- A settled entry is persisted without a trace but for the blocks of its balances. -/
theorem persist_entry_again {db : Db} {log : RpcLog} {event_id : Uuid} {entry : DecodedLedgerEntry}
    (h : SettledEntry parseAmount source options db (log, entry)) :
    ∃ db', persist_entry parseAmount source log event_id options db entry = .ok db' ∧
      Unmoved db db' := by
  obtain ⟨values, hvalues, hcheck, old, hold, hsame, hmerge, hmine⟩ := h
  have hnew := new_ledger_entry_row_ids db.next_uuid event_id hvalues
  have hfind : db.ledger_entries.rows.find? values.same_entry = some old :=
    find?_same_entry db hold hsame
  have hlock := lock_existing_of_values db hvalues
  rw [hfind] at hlock
  obtain ⟨row, mid, hupsert⟩ := upsert_ledger_entry_succeeds options hnew hcheck
    (fun hnone => by
      have hnone' : db.ledger_entries.rows.find? values.same_entry = none := hnone
      rw [hfind] at hnone'
      cases hnone')
  obtain ⟨proposed, ledger_entries, hproposed, -, hmid, -, hrows⟩ :=
    upsert_ledger_entry_spec hlock hupsert
  rw [hnew] at hproposed
  cases hproposed
  -- the upsert finds `old` and replaces it by itself
  have hsettled : row = old ∧ Unmoved db mid := by
    rcases hrows with ⟨hnone, -, -⟩ | ⟨found, hfound, -, -, hrow, hrows⟩
    · cases hnone
    · cases hfound
      have hrow' : row = old := hrow.trans hmerge
      rw [hrow'] at hrows
      refine ⟨hrow', by rw [hmid], by rw [hmid], ?_, by rw [hmid]⟩
      rw [hmid]
      exact Table.ext (hrows.trans (replaceRow_self old _))
  obtain ⟨rfl, hunmoved⟩ := hsettled
  obtain ⟨db', happly, hbalances⟩ := apply_balance_delta_same mid source
    (db.ledger_entries.checked row hold).2.2.2.2.1
  refine ⟨db', ?_, hunmoved.trans hbalances⟩
  unfold persist_entry
  rw [hlock]
  simp only [bind_eq_ok, bail_eq_ok, Except.ok.injEq, exists_eq_left', hupsert]
  exact ⟨by simp [hmine], happly⟩

/-- A settled log is persisted without a trace but for the blocks of its balances. -/
theorem persist_log_again {db : Db} {log : RpcLog × DecodedLog}
    (h : SettledLog parseAmount source options db log) :
    ∃ db', persist_log parseAmount source options db log = .ok db' ∧ Unmoved db db' := by
  obtain ⟨event_id, mid, hevent, hmid⟩ := upsert_event_again h.event
  obtain ⟨db', hentries, hdb'⟩ := foldlM_unmoved mid
    (l := log.2.entries) (f := persist_entry parseAmount source log.1 event_id options) (fun entry hentry s hs =>
      persist_entry_again ((h.of_unmoved (hmid.trans hs)).entries entry hentry))
  refine ⟨db', ?_, hmid.trans hdb'⟩
  unfold persist_log
  rw [bind_eq_ok]
  exact ⟨(event_id, mid), hevent, hentries⟩

/-! ## A run settles its logs

In the second run every turn finds its log settled, since the turns before it moved nothing.
That the logs are settled after the first run is where they have to have keys of their own:
the second log under one key would unsettle the first.
-/

/-- Whatever a run of logs with keys of their own stored, it settled. -/
theorem persist_settles {logs : List (RpcLog × DecodedLog)} (hdistinct : DistinctStored logs)
    {db db' : Db} {summary : ScanSummary}
    (h : persist_decoded_logs_with_options parseAmount db source logs options
      = .ok (summary, db')) :
    ∀ log ∈ logs, SettledLog parseAmount source options db' log := by
  obtain ⟨⟨es, hes, hevents, hevent_rows⟩, vs, hvs, hentries, hstored⟩ :=
    persist_decoded_logs_stores h
  intro log hlog
  constructor
  · obtain ⟨e', he', hvalues⟩ := exists_result_of_mapM hevents hlog
    obtain ⟨e, he, rfl⟩ := List.mem_map.1 he'
    have hapart : Upsert.Apart (event_rule options) es := fresh_events_apart hdistinct hevents
    have hsettled := Upsert.settled_storeAll db.events.rows hapart
      (fun e he => EventRow.stored_self (hes e he).2.1 (hes e he).2.2)
      (fun e _ old => EventRow.stored_stored options e old) e he
    rw [← hevent_rows] at hsettled
    exact ⟨e.forget_id, hvalues, (hes e he).1, hsettled⟩
  · intro entry hentry
    have hmem : (log.1, entry) ∈ log_entries logs :=
      List.mem_flatMap.2 ⟨log, hlog, List.mem_map_of_mem hentry⟩
    obtain ⟨v', hv', hvalues⟩ := exists_result_of_mapM hentries hmem
    obtain ⟨v, hv, rfl⟩ := List.mem_map.1 hv'
    obtain ⟨hold, hmine⟩ := hstored.touched_mem (fresh_rows_distinct hdistinct hentries) hv
    obtain ⟨values, hchecked, hcheck⟩ := persist_decoded_logs_checked h hlog hentry
    rw [hvalues] at hchecked
    cases hchecked
    refine ⟨v.forget_ids, hvalues, hcheck, _, hold,
      touched_same_entry options db.ledger_entries.rows v, ?_⟩
    -- what is under the key is the new row, or the old one as it was stored over
    unfold touched
    cases hfind : db.ledger_entries.rows.find? v.same_entry with
    | none => exact ⟨LedgerEntryRow.stored_self (hvs v hv).2.2, (hvs v hv).1⟩
    | some old =>
      refine ⟨LedgerEntryRow.stored_stored options v old, ?_⟩
      simp only [LedgerEntryRow.stored_source_id]
      exact hmine old hfind

theorem SettledLog.of_sameRows {db db' : Db} (h : db.SameRows db') {log : RpcLog × DecodedLog}
    (hlog : SettledLog parseAmount source options db log) :
    SettledLog parseAmount source options db' log := by
  constructor
  · obtain ⟨values, hvalues, hcheck, old, hold, hsettled⟩ := hlog.event
    exact ⟨values, hvalues, hcheck, old, h.events.mem_iff.1 hold, hsettled⟩
  · intro entry hentry
    obtain ⟨values, hvalues, hcheck, old, hold, hsettled⟩ := hlog.entries entry hentry
    exact ⟨values, hvalues, hcheck, old, h.ledger_entries.mem_iff.1 hold, hsettled⟩

end Settled

/-- A committed run of logs with keys of their own commits again, in whatever order
the rows have come to be stored, and leaves every event, every ledger entry and, but
for the block columns, every balance row as it was. -/
theorem reingestion_is_idempotent {parseAmount : AmountParser} {source : SourceRef}
    {options : PersistDecodedLogsOptions} {logs : List (RpcLog × DecodedLog)}
    (hdistinct : DistinctStored logs) {db db₁ db₂ : Db} {summary : ScanSummary}
    (hpersist : persist_decoded_logs_with_options parseAmount db source logs options
      = .ok (summary, db₁)) (horder : db₁.SameRows db₂) :
    ∃ summary' db₃, persist_decoded_logs_with_options parseAmount db₂ source logs options
        = .ok (summary', db₃) ∧
      db₃.events.rows.Perm db₁.events.rows ∧
      db₃.ledger_entries.rows.Perm db₁.ledger_entries.rows ∧
      (db₃.token_balances.rows.map TokenBalanceRow.forget_blocks).Perm
        (db₁.token_balances.rows.map TokenBalanceRow.forget_blocks) := by
  -- after the first run each log finds its rows as it would write them
  have hsettled := persist_settles hdistinct hpersist
  obtain ⟨db₃, hlogs, hunmoved⟩ := foldlM_unmoved db₂ (l := logs)
    (f := persist_log parseAmount source options) (fun log hlog s hs =>
      persist_log_again (((hsettled log hlog).of_sameRows horder).of_unmoved hs))
  -- the second call finds the source, which the first has not touched
  obtain ⟨⟨row, hrow, hid⟩, -⟩ := persist_decoded_logs_iff.1 ⟨summary, hpersist⟩
  rw [← persist_decoded_logs_sources hpersist] at hrow
  obtain ⟨summary', hagain⟩ := persist_decoded_logs_iff.2
    ⟨⟨row, horder.sources.mem_iff.1 hrow, hid⟩, hlogs⟩
  refine ⟨summary', db₃, hagain, ?_, ?_, ?_⟩
  · rw [hunmoved.events]
    exact horder.events.symm
  · rw [hunmoved.ledger_entries]
    exact horder.ledger_entries.symm
  · rw [hunmoved.balances]
    exact (horder.token_balances.map _).symm

theorem reingestion_is_idempotent_mint_then_transfer :
    ∃ summary db₁ summary' db₃,
      persist_decoded_logs_with_options plain_digits
          ((small_ledger []).foldl (LedgerOp.commit plain_digits) Db.empty)
          small_source.from_source mint_then_transfer { restore_orphaned_conflicts := false }
        = .ok (summary, db₁) ∧
      persist_decoded_logs_with_options plain_digits db₁ small_source.from_source
          mint_then_transfer { restore_orphaned_conflicts := false } = .ok (summary', db₃) ∧
      db₃.events.rows.Perm db₁.events.rows ∧
      db₃.ledger_entries.rows.Perm db₁.ledger_entries.rows ∧
      (db₃.token_balances.rows.map TokenBalanceRow.forget_blocks).Perm
        (db₁.token_balances.rows.map TokenBalanceRow.forget_blocks) := by
  obtain ⟨⟨summary, db₁⟩, hpersist⟩ := exists_ok_of_isOk
    (r := persist_decoded_logs_with_options plain_digits
      ((small_ledger []).foldl (LedgerOp.commit plain_digits) Db.empty) small_source.from_source
      mint_then_transfer { restore_orphaned_conflicts := false }) (by decide +kernel)
  have hdistinct : DistinctStored mint_then_transfer := ⟨by decide +kernel, by decide +kernel⟩
  obtain ⟨summary', db₃, hagain, hrows⟩ :=
    reingestion_is_idempotent hdistinct hpersist (Db.SameRows.refl db₁)
  exact ⟨summary, db₁, summary', db₃, hpersist, hagain, hrows⟩

end EvmIndexer
