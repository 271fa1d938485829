/-
Sources do not touch each other's rows.

All sources share the tables, and the keys rows are upserted by (chain, transaction, log and
batch index) do not name a source. `persist_decoded_logs_with_options` refuses an entry whose
row belongs to another source; nothing refuses an event. So a run of calls for other sources
leaves a source's entries and balances as they were, whatever the logs. Its events it leaves
too if every log that was ever persisted has an entry of batch index 0, since then the row of
that entry guards the event (`Guards`). A decoded log has one if it has any entry
(`decode_log_first_entry`). A log without entries, an empty batch, passes the guard and takes
over the event of another source (`empty_batch_overwrites`).
-/
import EvmIndexer.Agreement
import EvmIndexer.Decoder

set_option autoImplicit false

namespace EvmIndexer

open Sql Transition

/-! ## The rows of a source

What is compared are the lists of a source's rows, whole rows in their order. A call names
the source it writes for; the one call without a name writes no row of the ledger.
-/

/-- The events of a source. -/
def Db.events_of (db : Db) (source_id : Uuid) : List EventRow :=
  db.events.rows.filter fun r => r.source_id == source_id

/-- The ledger entries of a source, orphaned or not. -/
def Db.entries_of (db : Db) (source_id : Uuid) : List LedgerEntryRow :=
  db.ledger_entries.rows.filter fun r => r.source_id == source_id

/-- The balances of a source. -/
def Db.balances_of (db : Db) (source_id : Uuid) : List TokenBalanceRow :=
  db.token_balances.rows.filter fun r => r.source_id == source_id

/-- The source a call names. `ensure_source` names a contract, and writes no ledger row. -/
def LedgerOp.source_id : LedgerOp → Option Uuid
  | .ensure_source .. => none
  | .persist_decoded_logs_with_options source _ _ => some source.id
  | .orphan_source_range source _ _ => some source.id
  | .update_log_metadata source _ => some source.id

/-- The entries and the balances of a source are the same. -/
structure SameBooks (source_id : Uuid) (db db' : Db) : Prop where
  entries : db'.entries_of source_id = db.entries_of source_id
  balances : db'.balances_of source_id = db.balances_of source_id

theorem SameBooks.refl (source_id : Uuid) (db : Db) : SameBooks source_id db db := ⟨rfl, rfl⟩

theorem SameBooks.trans {source_id : Uuid} {a b c : Db} (h : SameBooks source_id a b)
    (k : SameBooks source_id b c) : SameBooks source_id a c :=
  ⟨k.entries.trans h.entries, k.balances.trans h.balances⟩

/-- What leaves both tables alone leaves those of every source alone. -/
theorem SameBooks.of_eq {source_id : Uuid} {db db' : Db}
    (hentries : db'.ledger_entries = db.ledger_entries)
    (hbalances : db'.token_balances = db.token_balances) : SameBooks source_id db db' := by
  refine ⟨?_, ?_⟩
  · unfold Db.entries_of
    rw [hentries]
  · unfold Db.balances_of
    rw [hbalances]

/-! ## Balances and entries

A balance row is looked up by the source among other columns, so another source's is never
found. An entry is looked up by its key, which has no source in it, and the guard before the
upsert compares the source of what is found. So a call for another source either writes its
own rows or fails.
-/

section Books

variable {parseAmount : AmountParser} {db db' : Db} {source : SourceRef}
  {options : PersistDecodedLogsOptions} {source_id : Uuid}

/-- A delta of one source moves no balance row of another. -/
theorem apply_holder_balance_delta_others {holder_address token_id : String} {delta : BalanceDelta}
    (h : apply_holder_balance_delta db source holder_address token_id delta = .ok db')
    (hne : source.id ≠ source_id) : db'.balances_of source_id = db.balances_of source_id := by
  unfold Db.balances_of
  unfold apply_holder_balance_delta at h
  simp only [bail_eq_ok] at h
  obtain ⟨-, h⟩ := h
  split at h
  · -- the row that is updated is the one that was found for the holder
    rename_i existing hfind
    simp only [bind_eq_ok, db_result_eq_ok] at h
    obtain ⟨token_balances, hupdate, hdb⟩ := h
    cases hdb
    have hmem := List.mem_of_find?_eq_some hfind
    have hsource := (of_holder_iff.1 (List.find?_some hfind)).1
    rw [Table.update_eq_replace hupdate (x := existing) (by simp)
      (fun r hr hid => db.token_balances.eq_of_clash hr hmem (Or.inl (by simpa using hid)))]
    refine filter_replaceRow ?_ ?_ _
    · exact beq_false_of_ne (hsource ▸ hne)
    · exact beq_false_of_ne (hsource ▸ hne)
  · split at h
    · cases h
      rfl
    · simp only [bind_eq_ok, db_result_eq_ok] at h
      obtain ⟨token_balances, hinsert, hdb⟩ := h
      cases hdb
      rw [(Table.insert_eq_some.1 hinsert).2, List.filter_append, List.filter_cons_of_neg,
        List.filter_nil, List.append_nil]
      simpa using hne

theorem apply_balance_delta_others {previous : Option LedgerEntryRow} {current : LedgerEntryRow}
    (h : apply_balance_delta db source previous current = .ok db') (hne : source.id ≠ source_id) :
    SameBooks source_id db db' := by
  refine ⟨?_, ?_⟩
  · unfold Db.entries_of
    rw [(apply_balance_delta_spec h).1.ledger_entries]
  · exact foldlM_relates (R := fun s t : Db => t.balances_of source_id = s.balances_of source_id)
      (fun _ => rfl) (fun hst htu => htu.trans hst)
      (fun _ _ _ _ hdelta => apply_holder_balance_delta_others hdelta hne) h

/-- Persisting an entry writes rows of its own source only: the guard has refused the others. -/
theorem persist_entry_others {log : RpcLog} {event_id : Uuid} {entry : DecodedLedgerEntry}
    (h : persist_entry parseAmount source log event_id options db entry = .ok db')
    (hne : source.id ≠ source_id) : SameBooks source_id db db' := by
  obtain ⟨previous, current, mid, hprev, hmine, hupsert, happly⟩ := persist_entry_spec h
  obtain ⟨values, ledger_entries, hvalues, -, hmid, -, hrows⟩ :=
    upsert_ledger_entry_spec hprev hupsert
  have hsource := (new_ledger_entry_row_key hvalues).1
  refine SameBooks.trans ⟨?_, ?_⟩ (apply_balance_delta_others happly hne)
  · unfold Db.entries_of
    rw [hmid]
    rcases hrows with ⟨-, -, hrows⟩ | ⟨old, hfound, -, -, rfl, hrows⟩
    · rw [hrows, List.filter_append, List.filter_cons_of_neg, List.filter_nil, List.append_nil]
      simpa [hsource] using hne
    · have hold := hmine old hfound
      rw [hrows]
      refine filter_replaceRow ?_ ?_ _
      · exact beq_false_of_ne (hold ▸ hne)
      · rw [LedgerEntryRow.stored_source_id]
        exact beq_false_of_ne (hold ▸ hne)
  · unfold Db.balances_of
    rw [hmid]

theorem reverse_entries_others {rows : List LedgerEntryRow}
    (h : rows.foldlM (reverse_entry source) db = .ok db') (hne : source.id ≠ source_id) :
    SameBooks source_id db db' :=
  foldlM_relates (SameBooks.refl source_id) SameBooks.trans
    (fun _ _ _ _ hrow => apply_balance_delta_others hrow hne) h

/-- A call for another source leaves the entries and the balances of a source. -/
theorem LedgerOp.apply_sameBooks {op : LedgerOp} (h : op.apply parseAmount db = .ok db')
    (hother : op.source_id ≠ some source_id) : SameBooks source_id db db' := by
  cases op with
  | ensure_source chain_id name contract_address standard start_block =>
    obtain ⟨row, hrow⟩ := map_snd_eq_ok.1 h
    rw [ensure_source_frame hrow]
    exact SameBooks.of_eq rfl rfl
  | persist_decoded_logs_with_options source logs options =>
    obtain ⟨summary, hsummary⟩ := map_snd_eq_ok.1 h
    have hne : source.id ≠ source_id := fun e => hother (congrArg some e)
    exact persist_decoded_logs_relates (SameBooks.refl source_id) SameBooks.trans
      (fun _ _ => SameBooks.of_eq rfl rfl) (fun hentry => persist_entry_others hentry hne) hsummary
  | orphan_source_range source from_block to_block =>
    obtain ⟨summary, hsummary⟩ := map_snd_eq_ok.1 h
    have hne : source.id ≠ source_id := fun e => hother (congrArg some e)
    obtain ⟨mid, hmid, hdb, hrows, -⟩ := orphan_source_range_spec hsummary
    have hloop := reverse_entries_others hmid hne
    refine ⟨?_, ?_⟩
    · unfold Db.entries_of
      rw [hrows]
      refine Table.filter_map_setRow_of_apart (fun r hr => ?_) _
      have hr := (active_in_iff.1 hr).1
      exact ⟨beq_false_of_ne (hr ▸ hne), beq_false_of_ne (hr ▸ hne)⟩
    · rw [hdb]
      exact hloop.balances
  | update_log_metadata source log =>
    obtain ⟨summary, hsummary⟩ := map_snd_eq_ok.1 h
    have hne : source.id ≠ source_id := fun e => hother (congrArg some e)
    unfold EvmIndexer.update_log_metadata at hsummary
    simp only [bind_eq_ok, db_result_eq_ok] at hsummary
    obtain ⟨_, -, _, -, _, -, events, -, ledger_entries, hentries, hdb⟩ := hsummary
    cases hdb
    refine ⟨?_, rfl⟩
    unfold Db.entries_of
    rw [(Table.update_eq_some.1 hentries).2]
    refine Table.filter_map_setRow_of_apart (fun r hr => ?_) _
    simp only [Bool.and_eq_true, beq_iff_eq] at hr
    exact ⟨beq_false_of_ne (hr.1.1.1 ▸ hne), beq_false_of_ne (hr.1.1.1 ▸ hne)⟩

end Books

/-! ## Events and the rows that guard them

The upsert of an event has no guard. It comes before the entries of the log, in one
transaction with them, so an event of another source is safe if the log has an entry whose
row is there and is of that source: then the transaction fails. Such a row is the one of
batch index 0, if every log has an entry with that index.
-/

/-- The key an entry is stored under, with the source that stored it. -/
structure OwnedKey where
  source_id : Uuid
  chain_id : Int
  transaction_hash : String
  log_index : Int
  batch_index : Int
  deriving DecidableEq

def LedgerEntryRow.owned_key (row : LedgerEntryRow) : OwnedKey :=
  { source_id := row.source_id
    chain_id := row.chain_id
    transaction_hash := row.transaction_hash
    log_index := row.log_index
    batch_index := row.batch_index }

/-- The key of the entry of batch index 0 of an event. -/
def EventRow.first_key (event : EventRow) : OwnedKey :=
  { source_id := event.source_id
    chain_id := event.chain_id
    transaction_hash := event.transaction_hash
    log_index := event.log_index
    batch_index := 0 }

/-- The keys of the entries stored in a database. -/
def Db.owned_keys (db : Db) : List OwnedKey := db.ledger_entries.rows.map (·.owned_key)

/-- Every event has an entry of batch index 0, and its source stored both. -/
def Guards (db : Db) : Prop := ∀ event ∈ db.events.rows, event.first_key ∈ db.owned_keys

/-- The log has an entry of batch index 0, as every decoded log has but an empty batch. -/
def has_first_entry (log : RpcLog × DecodedLog) : Prop :=
  ∃ entry ∈ log.2.entries, entry.batch_index = 0

instance (log : RpcLog × DecodedLog) : Decidable (has_first_entry log) :=
  inferInstanceAs (Decidable (∃ entry ∈ log.2.entries, entry.batch_index = 0))

section Decoder

variable {keccak256 : String → String} {parse_bytes : List Char → Option Nat}

/-- The first pair of a batch has index 0. -/
theorem batch_entries_first {operator «from» «to» : String} {ids amounts : List String}
    (h : batch_entries operator «from» «to» ids amounts ≠ []) :
    ∃ entry ∈ batch_entries operator «from» «to» ids amounts, entry.batch_index = 0 := by
  unfold batch_entries at h ⊢
  cases hpairs : ids.zip amounts with
  | nil =>
    rw [hpairs, List.mapIdx_nil] at h
    exact absurd rfl h
  | cons pair rest =>
    rw [List.mapIdx_cons]
    have hzero : as_i32 0 = (0 : Nat) := as_i32_of_lt (by norm_num)
    exact ⟨_, List.mem_cons_self .., hzero⟩

theorem decode_log_as_first_entry {log : RpcLog} {standard : TokenStandard} {decoded : DecodedLog}
    (h : decode_log_as keccak256 parse_bytes log standard = .ok (some decoded))
    (hentries : decoded.entries ≠ []) : has_first_entry (log, decoded) := by
  unfold decode_log_as at h
  cases hlog : log.topics with
  | nil =>
    rw [hlog] at h
    cases h
  | cons topic0 rest =>
    rw [hlog] at h
    simp only at h
    split at h
    · rw [bind_eq_ok] at h
      obtain ⟨_, -, h⟩ := h
      obtain ⟨found, hfound, hsome⟩ := map_eq_ok.1 h
      cases hsome
      unfold decode_transfer at hfound
      rw [bind_eq_ok] at hfound
      obtain ⟨fields, -, hfound⟩ := hfound
      cases hfound
      exact ⟨_, List.mem_singleton.2 rfl, rfl⟩
    · split at h
      · obtain ⟨found, hfound, hsome⟩ := map_eq_ok.1 h
        cases hsome
        unfold decode_transfer_single at hfound
        simp only [bind_eq_ok] at hfound
        obtain ⟨_, -, _, -, _, -, _, -, _, -, _, -, _, -, _, -, hfound⟩ := hfound
        cases hfound
        exact ⟨_, List.mem_singleton.2 rfl, rfl⟩
      · split at h
        · obtain ⟨found, hfound, hsome⟩ := map_eq_ok.1 h
          cases hsome
          unfold decode_transfer_batch at hfound
          rw [bind_eq_ok] at hfound
          obtain ⟨_, -, hfound⟩ := hfound
          rw [bind_eq_ok] at hfound
          obtain ⟨data, -, hfound⟩ := hfound
          split at hfound
          · cases hfound
          rw [bind_eq_ok] at hfound
          obtain ⟨ids_offset, -, hfound⟩ := hfound
          split at hfound
          · cases hfound
          simp only [bind_eq_ok, bail_eq_ok] at hfound
          obtain ⟨_, -, ids, -, amounts, -, -, operator, -, source, -, target, -, hfound⟩ := hfound
          cases hfound
          exact batch_entries_first hentries
        · cases h

/-- A decoded log that has entries has a first entry. -/
theorem decode_log_first_entry {log : RpcLog} {standard : TokenStandard} {decoded : DecodedLog}
    (h : decode_log keccak256 parse_bytes log standard = .ok (some decoded))
    (hentries : decoded.entries ≠ []) : has_first_entry (log, decoded) := by
  unfold decode_log at h
  split at h
  · rw [bind_eq_ok] at h
    obtain ⟨detected, -, h⟩ := h
    cases detected with
    | none => cases h
    | some detected => exact decode_log_as_first_entry h hentries
  · exact decode_log_as_first_entry h hentries

end Decoder

/-- Every log of the call has an entry of batch index 0. -/
def LedgerOp.has_first_entries : LedgerOp → Prop
  | .persist_decoded_logs_with_options _ logs _ => ∀ log ∈ logs, has_first_entry log
  | .ensure_source .. => True
  | .orphan_source_range .. => True
  | .update_log_metadata .. => True

instance : DecidablePred LedgerOp.has_first_entries
  | .persist_decoded_logs_with_options _ logs _ =>
    inferInstanceAs (Decidable (∀ log ∈ logs, has_first_entry log))
  | .ensure_source .. => isTrue trivial
  | .orphan_source_range .. => isTrue trivial
  | .update_log_metadata .. => isTrue trivial

section Decoded

variable (keccak256 : String → String) (parse_bytes : List Char → Option Nat)

/-- Every log of the call is what the decoder makes of it, and has an entry. -/
def LedgerOp.has_decoded_entries : LedgerOp → Prop
  | .persist_decoded_logs_with_options _ logs _ => ∀ log ∈ logs, log.2.entries ≠ [] ∧
      ∃ standard, decode_log keccak256 parse_bytes log.1 standard = .ok (some log.2)
  | .ensure_source .. => True
  | .orphan_source_range .. => True
  | .update_log_metadata .. => True

variable {keccak256 parse_bytes}

theorem LedgerOp.has_decoded_entries.first {op : LedgerOp}
    (h : op.has_decoded_entries keccak256 parse_bytes) : op.has_first_entries := by
  cases op with
  | persist_decoded_logs_with_options source logs options =>
    intro log hlog
    obtain ⟨hentries, standard, hdecoded⟩ := h log hlog
    exact decode_log_first_entry hdecoded hentries
  | ensure_source | orphan_source_range | update_log_metadata => trivial

end Decoded

section Events

variable {parseAmount : AmountParser} {db db' : Db} {source : SourceRef}
  {options : PersistDecodedLogsOptions} {source_id : Uuid}

/-- A `SET` clause changes no key. -/
theorem owned_keys_setRow {p : LedgerEntryRow → Bool} {set : LedgerEntryRow → LedgerEntryRow}
    (hset : ∀ r, (set r).owned_key = r.owned_key) (rows : List LedgerEntryRow) :
    (rows.map (Table.setRow p set)).map (·.owned_key) = rows.map (·.owned_key) := by
  rw [List.map_map]
  exact List.map_congr_left fun r _ => Table.setRow_keeps LedgerEntryRow.owned_key p r hset

theorem owned_keys_replaceRow {old new : LedgerEntryRow} (h : new.owned_key = old.owned_key)
    (rows : List LedgerEntryRow) :
    (replaceRow old new rows).map (·.owned_key) = rows.map (·.owned_key) := by
  unfold replaceRow
  rw [List.map_map]
  refine List.map_congr_left fun r _ => ?_
  rw [Function.comp_apply]
  by_cases hr : r = old
  · rw [if_pos hr, hr, h]
  · rw [if_neg hr]

/-- The keys two rows are upserted by are equal, but for the source. -/
theorem owned_key_of_same_entry {values old : LedgerEntryRow} (h : values.same_entry old = true) :
    old.owned_key = { values.owned_key with source_id := old.source_id } := by
  obtain ⟨h1, h2, h3, h4⟩ := at_key_iff.1 h
  unfold LedgerEntryRow.owned_key
  rw [h1, h2, h3, h4]

theorem stored_owned_key (options : PersistDecodedLogsOptions) (values old : LedgerEntryRow) :
    (values.stored options old).owned_key = old.owned_key := by
  unfold LedgerEntryRow.stored
  split <;> rfl

/-- What persisting an entry does to the keys: none is lost, the entry's is there, and it was
under no other source. -/
theorem persist_entry_keys {log : RpcLog} {event_id : Uuid} {entry : DecodedLedgerEntry}
    (h : persist_entry parseAmount source log event_id options db entry = .ok db') :
    db.owned_keys ⊆ db'.owned_keys ∧
      ∃ values, new_ledger_entry_row parseAmount db.next_uuid source log event_id entry = .ok values ∧
        values.owned_key ∈ db'.owned_keys ∧
        ∀ owner, { values.owned_key with source_id := owner } ∈ db.owned_keys → owner = source.id := by
  obtain ⟨previous, current, mid, hprev, hmine, hupsert, happly⟩ := persist_entry_spec h
  obtain ⟨values, ledger_entries, hvalues, -, hmid, hfound, hrows⟩ :=
    upsert_ledger_entry_spec hprev hupsert
  have hsource := (new_ledger_entry_row_key hvalues).1
  have hkeys : db'.owned_keys = ledger_entries.rows.map (·.owned_key) := by
    unfold Db.owned_keys
    rw [(apply_balance_delta_spec happly).1.ledger_entries, hmid]
  -- a row under the key of the entry is the one the guard has seen
  have howner : ∀ owner, { values.owned_key with source_id := owner } ∈ db.owned_keys →
      owner = source.id := by
    intro owner howner
    obtain ⟨row, hrow, hkey⟩ := List.mem_map.1 howner
    have hsame : values.same_entry row = true := by
      refine at_key_iff.2 ⟨?_, ?_, ?_, ?_⟩
      · exact congrArg OwnedKey.chain_id hkey
      · exact congrArg OwnedKey.transaction_hash hkey
      · exact congrArg OwnedKey.log_index hkey
      · exact congrArg OwnedKey.batch_index hkey
    have hprevious : previous = some row :=
      hfound.trans ((db.ledger_entries.find?_eq_some_iff fun a _ b _ ha hb => by
        obtain ⟨a1, a2, a3, a4⟩ := at_key_iff.1 ha
        obtain ⟨b1, b2, b3, b4⟩ := at_key_iff.1 hb
        exact Or.inr ⟨a1.trans b1.symm, a2.trans b2.symm, a3.trans b3.symm, a4.trans b4.symm⟩).2
          ⟨hrow, hsame⟩)
    exact (congrArg OwnedKey.source_id hkey).symm.trans (hmine row hprevious)
  rw [hkeys]
  rcases hrows with ⟨-, -, hrows⟩ | ⟨old, hold, hmem, hsame, rfl, hrows⟩
  · rw [hrows, List.map_append]
    exact ⟨List.subset_append_left _ _, values, hvalues,
      List.mem_append_right _ (List.mem_singleton.2 rfl), howner⟩
  · rw [hrows, owned_keys_replaceRow (stored_owned_key options values old)]
    refine ⟨List.Subset.refl _, values, hvalues, ?_, howner⟩
    refine List.mem_map.2 ⟨old, hmem, ?_⟩
    rw [owned_key_of_same_entry hsame, hmine old hold, ← hsource]
    rfl

/-- No key is lost by the entries of a log. -/
theorem persist_entries_keys {log : RpcLog} {event_id : Uuid} {entries : List DecodedLedgerEntry}
    (h : entries.foldlM (persist_entry parseAmount source log event_id options) db = .ok db') :
    db.owned_keys ⊆ db'.owned_keys :=
  foldlM_relates (R := fun s t : Db => s.owned_keys ⊆ t.owned_keys)
    (fun _ => List.Subset.refl _) List.Subset.trans
    (fun _ _ _ _ hentry => (persist_entry_keys hentry).1) h

/-- A log with an entry of batch index 0 leaves that entry's key, and found it under no other
source. -/
theorem persist_entries_first {log : RpcLog} {event_id : Uuid} {entries : List DecodedLedgerEntry}
    (hfirst : ∃ entry ∈ entries, entry.batch_index = 0)
    (h : entries.foldlM (persist_entry parseAmount source log event_id options) db = .ok db')
    {event : EventRow} (hchain : event.chain_id = source.chain_id)
    (hkey : (event.transaction_hash, some event.log_index) = stored_key log) :
    { event.first_key with source_id := source.id } ∈ db'.owned_keys ∧
      (event.first_key ∈ db.owned_keys → event.source_id = source.id) := by
  induction entries generalizing db with
  | nil =>
    obtain ⟨entry, hentry, -⟩ := hfirst
    exact absurd hentry List.not_mem_nil
  | cons entry rest ih =>
    rw [List.foldlM_cons, bind_eq_ok] at h
    obtain ⟨mid, hentry, hrest⟩ := h
    obtain ⟨hkept, values, hvalues, hmem, howner⟩ := persist_entry_keys hentry
    by_cases hzero : entry.batch_index = 0
    · -- this is the entry: later ones keep its key
      obtain ⟨hplace, hbatch⟩ := Prod.ext_iff.1 (stored_key_of_entry hvalues)
      obtain ⟨hhash, hindex⟩ := Prod.ext_iff.1 (hplace.trans hkey.symm)
      have hvalues_chain := (new_ledger_entry_row_shows hvalues).2.1
      have hfirst_key : ∀ owner, { event.first_key with source_id := owner }
          = { values.owned_key with source_id := owner } := by
        intro owner
        unfold EventRow.first_key LedgerEntryRow.owned_key
        rw [OwnedKey.mk.injEq]
        exact ⟨rfl, hchain.trans hvalues_chain.symm, hhash.symm, (Option.some.inj hindex).symm,
          (hbatch.trans hzero).symm⟩
      refine ⟨persist_entries_keys hrest ?_, fun hevent => howner event.source_id ?_⟩
      · rw [hfirst_key, ← (new_ledger_entry_row_key hvalues).1]
        exact hmem
      · rw [← hfirst_key]
        exact hevent
    · have hothers : ∃ entry ∈ rest, entry.batch_index = 0 := by
        obtain ⟨first, hmem, hindex⟩ := hfirst
        rcases List.mem_cons.1 hmem with rfl | hmem
        · exact absurd hindex hzero
        · exact ⟨first, hmem, hindex⟩
      obtain ⟨hleft, hfound⟩ := ih hothers hrest
      exact ⟨hleft, fun hevent => hfound (hkept hevent)⟩

/-- Where events are guarded, persisting a log that has a first entry leaves them guarded, and
leaves the events of every other source. -/
theorem persist_log_guards {log : RpcLog × DecodedLog} (hfirst : has_first_entry log)
    (h : persist_log parseAmount source options db log = .ok db') (hguards : Guards db) :
    Guards db' ∧ (source.id ≠ source_id → db'.events_of source_id = db.events_of source_id) := by
  unfold persist_log at h
  rw [bind_eq_ok] at h
  obtain ⟨⟨event_id, mid⟩, hevent, hentries⟩ := h
  obtain ⟨values, hvalues, -, hmid, -, hrows⟩ := upsert_event_spec hevent
  obtain ⟨-, -, hsource, hchain, -⟩ := new_event_row_shows hvalues
  have hkey := stored_key_of_event hvalues
  have hkept := persist_entries_keys hentries
  have hmid_keys : mid.owned_keys = db.owned_keys := by
    unfold Db.owned_keys
    rw [hmid]
  rw [hmid_keys] at hkept
  unfold Guards Db.events_of
  rw [(persist_entries_frame hentries).1, hrows, Upsert.store]
  cases hfind : db.events.rows.find? ((event_rule options).same values) with
  | none =>
    -- a new event, which its first entry guards
    refine ⟨fun event hmem => ?_, fun hne => ?_⟩
    · rcases List.mem_append.1 hmem with hmem | hmem
      · exact hkept (hguards event hmem)
      · obtain rfl := List.mem_singleton.1 hmem
        have hleft := (persist_entries_first hfirst hentries hchain hkey).1
        rw [← hsource] at hleft
        exact hleft
    · rw [List.filter_append, List.filter_cons_of_neg, List.filter_nil, List.append_nil]
      simpa [hsource] using hne
  | some old =>
    -- a stored event: what guards it stops the logs of other sources
    have hold := List.mem_of_find?_eq_some hfind
    obtain ⟨hchain', hhash, hindex⟩ := same_log_iff.1 (List.find?_some hfind)
    have hmine : old.source_id = source.id :=
      (persist_entries_first hfirst hentries (hchain'.symm.trans hchain)
        (by rw [← hhash, ← hindex]; exact hkey)).2 (hmid_keys ▸ hguards old hold)
    obtain ⟨-, hstored_source, hstored_chain, hstored_hash, hstored_index, -⟩ :=
      EventRow.stored_keeps options values old
    have hstored : (values.stored options old).first_key = old.first_key := by
      unfold EventRow.first_key
      rw [hstored_source, hstored_chain, hstored_hash, hstored_index]
    refine ⟨fun event hmem => ?_, fun hne => ?_⟩
    · rcases (mem_replaceRow hold).1 hmem with rfl | ⟨hmem, -⟩
      · exact hkept (hstored ▸ hguards old hold)
      · exact hkept (hguards event hmem)
    · refine filter_replaceRow ?_ ?_ _
      · exact beq_false_of_ne (hmine ▸ hne)
      · exact beq_false_of_ne ((hstored_source.trans hmine) ▸ hne)

/-- A `SET` clause that keeps the keys of both tables keeps the guards. -/
theorem Guards.of_setRow (hguards : Guards db) {p : EventRow → Bool} {set : EventRow → EventRow}
    (hrows : db'.events.rows = db.events.rows.map (Table.setRow p set))
    (hset : ∀ event, (set event).first_key = event.first_key)
    (hkeys : db'.owned_keys = db.owned_keys) : Guards db' := by
  intro event hevent
  rw [hrows] at hevent
  obtain ⟨old, hold, rfl⟩ := List.mem_map.1 hevent
  rw [hkeys, Table.setRow_keeps EventRow.first_key p old hset]
  exact hguards old hold

/-- And where it is for the events of one source, it leaves those of the others. -/
theorem events_of_setRow {owner : Uuid} {p : EventRow → Bool} {set : EventRow → EventRow}
    (hrows : db'.events.rows = db.events.rows.map (Table.setRow p set))
    (hset : ∀ event, (set event).source_id = event.source_id)
    (howner : ∀ event, p event = true → event.source_id = owner) (hne : owner ≠ source_id) :
    db'.events_of source_id = db.events_of source_id := by
  unfold Db.events_of
  rw [hrows]
  refine Table.filter_map_setRow_of_apart (fun event hevent => ?_) _
  rw [hset, howner event hevent]
  exact ⟨beq_false_of_ne hne, beq_false_of_ne hne⟩

variable (source_id) in
/-- A call whose logs have first entries leaves the events guarded, and those of the sources
it does not name as they were. -/
theorem LedgerOp.apply_guards {op : LedgerOp} (h : op.apply parseAmount db = .ok db')
    (hop : op.has_first_entries) (hguards : Guards db) :
    Guards db' ∧
      (op.source_id ≠ some source_id → db'.events_of source_id = db.events_of source_id) := by
  cases op with
  | ensure_source chain_id name contract_address standard start_block =>
    obtain ⟨row, hrow⟩ := map_snd_eq_ok.1 h
    rw [ensure_source_frame hrow]
    exact ⟨hguards, fun _ => rfl⟩
  | persist_decoded_logs_with_options source logs options =>
    obtain ⟨summary, hsummary⟩ := map_snd_eq_ok.1 h
    have hlogs := (persist_decoded_logs_iff.1 ⟨summary, hsummary⟩).2
    have hloop := foldlM_relates
      (R := fun s t : Db => Guards s → Guards t ∧
        (source.id ≠ source_id → t.events_of source_id = s.events_of source_id))
      (fun _ hs => ⟨hs, fun _ => rfl⟩)
      (fun hst htu hs => ⟨(htu (hst hs).1).1,
        fun hne => ((htu (hst hs).1).2 hne).trans ((hst hs).2 hne)⟩)
      (fun log hlog _ _ hturn hs => persist_log_guards (hop log hlog) hturn hs) hlogs hguards
    exact ⟨hloop.1, fun hother => hloop.2 fun e => hother (congrArg some e)⟩
  | orphan_source_range source from_block to_block =>
    obtain ⟨summary, hsummary⟩ := map_snd_eq_ok.1 h
    obtain ⟨_, -, -, hentries, hevents⟩ := orphan_source_range_spec hsummary
    refine ⟨hguards.of_setRow hevents (fun _ => rfl) ?_, fun hother => ?_⟩
    · unfold Db.owned_keys
      rw [hentries]
      refine owned_keys_setRow (fun r => ?_) _
      rfl
    · refine events_of_setRow hevents (fun _ => rfl) (fun event hevent => ?_) fun e =>
        hother (congrArg some e)
      simp only [EventRow.active_in, Bool.and_eq_true, beq_iff_eq] at hevent
      exact hevent.1.1.1
  | update_log_metadata source log =>
    obtain ⟨summary, hsummary⟩ := map_snd_eq_ok.1 h
    unfold EvmIndexer.update_log_metadata at hsummary
    simp only [bind_eq_ok, db_result_eq_ok] at hsummary
    obtain ⟨_, -, _, -, _, -, events, hevents, ledger_entries, hentries, hdb⟩ := hsummary
    cases hdb
    have hrows := (Table.update_eq_some.1 hevents).2
    refine ⟨hguards.of_setRow hrows (fun event => ?_) ?_, fun hother => ?_⟩
    · unfold EventRow.first_key
      rfl
    · unfold Db.owned_keys
      rw [(Table.update_eq_some.1 hentries).2]
      refine owned_keys_setRow (fun r => ?_) _
      simp only [LedgerEntryRow.owned_key]
    · refine events_of_setRow hrows (fun event => ?_) (fun event hevent => ?_) fun e =>
        hother (congrArg some e)
      · rfl
      · simp only [Bool.and_eq_true, beq_iff_eq] at hevent
        exact hevent.1.1.1

/-- Guards do not depend on the physical order. -/
theorem Guards.of_sameRows (h : Guards db) (hsame : db.SameRows db') : Guards db' := by
  intro event hevent
  exact (hsame.ledger_entries.map _).mem_iff.1 (h event (hsame.events.mem_iff.2 hevent))

end Events

/-! ## Runs

Entries and balances need no condition and follow by the step lemma alone. For events the
guards are an invariant of the whole run, from the empty database on, since a log without a
first entry that was persisted earlier has left an event that nothing guards.
-/

section Runs

variable {parseAmount : AmountParser} {source_id : Uuid}

/-- Calls for other sources leave the entries and the balances of a source. -/
theorem run_keeps_books {ops : List LedgerOp} {db db' : Db}
    (h : Run (Guarded (LedgerStep parseAmount) fun _ op => op.source_id ≠ some source_id) db ops db') :
    (db'.entries_of source_id).Perm (db.entries_of source_id) ∧
      (db'.balances_of source_id).Perm (db.balances_of source_id) := by
  refine guarded_ledger_invariant
    (I := fun t => (t.entries_of source_id).Perm (db.entries_of source_id) ∧
      (t.balances_of source_id).Perm (db.balances_of source_id)) ?_ ?_ h
    ⟨List.Perm.refl _, List.Perm.refl _⟩
  · rintro s op t ⟨hentries, hbalances⟩ hother happly
    have hsame := LedgerOp.apply_sameBooks happly hother
    rw [hsame.entries, hsame.balances]
    exact ⟨hentries, hbalances⟩
  · rintro s t ⟨hentries, hbalances⟩ hsame
    exact ⟨(hsame.ledger_entries.filter _).symm.trans hentries,
      (hsame.token_balances.filter _).symm.trans hbalances⟩

/-- Logs with first entries leave every event guarded. -/
theorem run_guards {ops : List LedgerOp} {db : Db}
    (h : Run (Guarded (LedgerStep parseAmount) fun _ op => op.has_first_entries) Db.empty ops db) :
    Guards db :=
  guarded_ledger_invariant
    (fun _ _ _ hs hop happly => (LedgerOp.apply_guards 0 happly hop hs).1)
    (fun _ _ => Guards.of_sameRows) h (fun _ hevent => absurd hevent List.not_mem_nil)

/-- Such calls for other sources leave the events of a source. -/
theorem run_keeps_events {ops : List LedgerOp} {db db' : Db} (hguards : Guards db)
    (h : Run (Guarded (LedgerStep parseAmount)
      fun _ op => op.has_first_entries ∧ op.source_id ≠ some source_id) db ops db') :
    (db'.events_of source_id).Perm (db.events_of source_id) := by
  refine (guarded_ledger_invariant
    (I := fun t => Guards t ∧ (t.events_of source_id).Perm (db.events_of source_id)) ?_ ?_ h
    ⟨hguards, List.Perm.refl _⟩).2
  · rintro s op t ⟨hs, hevents⟩ ⟨hfirst, hother⟩ happly
    obtain ⟨ht, hsame⟩ := LedgerOp.apply_guards source_id happly hfirst hs
    rw [hsame hother]
    exact ⟨ht, hevents⟩
  · rintro s t ⟨hs, hevents⟩ hsame
    exact ⟨hs.of_sameRows hsame, (hsame.events.filter _).symm.trans hevents⟩

/-- Whatever calls for other sources a run makes, the entries and balances of a source are at
its end the rows they were. So are its events, if every log persisted since the database was
empty has an entry of batch index 0; in particular if every such log was decoded and has any
entry at all. -/
theorem sources_are_isolated (source_id : Uuid) {before ops : List LedgerOp} {db db' : Db}
    (hbefore : Run (LedgerStep parseAmount) Db.empty before db)
    (h : Run (LedgerStep parseAmount) db ops db')
    (hothers : ∀ op ∈ ops, op.source_id ≠ some source_id) :
    (db'.entries_of source_id).Perm (db.entries_of source_id) ∧
      (db'.balances_of source_id).Perm (db.balances_of source_id) ∧
      ((∀ op ∈ before ++ ops, op.has_first_entries) →
        (db'.events_of source_id).Perm (db.events_of source_id)) ∧
      ∀ keccak256 parse_bytes,
        (∀ op ∈ before ++ ops, op.has_decoded_entries keccak256 parse_bytes) →
        (db'.events_of source_id).Perm (db.events_of source_id) := by
  obtain ⟨hentries, hbalances⟩ := run_keeps_books (h.guarded hothers)
  have hevents : (∀ op ∈ before ++ ops, op.has_first_entries) →
      (db'.events_of source_id).Perm (db.events_of source_id) := by
    intro hfirst
    rw [List.forall_mem_append] at hfirst
    exact run_keeps_events (run_guards (hbefore.guarded hfirst.1))
      (h.guarded fun op hop => ⟨hfirst.2 op hop, hothers op hop⟩)
  exact ⟨hentries, hbalances, hevents,
    fun _ _ hdecoded => hevents fun op hop => (hdecoded op hop).first⟩

end Runs

/-- Two contracts, the first with a mint for alice. -/
def two_contracts : List LedgerOp :=
  [.ensure_source 1 "token" small_source.contract_address .Erc20 0,
   .ensure_source 1 "other" "0xd0d0d0d0d0d0d0d0d0d0d0d0d0d0d0d0d0d0d0d0" .Erc20 0,
   .persist_decoded_logs_with_options small_source.from_source
     [erc20_transfer "0x1" "0xb1" "0xd1" zero_address alice] { restore_orphaned_conflicts := false }]

/-- Logs of the second contract. -/
def second_contract (logs : List (RpcLog × DecodedLog)) : List LedgerOp :=
  [.persist_decoded_logs_with_options { small_source.from_source with id := 1 } logs
    { restore_orphaned_conflicts := true }]

theorem sources_are_isolated_two_contracts :
    let db := two_contracts.foldl (LedgerOp.commit plain_digits) Db.empty
    let db' := (second_contract [erc20_transfer "0x1" "0xb1" "0xd2" zero_address bob]).foldl
      (LedgerOp.commit plain_digits) db
    (db.events_of 0).length = 1 ∧ (db'.events_of 1).length = 1 ∧
      (db'.entries_of 0).Perm (db.entries_of 0) ∧ (db'.balances_of 0).Perm (db.balances_of 0) ∧
      (db'.events_of 0).Perm (db.events_of 0) := by
  intro db db'
  obtain ⟨hentries, hbalances, hevents, -⟩ := sources_are_isolated 0
    (run_of_commits Db.empty two_contracts)
    (run_of_commits db (second_contract [erc20_transfer "0x1" "0xb1" "0xd2" zero_address bob]))
    (by decide)
  exact ⟨by decide +kernel, by decide +kernel, hentries, hbalances, hevents (by decide)⟩

/-- The second contract persists the log of the first as an empty batch: nothing refuses it,
and the event of the first says what the batch says. -/
theorem empty_batch_overwrites :
    let db := two_contracts.foldl (LedgerOp.commit plain_digits) Db.empty
    let db' := (second_contract [((erc20_transfer "0x1" "0xb1" "0xd1" zero_address alice).1,
      { event_name := "TransferBatch", entries := [] })]).foldl (LedgerOp.commit plain_digits) db
    (db.events_of 0).map (·.args.length) = [1] ∧ (db'.events_of 0).map (·.args.length) = [0] ∧
      db'.entries_of 0 = db.entries_of 0 := by
  decide +kernel

end EvmIndexer
