/-
What a replay leaves in its range.

A replay orphans the range and then persists the canonical logs with
`restore_orphaned_conflicts`. A log that is new to the ledger is inserted as
decoded; one whose key is already stored updates the stored row, and the upsert
overwrites only some of its columns (`LedgerEntryRow.on_conflict`). The block
number, the movement type, the parties and the token id stay what they were on
the fork that was replayed away (`LedgerEntryRow.kept`).

`store_entry` is the upsert as a function on rows and `StoredAs` the loop over
it; `persist_decoded_logs_rows` connects the code to them. The rest is about
lists of rows with distinct keys: which rows the loop leaves in the range
(`active_in_perm_touched`), and that these are the decoded ones exactly where the
kept columns already agreed (`replay_canonical_iff`).
-/
import EvmIndexer.Ledger
import EvmIndexer.Lib.Upsert

set_option autoImplicit false

namespace EvmIndexer

open Sql

/-! ## What is compared

Two indexes of one range are compared by the columns that do not depend on when a row was
stored. A fresh index gives a row for every decoded entry, and identifiers are left out of
both.
-/

/-- The columns a replayed entry is compared on. -/
structure IndexedEntry where
  transaction_hash : String
  log_index : Int
  batch_index : Int
  block_number : Int
  block_hash : String
  movement_type : MovementType
  operator_address : Option String
  from_address : Option String
  to_address : Option String
  token_id : String
  amount : Int
  deriving DecidableEq, Repr

/-- The compared columns of a row. -/
def LedgerEntryRow.indexed (row : LedgerEntryRow) : IndexedEntry :=
  { transaction_hash := row.transaction_hash
    log_index := row.log_index
    batch_index := row.batch_index
    block_number := row.block_number
    block_hash := row.block_hash
    movement_type := row.movement_type
    operator_address := row.operator_address
    from_address := row.from_address
    to_address := row.to_address
    token_id := row.token_id
    amount := row.amount }

/-- The compared columns an upsert leaves as they were stored first. -/
def LedgerEntryRow.kept (row : LedgerEntryRow) :
    Int × MovementType × Option String × Option String × Option String × String :=
  (row.block_number, row.movement_type, row.operator_address, row.from_address, row.to_address,
    row.token_id)

section Replay

variable (parseAmount : AmountParser)

/-- The decoded entries of a list of logs, each with its log. -/
def log_entries (logs : List (RpcLog × DecodedLog)) : List (RpcLog × DecodedLedgerEntry) :=
  logs.flatMap fun log => log.2.entries.map fun entry => (log.1, entry)

/-- The rows a fresh index stores for a list of logs, up to their identifiers. -/
def fresh_rows (source : SourceRef) (logs : List (RpcLog × DecodedLog)) :
    Result (List LedgerEntryRow) :=
  (log_entries logs).mapM fun entry => new_ledger_entry_row parseAmount 0 source entry.1 0 entry.2

variable {parseAmount}

/-- A row without the identifiers it was given. -/
def LedgerEntryRow.forget_ids (row : LedgerEntryRow) : LedgerEntryRow :=
  { row with id := 0, event_id := 0 }

theorem new_ledger_entry_row_forget_ids {id event_id : Uuid} {source : SourceRef} {log : RpcLog}
    {entry : DecodedLedgerEntry} {values : LedgerEntryRow}
    (h : new_ledger_entry_row parseAmount id source log event_id entry = .ok values) :
    new_ledger_entry_row parseAmount 0 source log 0 entry = .ok values.forget_ids := by
  unfold new_ledger_entry_row at h ⊢
  simp only [bind_eq_ok] at h ⊢
  obtain ⟨amount, hamount, block_number, hblock, transaction_index, htx, log_index, hlog, hv⟩ := h
  refine ⟨amount, hamount, block_number, hblock, transaction_index, htx, log_index, hlog, ?_⟩
  cases hv
  simp only [LedgerEntryRow.forget_ids]

/-! ## The upsert on rows

The statement as a function on the list of rows, so that the loop is a fold. The conflict is
on four columns, and a row has the key of the row it conflicts with from then on.
-/

theorem same_entry_iff {a b : LedgerEntryRow} :
    a.same_entry b = true ↔ b.chain_id = a.chain_id ∧ b.transaction_hash = a.transaction_hash ∧
      b.log_index = a.log_index ∧ b.batch_index = a.batch_index := at_key_iff

theorem same_entry_refl (a : LedgerEntryRow) : a.same_entry a = true :=
  same_entry_iff.2 ⟨rfl, rfl, rfl, rfl⟩

theorem same_entry_symm {a b : LedgerEntryRow} (h : a.same_entry b = true) :
    b.same_entry a = true := by
  obtain ⟨h1, h2, h3, h4⟩ := same_entry_iff.1 h
  exact same_entry_iff.2 ⟨h1.symm, h2.symm, h3.symm, h4.symm⟩

theorem same_entry_trans {a b c : LedgerEntryRow} (h : a.same_entry b = true)
    (k : b.same_entry c = true) : a.same_entry c = true := by
  obtain ⟨h1, h2, h3, h4⟩ := same_entry_iff.1 h
  obtain ⟨k1, k2, k3, k4⟩ := same_entry_iff.1 k
  exact same_entry_iff.2 ⟨k1.trans h1, k2.trans h2, k3.trans h3, k4.trans h4⟩

theorem stored_same_entry (options : PersistDecodedLogsOptions) (values old : LedgerEntryRow) :
    old.same_entry (values.stored options old) = true := by
  unfold LedgerEntryRow.stored
  split <;> exact same_entry_iff.2 ⟨rfl, rfl, rfl, rfl⟩

/-- The upsert of `ledger_entries`. -/
def entry_rule (options : PersistDecodedLogsOptions) : Upsert.Rule LedgerEntryRow where
  same := LedgerEntryRow.same_entry
  merge := LedgerEntryRow.stored options
  same_refl := same_entry_refl
  same_symm := same_entry_symm
  same_trans := same_entry_trans
  same_merge := stored_same_entry options

/-- The upsert of one entry, on the rows of the table. -/
def store_entry (options : PersistDecodedLogsOptions) (rows : List LedgerEntryRow)
    (values : LedgerEntryRow) : List LedgerEntryRow :=
  match rows.find? values.same_entry with
  | none => rows ++ [values]
  | some old => replaceRow old (values.stored options old) rows

/-- The row an upsert leaves under the key of `values`. -/
def touched (options : PersistDecodedLogsOptions) (rows : List LedgerEntryRow)
    (values : LedgerEntryRow) : LedgerEntryRow :=
  match rows.find? values.same_entry with
  | none => values
  | some old => values.stored options old

theorem store_entry_eq (options : PersistDecodedLogsOptions) (rows : List LedgerEntryRow)
    (values : LedgerEntryRow) :
    store_entry options rows values = Upsert.store (entry_rule options) rows values := by
  have hrule : (entry_rule options).same values = values.same_entry := rfl
  unfold store_entry Upsert.store
  rw [hrule]
  cases rows.find? values.same_entry <;> rfl

theorem touched_eq (options : PersistDecodedLogsOptions) (rows : List LedgerEntryRow)
    (values : LedgerEntryRow) :
    touched options rows values = Upsert.touched (entry_rule options) rows values := by
  have hrule : (entry_rule options).same values = values.same_entry := rfl
  unfold touched Upsert.touched
  rw [hrule]
  cases rows.find? values.same_entry <;> rfl

theorem touched_same_entry (options : PersistDecodedLogsOptions) (rows : List LedgerEntryRow)
    (values : LedgerEntryRow) : values.same_entry (touched options rows values) = true := by
  have hsame : (entry_rule options).same values
      (Upsert.touched (entry_rule options) rows values) = true := Upsert.same_touched rows values
  rw [touched_eq]
  exact hsame

/-- The upsert adds the touched row and keeps the rows under other keys. -/
theorem mem_store_entry {options : PersistDecodedLogsOptions} {rows : List LedgerEntryRow}
    {values r : LedgerEntryRow} (h : r ∈ store_entry options rows values) :
    r ∈ rows ∨ values.same_entry r = true := by
  rw [store_entry_eq] at h
  exact Upsert.mem_store h

theorem touched_mem_store_entry (options : PersistDecodedLogsOptions) (rows : List LedgerEntryRow)
    (values : LedgerEntryRow) : touched options rows values ∈ store_entry options rows values := by
  rw [touched_eq, store_entry_eq]
  exact Upsert.touched_mem_store rows values

theorem mem_store_entry_of_other {options : PersistDecodedLogsOptions} {rows : List LedgerEntryRow}
    {values r : LedgerEntryRow} (hr : r ∈ rows) (hother : ¬ values.same_entry r = true) :
    r ∈ store_entry options rows values := by
  rw [store_entry_eq]
  exact Upsert.mem_store_of_other hr hother

/-- The upsert does not change what is found under another key. -/
theorem find?_store_entry_of_other {options : PersistDecodedLogsOptions}
    {rows : List LedgerEntryRow} {values w : LedgerEntryRow}
    (hother : ¬ values.same_entry w = true) :
    (store_entry options rows values).find? w.same_entry = rows.find? w.same_entry := by
  have hfind : (Upsert.store (entry_rule options) rows values).find? ((entry_rule options).same w)
      = rows.find? ((entry_rule options).same w) := Upsert.find?_store_of_other hother
  rw [store_entry_eq]
  exact hfind

/-- The loop over the entries of a source: each is stored, and a row found under
its key belongs to the source. -/
inductive StoredAs (options : PersistDecodedLogsOptions) (source_id : Uuid) :
    List LedgerEntryRow → List LedgerEntryRow → List LedgerEntryRow → Prop
  | nil (rows : List LedgerEntryRow) : StoredAs options source_id rows [] rows
  | cons {rows vs rows' : List LedgerEntryRow} {values : LedgerEntryRow}
      (hmine : ∀ old, rows.find? values.same_entry = some old → old.source_id = source_id)
      (hrest : StoredAs options source_id (store_entry options rows values) vs rows') :
      StoredAs options source_id rows (values :: vs) rows'

theorem StoredAs.append {options : PersistDecodedLogsOptions} {source_id : Uuid}
    {rows vs rows' ws rows'' : List LedgerEntryRow} (h : StoredAs options source_id rows vs rows')
    (k : StoredAs options source_id rows' ws rows'') :
    StoredAs options source_id rows (vs ++ ws) rows'' := by
  induction h with
  | nil => exact k
  | cons hmine _ ih => exact StoredAs.cons hmine (ih k)

/-! ## The code is that loop

The code does more for each entry: it looks for a row of another source, draws identifiers,
and applies the difference to the balances. Each of these can only fail, or writes other
tables. So a call that returned was the loop, with the values a fresh index would have.
-/

/-- What persisting a list of entries did to the ledger: they were stored one
after the other, as the rows a fresh index gives them. -/
def StoresEntries (parseAmount : AmountParser) (source : SourceRef)
    (options : PersistDecodedLogsOptions) (entries : List (RpcLog × DecodedLedgerEntry))
    (db db' : Db) : Prop :=
  ∃ vs : List LedgerEntryRow, (∀ v ∈ vs, v.source_id = source.id ∧ v.chain_id = source.chain_id ∧
      v.orphaned = false) ∧
    entries.mapM (fun entry => new_ledger_entry_row parseAmount 0 source entry.1 0 entry.2)
      = .ok (vs.map LedgerEntryRow.forget_ids) ∧
    StoredAs options source.id db.ledger_entries.rows vs db'.ledger_entries.rows

theorem StoresEntries.of_eq {source : SourceRef} {options : PersistDecodedLogsOptions}
    {db db' : Db} (h : db'.ledger_entries = db.ledger_entries) :
    StoresEntries parseAmount source options [] db db' := by
  refine ⟨[], by simp, rfl, ?_⟩
  rw [h]
  exact StoredAs.nil _

theorem StoresEntries.append {source : SourceRef} {options : PersistDecodedLogsOptions}
    {es fs : List (RpcLog × DecodedLedgerEntry)} {a b c : Db}
    (h : StoresEntries parseAmount source options es a b)
    (k : StoresEntries parseAmount source options fs b c) :
    StoresEntries parseAmount source options (es ++ fs) a c := by
  obtain ⟨vs, hvs, hfresh, hstored⟩ := h
  obtain ⟨ws, hws, hfresh', hstored'⟩ := k
  refine ⟨vs ++ ws, ?_, ?_, hstored.append hstored'⟩
  · intro v hv
    rcases List.mem_append.1 hv with hv | hv
    · exact hvs v hv
    · exact hws v hv
  · rw [List.mapM_append, hfresh, hfresh', List.map_append]
    rfl

theorem persist_entry_stores {source : SourceRef} {log : RpcLog} {event_id : Uuid}
    {options : PersistDecodedLogsOptions} {entry : DecodedLedgerEntry} {db db' : Db}
    (h : persist_entry parseAmount source log event_id options db entry = .ok db') :
    StoresEntries parseAmount source options [(log, entry)] db db' := by
  obtain ⟨previous, current, mid, hprev, hmine, hupsert, happly⟩ := persist_entry_spec h
  obtain ⟨hframe, -⟩ := apply_balance_delta_spec happly
  obtain ⟨values, ledger_entries, hvalues, -, hmid, hlookup, hrows⟩ :=
    upsert_ledger_entry_spec hprev hupsert
  obtain ⟨hsource, horphaned, -⟩ := new_ledger_entry_row_key hvalues
  have hchain : values.chain_id = source.chain_id := by
    unfold new_ledger_entry_row at hvalues
    simp only [bind_eq_ok] at hvalues
    obtain ⟨_, -, _, -, _, -, _, -, hv⟩ := hvalues
    rw [← Except.ok.inj hv]
  -- the one row that is stored is the one built from the entry
  refine ⟨[values], ?_, ?_, ?_⟩
  · intro v hv
    rw [List.mem_singleton.1 hv]
    exact ⟨hsource, hchain, horphaned⟩
  · rw [List.mapM_cons, List.mapM_nil, new_ledger_entry_row_forget_ids hvalues]
    rfl
  · refine StoredAs.cons ?_ ?_
    · intro old hold
      exact hmine old (hlookup.trans hold)
    · have hstore : db'.ledger_entries.rows
          = store_entry options db.ledger_entries.rows values := by
        rw [hframe.ledger_entries, hmid]
        unfold store_entry
        rw [← hlookup]
        rcases hrows with ⟨rfl, rfl, hrows⟩ | ⟨old, rfl, -, -, rfl, hrows⟩
        · exact hrows
        · exact hrows
      rw [hstore]
      exact StoredAs.nil _

/-- A loop of storing steps stores what the steps store. -/
theorem foldlM_stores {α : Type} {source : SourceRef} {options : PersistDecodedLogsOptions}
    {f : Db → α → Result Db} (entries : α → List (RpcLog × DecodedLedgerEntry))
    (hf : ∀ x {db db'}, f db x = .ok db' →
      StoresEntries parseAmount source options (entries x) db db')
    {l : List α} {db db' : Db} (h : l.foldlM f db = .ok db') :
    StoresEntries parseAmount source options (l.flatMap entries) db db' := by
  induction l generalizing db with
  | nil =>
    rw [List.foldlM_nil, pure_eq_ok] at h
    exact StoresEntries.of_eq (by rw [h])
  | cons x rest ih =>
    rw [List.foldlM_cons, bind_eq_ok] at h
    obtain ⟨mid, hx, hrest⟩ := h
    rw [List.flatMap_cons]
    exact (hf x hx).append (ih hrest)

theorem persist_log_stores {source : SourceRef} {options : PersistDecodedLogsOptions}
    {log : RpcLog × DecodedLog} {db db' : Db}
    (h : persist_log parseAmount source options db log = .ok db') :
    StoresEntries parseAmount source options (log.2.entries.map fun entry => (log.1, entry))
      db db' := by
  unfold persist_log at h
  rw [bind_eq_ok] at h
  obtain ⟨⟨event_id, mid⟩, hevent, hentries⟩ := h
  have hmid := upsert_event_frame hevent
  have hfirst : StoresEntries parseAmount source options [] db mid :=
    StoresEntries.of_eq (by rw [hmid])
  have hloop := foldlM_stores (fun entry => [(log.1, entry)])
    (fun entry _ _ => persist_entry_stores) hentries
  have hentries_eq : log.2.entries.flatMap (fun entry => [(log.1, entry)])
      = log.2.entries.map fun entry => (log.1, entry) := by
    induction log.2.entries with
    | nil => rfl
    | cons e es ih => rw [List.flatMap_cons, ih]; rfl
  rw [hentries_eq] at hloop
  exact hfirst.append hloop

/-- Persisting stores the entries of the logs, one after the other. -/
theorem persist_decoded_logs_rows {source : SourceRef} {options : PersistDecodedLogsOptions}
    {logs : List (RpcLog × DecodedLog)} {summary : ScanSummary} {db db' : Db}
    (h : persist_decoded_logs_with_options parseAmount db source logs options
      = .ok (summary, db')) :
    StoresEntries parseAmount source options (log_entries logs) db db' := by
  unfold persist_decoded_logs_with_options at h
  simp only [context_eq_ok, bind_eq_ok] at h
  obtain ⟨_, -, mid, hlogs, h⟩ := h
  cases h
  exact foldlM_stores (fun log => log.2.entries.map fun entry => (log.1, entry))
    (fun _ _ _ => persist_log_stores) hlogs

/-! ## The rows the loop leaves

With distinct keys, entries do not meet each other, and what is under the key of one after
the loop is what it made of the row that was there before.
-/

section Rows

variable {options : PersistDecodedLogsOptions} {source_id : Uuid}
  {rows vs rows' : List LedgerEntryRow}

/-- No two of the stored entries share a key. -/
def DistinctKeys (vs : List LedgerEntryRow) : Prop := vs.Pairwise fun a b => ¬ a.same_entry b = true

/-- A row is there from before, or under the key of a stored entry. -/
theorem StoredAs.mem (h : StoredAs options source_id rows vs rows') {r : LedgerEntryRow}
    (hr : r ∈ rows') : r ∈ rows ∨ ∃ v ∈ vs, v.same_entry r = true := by
  induction h with
  | nil => exact Or.inl hr
  | cons _ _ ih =>
    rcases ih hr with hr | ⟨v, hv, hvr⟩
    · rcases mem_store_entry hr with hr | hvr
      · exact Or.inl hr
      · exact Or.inr ⟨_, List.mem_cons_self .., hvr⟩
    · exact Or.inr ⟨v, List.mem_cons_of_mem _ hv, hvr⟩

/-- A row under a key that is not stored stays. -/
theorem StoredAs.mem_of_other (h : StoredAs options source_id rows vs rows') {r : LedgerEntryRow}
    (hr : r ∈ rows) (hother : ∀ v ∈ vs, ¬ v.same_entry r = true) : r ∈ rows' := by
  induction h with
  | nil => exact hr
  | cons _ _ ih =>
    refine ih (mem_store_entry_of_other hr (hother _ (List.mem_cons_self ..))) ?_
    exact fun v hv => hother v (List.mem_cons_of_mem _ hv)

/-- With distinct keys, each entry meets the row that was there from before. -/
theorem StoredAs.touched_mem (h : StoredAs options source_id rows vs rows')
    (hkeys : DistinctKeys vs) {v : LedgerEntryRow} (hv : v ∈ vs) :
    touched options rows v ∈ rows' ∧
      ∀ old, rows.find? v.same_entry = some old → old.source_id = source_id := by
  induction h with
  | nil => cases hv
  | @cons rows vs rows' values hmine hrest ih =>
    obtain ⟨hvalues, hkeys'⟩ := List.pairwise_cons.1 hkeys
    rcases List.mem_cons.1 hv with rfl | hv
    · refine ⟨hrest.mem_of_other (touched_mem_store_entry options rows v) ?_, hmine⟩
      intro w hw hsame
      exact hvalues w hw (same_entry_trans (touched_same_entry options rows v) (same_entry_symm hsame))
    · have hfind : (store_entry options rows values).find? v.same_entry
          = rows.find? v.same_entry := find?_store_entry_of_other (hvalues v hv)
      obtain ⟨hmem, hmine'⟩ := ih hkeys' hv
      unfold touched at hmem ⊢
      rw [hfind] at hmem hmine'
      exact ⟨hmem, hmine'⟩

end Rows

/-! ## When a replay leaves the canonical entries

After the orphaning no row of the range is active, so the active ones after the persist are
those the loop has touched. A touched row is the canonical entry if it was inserted, or if
the columns that an upsert keeps were already those of the entry. That the equivalence holds
also where the replay left a row outside the range is why the block number is among them.
-/

/-- The entries have distinct keys, and every row already stored under the key of
one of them has its block number, movement type, operator, parties and token id. -/
def KeptColumnsAgree (db : Db) (fresh : List LedgerEntryRow) : Prop :=
  DistinctKeys fresh ∧ ∀ f ∈ fresh, ∀ old ∈ db.ledger_entries.rows,
    f.same_entry old = true → old.kept = f.kept

/-- The compared columns are the key, the kept columns, and the two an upsert
overwrites. -/
theorem indexed_stored_iff {options : PersistDecodedLogsOptions} {v old : LedgerEntryRow}
    (hsame : v.same_entry old = true) :
    (v.stored options old).indexed = v.indexed ↔ old.kept = v.kept := by
  obtain ⟨-, h2, h3, h4⟩ := same_entry_iff.1 hsame
  have hstored : (v.stored options old).indexed = { old.indexed with
      block_hash := v.block_hash, amount := v.amount } := by
    unfold LedgerEntryRow.stored
    split <;> rfl
  rw [hstored]
  simp [LedgerEntryRow.indexed, LedgerEntryRow.kept, h2, h3, h4]

theorem same_entry_of_indexed {a b : LedgerEntryRow} (hchain : b.chain_id = a.chain_id)
    (h : b.indexed = a.indexed) : a.same_entry b = true := by
  simp only [LedgerEntryRow.indexed, IndexedEntry.mk.injEq] at h
  exact same_entry_iff.2 ⟨hchain, h.1, h.2.1, h.2.2.1⟩

theorem eq_of_same_entry (db : Db) {a b : LedgerEntryRow} (ha : a ∈ db.ledger_entries.rows)
    (hb : b ∈ db.ledger_entries.rows) (h : a.same_entry b = true) : a = b := by
  obtain ⟨h1, h2, h3, h4⟩ := same_entry_iff.1 h
  exact db.ledger_entries.eq_of_clash ha hb (Or.inr ⟨h1.symm, h2.symm, h3.symm, h4.symm⟩)

/-- The row found under a key is the one that has it. -/
theorem find?_same_entry (db : Db) {v old : LedgerEntryRow} (hold : old ∈ db.ledger_entries.rows)
    (h : v.same_entry old = true) : db.ledger_entries.rows.find? v.same_entry = some old := by
  refine (db.ledger_entries.find?_eq_some_iff ?_).2 ⟨hold, h⟩
  intro a ha b hb hva hvb
  rw [eq_of_same_entry db ha hb (same_entry_trans (same_entry_symm hva) hvb)]
  exact Schema.clash_refl b

/-- The active rows of a source in a range. -/
def Db.active_in (db : Db) (source_id : Uuid) (from_block to_block : Int) : List LedgerEntryRow :=
  db.ledger_entries.rows.filter (LedgerEntryRow.active_in source_id from_block to_block)

section Range

variable {source : SourceRef} {from_block to_block : Int} {db₁ db₂ : Db} {vs : List LedgerEntryRow}

/-- Where the range starts out empty, every active row of it was stored. -/
theorem active_in_stored {options : PersistDecodedLogsOptions}
    (hempty : db₁.active_in source.id from_block to_block = [])
    (hstored : StoredAs options source.id db₁.ledger_entries.rows vs db₂.ledger_entries.rows)
    {r : LedgerEntryRow} (hr : r ∈ db₂.active_in source.id from_block to_block) :
    ∃ v ∈ vs, v.same_entry r = true := by
  obtain ⟨hmem, hactive⟩ := List.mem_filter.1 hr
  rcases hstored.mem hmem with hold | hv
  · have hnone : r ∉ db₁.active_in source.id from_block to_block := by
      rw [hempty]
      exact List.not_mem_nil
    exact absurd (List.mem_filter.2 ⟨hold, hactive⟩) hnone
  · exact hv

/-- Storing entries with distinct keys leaves, in a range that was empty, the
rows the entries touched, where these lie in the range. -/
theorem active_in_perm_touched {options : PersistDecodedLogsOptions}
    (hempty : db₁.active_in source.id from_block to_block = [])
    (hstored : StoredAs options source.id db₁.ledger_entries.rows vs db₂.ledger_entries.rows)
    (hkeys : DistinctKeys vs)
    (hin : ∀ v ∈ vs, (touched options db₁.ledger_entries.rows v).active_in source.id from_block
      to_block = true) :
    (db₂.active_in source.id from_block to_block).Perm
      (vs.map (touched options db₁.ledger_entries.rows)) := by
  -- distinct keys touch distinct rows, so the lists can be compared as sets
  have hnodup : (vs.map (touched options db₁.ledger_entries.rows)).Nodup := by
    refine List.pairwise_map.2 (hkeys.imp ?_)
    intro a b hab heq
    have hb := touched_same_entry options db₁.ledger_entries.rows b
    rw [← heq] at hb
    exact hab (same_entry_trans (touched_same_entry options db₁.ledger_entries.rows a)
      (same_entry_symm hb))
  refine (List.perm_ext_iff_of_nodup (db₂.ledger_entries.nodup.filter _) hnodup).2 fun r => ?_
  constructor
  · -- a row of the range was stored now, as the range was empty
    intro hr
    obtain ⟨v, hv, hvr⟩ := active_in_stored hempty hstored hr
    have hmem := (hstored.touched_mem hkeys hv).1
    have hsame := same_entry_trans (same_entry_symm hvr)
      (touched_same_entry options db₁.ledger_entries.rows v)
    rw [eq_of_same_entry db₂ (List.mem_filter.1 hr).1 hmem hsame]
    exact List.mem_map_of_mem hv
  · intro hr
    obtain ⟨v, hv, rfl⟩ := List.mem_map.1 hr
    exact List.mem_filter.2 ⟨(hstored.touched_mem hkeys hv).1, hin v hv⟩

section Agree

variable {options : PersistDecodedLogsOptions}
  (hempty : db₁.active_in source.id from_block to_block = [])
  (hstored : StoredAs options source.id db₁.ledger_entries.rows vs db₂.ledger_entries.rows)
  (hvs : ∀ v ∈ vs, v.source_id = source.id ∧ v.chain_id = source.chain_id ∧ v.orphaned = false)

include hempty hstored hvs

/-- An active row of the range is on the chain of the source. -/
theorem active_in_chain_id {t : LedgerEntryRow}
    (ht : t ∈ db₂.active_in source.id from_block to_block) : t.chain_id = source.chain_id := by
  obtain ⟨v, hv, hvt⟩ := active_in_stored hempty hstored ht
  exact (same_entry_iff.1 hvt).1.trans (hvs v hv).2.1

/-- Two active rows of the range that agree on the compared columns are one row. -/
theorem active_in_indexed_inj {t u : LedgerEntryRow}
    (ht : t ∈ db₂.active_in source.id from_block to_block)
    (hu : u ∈ db₂.active_in source.id from_block to_block) (h : t.indexed = u.indexed) : t = u := by
  have hchain : u.chain_id = t.chain_id :=
    (active_in_chain_id hempty hstored hvs hu).trans (active_in_chain_id hempty hstored hvs ht).symm
  exact eq_of_same_entry db₂ (List.mem_filter.1 ht).1 (List.mem_filter.1 hu).1
    (same_entry_of_indexed hchain h.symm)

section Matched

variable (hperm : ((db₂.active_in source.id from_block to_block).map (·.indexed)).Perm
  (vs.map (·.indexed)))

include hperm

/-- The row of the range a stored entry is matched with is under its key. -/
theorem exists_matched {v : LedgerEntryRow} (hv : v ∈ vs) :
    ∃ t ∈ db₂.active_in source.id from_block to_block,
      t.indexed = v.indexed ∧ v.same_entry t = true := by
  obtain ⟨t, ht, hti⟩ := List.mem_map.1 (hperm.mem_iff.2 (List.mem_map_of_mem hv))
  have hchain : t.chain_id = v.chain_id :=
    (active_in_chain_id hempty hstored hvs ht).trans (hvs v hv).2.1.symm
  exact ⟨t, ht, hti, same_entry_of_indexed hchain hti⟩

/-- Entries that are matched with rows of a table have distinct keys. -/
theorem distinctKeys_of_matched : DistinctKeys vs := by
  have hnodup : (vs.map (·.indexed)).Nodup := by
    refine hperm.nodup_iff.1 (List.Nodup.map_on ?_ (db₂.ledger_entries.nodup.filter _))
    intro t ht u hu
    exact active_in_indexed_inj hempty hstored hvs ht hu
  refine List.Pairwise.imp_of_mem ?_ (List.pairwise_map.1 hnodup)
  intro v w hv hw hne hsame
  obtain ⟨t, ht, hti, hvt⟩ := exists_matched hempty hstored hvs hperm hv
  obtain ⟨u, hu, hui, hwu⟩ := exists_matched hempty hstored hvs hperm hw
  -- the two rows have one key, so they are one row, and the entries are equal
  have htu : t = u := eq_of_same_entry db₂ (List.mem_filter.1 ht).1 (List.mem_filter.1 hu).1
    (same_entry_trans (same_entry_symm hvt) (same_entry_trans hsame hwu))
  exact hne (hti.symm.trans (htu ▸ hui))

/-- A row that was stored under the key of a matched entry agreed with it on the
kept columns: the upsert has not changed them. -/
theorem kept_of_matched {v old : LedgerEntryRow} (hv : v ∈ vs) (hold : old ∈ db₁.ledger_entries.rows)
    (hsame : v.same_entry old = true) : old.kept = v.kept := by
  have hkeys := distinctKeys_of_matched hempty hstored hvs hperm
  obtain ⟨t, ht, hti, hvt⟩ := exists_matched hempty hstored hvs hperm hv
  have htouched := (hstored.touched_mem hkeys hv).1
  have ht_eq := eq_of_same_entry db₂ (List.mem_filter.1 ht).1 htouched
    (same_entry_trans (same_entry_symm hvt) (touched_same_entry _ _ v))
  unfold touched at ht_eq
  rw [find?_same_entry db₁ hold hsame] at ht_eq
  rw [← indexed_stored_iff hsame, ← hti, ht_eq]

end Matched

end Agree

/-- What a replay leaves under the key of an entry that agrees on the kept columns
is the entry, active and of the source. -/
theorem touched_agrees {v : LedgerEntryRow} (hsource : v.source_id = source.id)
    (hactive : v.orphaned = false)
    (hmine : ∀ old, db₁.ledger_entries.rows.find? v.same_entry = some old →
      old.source_id = source.id)
    (hkept : ∀ old ∈ db₁.ledger_entries.rows, v.same_entry old = true → old.kept = v.kept) :
    let row := touched { restore_orphaned_conflicts := true } db₁.ledger_entries.rows v
    row.indexed = v.indexed ∧ row.source_id = source.id ∧ row.orphaned = false := by
  unfold touched
  cases hfind : db₁.ledger_entries.rows.find? v.same_entry with
  | none => exact ⟨rfl, hsource, hactive⟩
  | some old =>
    have hsame : v.same_entry old = true := List.find?_some hfind
    have hmem := List.mem_of_find?_eq_some hfind
    refine ⟨(indexed_stored_iff hsame).2 (hkept old hmem hsame), ?_, ?_⟩
    · rw [LedgerEntryRow.stored_source_id]
      exact hmine old hfind
    · unfold LedgerEntryRow.stored
      by_cases ho : old.orphaned = true
      · simp [ho, LedgerEntryRow.set_orphaned]
      · simp [ho, LedgerEntryRow.on_conflict]

/-- Entries of the range that agree on the kept columns with what was stored are
what a replay leaves in the range. -/
theorem matched_of_kept
    (hempty : db₁.active_in source.id from_block to_block = [])
    (hstored : StoredAs { restore_orphaned_conflicts := true } source.id db₁.ledger_entries.rows vs
      db₂.ledger_entries.rows)
    (hvs : ∀ v ∈ vs, v.source_id = source.id ∧ v.chain_id = source.chain_id ∧ v.orphaned = false)
    (hblock : ∀ v ∈ vs, from_block ≤ v.block_number ∧ v.block_number ≤ to_block)
    (hkeys : DistinctKeys vs)
    (hkept : ∀ v ∈ vs, ∀ old ∈ db₁.ledger_entries.rows, v.same_entry old = true →
      old.kept = v.kept) :
    ((db₂.active_in source.id from_block to_block).map (·.indexed)).Perm (vs.map (·.indexed)) := by
  have hagrees := fun v hv => touched_agrees (hvs v hv).1 (hvs v hv).2.2
    (hstored.touched_mem hkeys hv).2 (hkept v hv)
  have hperm := active_in_perm_touched hempty hstored hkeys fun v hv => by
    obtain ⟨hindexed, hsource, hactive⟩ := hagrees v hv
    have hsame : (touched { restore_orphaned_conflicts := true } db₁.ledger_entries.rows
        v).block_number = v.block_number := congrArg IndexedEntry.block_number hindexed
    exact active_in_iff.2 ⟨hsource, hsame ▸ (hblock v hv).1, hsame ▸ (hblock v hv).2, hactive⟩
  refine (hperm.map _).trans ?_
  rw [List.map_map]
  exact List.Perm.of_eq (List.map_congr_left fun v hv => (hagrees v hv).1)

end Range

/-- Orphaning a range leaves no active row in it. -/
theorem active_in_orphaned {db db' : Db} {source : SourceRow} {from_block to_block : Int}
    {summary : OrphanRangeSummary}
    (h : orphan_source_range db source from_block to_block = .ok (summary, db')) :
    db'.active_in source.id from_block to_block = [] := by
  obtain ⟨mid, -, -, hrows, -⟩ := orphan_source_range_spec h
  refine List.filter_eq_nil_iff.2 fun r hr hactive => ?_
  rw [hrows] at hr
  refine ((Table.mem_filter_map_setRow fun old => ?_).1 (List.mem_filter.2 ⟨hr, hactive⟩)).2 hactive
  simp [LedgerEntryRow.active_in, LedgerEntryRow.set_orphaned]

/-- Orphaning keeps every row but its flag. -/
theorem mem_orphaned_iff {db db' : Db} {source : SourceRow} {from_block to_block : Int}
    {summary : OrphanRangeSummary}
    (h : orphan_source_range db source from_block to_block = .ok (summary, db'))
    {f : LedgerEntryRow} :
    (∀ old ∈ db'.ledger_entries.rows, f.same_entry old = true → old.kept = f.kept) ↔
      ∀ old ∈ db.ledger_entries.rows, f.same_entry old = true → old.kept = f.kept := by
  obtain ⟨mid, -, -, hrows, -⟩ := orphan_source_range_spec h
  have hflag : ∀ p old, (Table.setRow p (LedgerEntryRow.set_orphaned true) old).kept = old.kept ∧
      f.same_entry (Table.setRow p (LedgerEntryRow.set_orphaned true) old) = f.same_entry old :=
    fun p old => ⟨Table.setRow_keeps LedgerEntryRow.kept p old, Table.setRow_keeps f.same_entry p old⟩
  rw [hrows]
  constructor
  · intro hall old hold hsame
    obtain ⟨hkept, hkey⟩ := hflag (LedgerEntryRow.active_in source.id from_block to_block) old
    rw [← hkept]
    exact hall _ (List.mem_map_of_mem hold) (by rw [hkey]; exact hsame)
  · intro hall old hold hsame
    obtain ⟨row, hrow, rfl⟩ := List.mem_map.1 hold
    obtain ⟨hkept, hkey⟩ := hflag (LedgerEntryRow.active_in source.id from_block to_block) row
    rw [hkept]
    exact hall row hrow (by rw [← hkey]; exact hsame)

/-- The block number of a fresh row is the parsed block number of its log. -/
theorem fresh_block_number {source : SourceRef} {logs : List (RpcLog × DecodedLog)}
    {fresh : List LedgerEntryRow} (hfresh : fresh_rows parseAmount source logs = .ok fresh)
    {f : LedgerEntryRow} (hf : f ∈ fresh) :
    ∃ log ∈ logs, ∃ n, parse_hex_u64 log.1.block_number = .ok n ∧ f.block_number = as_i64 n := by
  obtain ⟨⟨log, entry⟩, hmem, hrow⟩ := exists_of_mapM_eq_ok hfresh hf
  obtain ⟨pair, hpair, hentry⟩ := List.mem_flatMap.1 hmem
  obtain ⟨e, -, he⟩ := List.mem_map.1 hentry
  cases he
  unfold new_ledger_entry_row at hrow
  simp only [bind_eq_ok] at hrow
  obtain ⟨_, -, n, hn, _, -, _, -, hf⟩ := hrow
  exact ⟨pair, hpair, n, hn, by rw [← Except.ok.inj hf]⟩

/-- A replay of logs of its range leaves their entries, as a fresh index stores
them, exactly where the rows it updates already agreed on the kept columns. -/
theorem replay_canonical_iff {db db₁ db₂ : Db} {source : SourceRow} {from_block to_block : Int}
    {logs : List (RpcLog × DecodedLog)} {orphaned : OrphanRangeSummary} {persisted : ScanSummary}
    (horphan : orphan_source_range db source from_block to_block = .ok (orphaned, db₁))
    (hpersist : persist_decoded_logs_with_options parseAmount db₁ source.from_source logs
      { restore_orphaned_conflicts := true } = .ok (persisted, db₂))
    (hrange : ∀ log ∈ logs, ∃ n, parse_hex_u64 log.1.block_number = .ok n ∧
      from_block ≤ as_i64 n ∧ as_i64 n ≤ to_block) :
    ∃ fresh, fresh_rows parseAmount source.from_source logs = .ok fresh ∧
      (((db₂.active_in source.id from_block to_block).map (·.indexed)).Perm
        (fresh.map (·.indexed)) ↔ KeptColumnsAgree db fresh) := by
  obtain ⟨vs, hvs, hfresh, hstored⟩ := persist_decoded_logs_rows hpersist
  have hempty := active_in_orphaned horphan
  refine ⟨_, hfresh, ?_⟩
  -- identifiers matter neither to what is compared nor to the keys
  have hindexed : (vs.map LedgerEntryRow.forget_ids).map (·.indexed) = vs.map (·.indexed) := by
    rw [List.map_map]
    exact List.map_congr_left fun v _ => rfl
  have hagree : KeptColumnsAgree db (vs.map LedgerEntryRow.forget_ids) ↔
      DistinctKeys vs ∧ ∀ v ∈ vs, ∀ old ∈ db₁.ledger_entries.rows,
        v.same_entry old = true → old.kept = v.kept := by
    unfold KeptColumnsAgree
    refine and_congr List.pairwise_map ?_
    rw [List.forall_mem_map]
    exact forall₂_congr fun v _ => (mem_orphaned_iff horphan (f := v)).symm
  rw [hindexed, hagree]
  have hblock : ∀ v ∈ vs, from_block ≤ v.block_number ∧ v.block_number ≤ to_block := by
    intro v hv
    obtain ⟨log, hlog, n, hn, hvn⟩ := fresh_block_number hfresh (List.mem_map_of_mem hv)
    obtain ⟨m, hm, hlow, hhigh⟩ := hrange log hlog
    rw [hn] at hm
    cases hm
    have hvn' : v.block_number = as_i64 n := hvn
    rw [hvn']
    exact ⟨hlow, hhigh⟩
  constructor
  · intro hperm
    exact ⟨distinctKeys_of_matched hempty hstored hvs hperm,
      fun v hv old hold => kept_of_matched hempty hstored hvs hperm hv hold⟩
  · rintro ⟨hkeys, hkept⟩
    exact matched_of_kept hempty hstored hvs hblock hkeys hkept

end Replay

/-! ## A transaction that a reorg moved -/

/-- The ledger of a mint in block 1. -/
def minted : Db :=
  (small_ledger [erc20_transfer "0x1" "0xb1" "0xd1" zero_address alice]).foldl
    (LedgerOp.commit plain_digits) Db.empty

/-- The canonical logs of blocks 1 to 2 after a reorg: the same transaction, now
in block 2. -/
def moved_mint : List (RpcLog × DecodedLog) :=
  [erc20_transfer "0x2" "0xb2" "0xd1" zero_address alice]

/-- Replaying blocks 1 to 2 of the minted ledger goes through, and the entry is
left in block 1. -/
theorem replay_moved_mint :
    ∃ orphaned db₁ persisted db₂,
      orphan_source_range minted small_source 1 2 = .ok (orphaned, db₁) ∧
      persist_decoded_logs_with_options plain_digits db₁ small_source.from_source moved_mint
        { restore_orphaned_conflicts := true } = .ok (persisted, db₂) ∧
      (db₂.active_in small_source.id 1 2).map (·.block_number) = [1] := by
  have hrun : (orphan_source_range minted small_source 1 2 >>= fun orphan =>
      (persist_decoded_logs_with_options plain_digits orphan.2 small_source.from_source moved_mint
        { restore_orphaned_conflicts := true }).map fun persist =>
          (persist.2.active_in small_source.id 1 2).map (·.block_number)) = .ok [1] := by
    decide +kernel
  simp only [bind_eq_ok, map_eq_ok] at hrun
  obtain ⟨⟨orphaned, db₁⟩, horphan, ⟨persisted, db₂⟩, hpersist, hblocks⟩ := hrun
  exact ⟨orphaned, db₁, persisted, db₂, horphan, hpersist, hblocks⟩

theorem moved_mint_in_range : ∀ log ∈ moved_mint, ∃ n, parse_hex_u64 log.1.block_number = .ok n ∧
    1 ≤ as_i64 n ∧ as_i64 n ≤ 2 := by
  intro log hlog
  rw [List.mem_singleton.1 hlog]
  exact ⟨2, by decide +kernel, by decide +kernel, by decide +kernel⟩

theorem replay_canonical_iff_moved_mint :
    ∃ (db₂ : Db) (fresh : List LedgerEntryRow),
      fresh_rows plain_digits small_source.from_source moved_mint = .ok fresh ∧
      (((db₂.active_in small_source.id 1 2).map (·.indexed)).Perm (fresh.map (·.indexed)) ↔
        KeptColumnsAgree minted fresh) := by
  obtain ⟨orphaned, db₁, persisted, db₂, horphan, hpersist, -⟩ := replay_moved_mint
  exact ⟨db₂, replay_canonical_iff horphan hpersist moved_mint_in_range⟩

/-- The entry of a transaction that a reorg moved keeps its old block. -/
theorem replay_keeps_block_of_moved_mint :
    ¬ ∀ (parseAmount : AmountParser) (db : Db), LedgerReachable parseAmount db →
      ∀ source ∈ db.sources.rows, ∀ (from_block to_block : Int) (logs : List (RpcLog × DecodedLog)),
        (logs.map fun log => (log.1.transaction_hash, log.1.log_index)).Nodup →
        (∀ log ∈ logs, ∃ n, parse_hex_u64 log.1.block_number = .ok n ∧
          from_block ≤ as_i64 n ∧ as_i64 n ≤ to_block) →
        ∀ orphaned db₁ persisted db₂,
          orphan_source_range db source from_block to_block = .ok (orphaned, db₁) →
          persist_decoded_logs_with_options parseAmount db₁ source.from_source logs
            { restore_orphaned_conflicts := true } = .ok (persisted, db₂) →
          ∃ fresh, fresh_rows parseAmount source.from_source logs = .ok fresh ∧
            ((db₂.active_in source.id from_block to_block).map (·.indexed)).Perm
              (fresh.map (·.indexed)) := by
  intro h
  obtain ⟨orphaned, db₁, persisted, db₂, horphan, hpersist, hblocks⟩ := replay_moved_mint
  obtain ⟨fresh, hfresh, hperm⟩ := h plain_digits minted (LedgerReachable.empty.commits _)
    small_source (by decide +kernel) 1 2 moved_mint (by decide +kernel) moved_mint_in_range
    orphaned db₁ persisted db₂ horphan hpersist
  have hfresh_blocks : (fresh_rows plain_digits small_source.from_source moved_mint).map
      (fun rows => rows.map (·.block_number)) = .ok [2] := by decide +kernel
  rw [hfresh] at hfresh_blocks
  have hfresh_blocks' : fresh.map (·.block_number) = [2] := Except.ok.inj hfresh_blocks
  have hperm_blocks := hperm.map IndexedEntry.block_number
  rw [List.map_map, List.map_map] at hperm_blocks
  have hcontra : [(1 : Int)].Perm [2] := by
    rw [← hblocks, ← hfresh_blocks']
    exact hperm_blocks
  exact absurd hcontra (by decide)

end EvmIndexer
