/-
The materialized balances are the ledger's.

No code recomputes a balance from `ledger_entries`: every write adds the
difference it makes. What has to hold is therefore a statement about sums. A
row of `ledger_entries` is a movement between two accounts, an account being a
holder and a token, and an active row moves its amount while an orphaned one
moves nothing. `Db.net` is the sum of what the active rows of a source move,
`Db.balance` is what `token_balances` says, and `Balanced` is their equality.

The file follows the code upwards. A delta map is worth the sum of its deltas
(`collect_balance_delta_worth`), applying it adds that worth to the balances
(`apply_balance_delta_spec`), upserting a row changes the net by the same amount
(`upsert_ledger_entry_spec`), and so each of the transactions keeps `Balanced`.
-/
import EvmIndexer.LedgerRepository
import EvmIndexer.Lib.Bookkeeping

set_option autoImplicit false

namespace EvmIndexer

open Sql Bookkeeping

/-! ## What the tables say of an account

An account is a holder and a token. What the ledger says of it is a sum over rows, and what
`token_balances` says of it is a sum as well, over the at most one row there is. In this form
both change by what one row contributes, and neither cares for the order of rows.
-/

/-- An account of a source: a holder address and a token id. -/
abbrev Account : Type := String × String

/-- What a ledger row moves, and between which accounts. -/
def LedgerEntryRow.movement (row : LedgerEntryRow) : Movement Account :=
  { debited := row.from_address.map fun holder => (holder, row.token_id)
    credited := row.to_address.map fun holder => (holder, row.token_id)
    amount := row.amount }

/-- What a row contributes to the balances of its source: nothing once orphaned. -/
def LedgerEntryRow.contribution (row : LedgerEntryRow) (a : Account) : Int :=
  if row.orphaned then 0 else row.movement.effect a

/-- The non-orphaned rows of a source. -/
def Db.active_entries (db : Db) (source_id : Uuid) : List LedgerEntryRow :=
  db.ledger_entries.rows.filter fun r => r.source_id == source_id && !r.orphaned

/-- The net of the non-orphaned rows of a source on an account. -/
def Db.net (db : Db) (source_id : Uuid) (a : Account) : Int :=
  Bookkeeping.net ((db.active_entries source_id).map (·.movement)) a

/-- The balance `token_balances` holds for an account, `0` when it has no row. -/
def Db.balance (db : Db) (source_id : Uuid) (a : Account) : Int :=
  ((db.token_balances.rows.find? (TokenBalanceRow.of_holder source_id a.1 a.2)).map
    (·.balance)).getD 0

/-- Every balance is the net of the active rows. -/
def Balanced (db : Db) : Prop := ∀ source_id a, db.balance source_id a = db.net source_id a

/-- The net as a sum over the whole table, the form the updates act on. -/
theorem net_eq_sum (db : Db) (source_id : Uuid) (a : Account) :
    db.net source_id a
      = (db.ledger_entries.rows.map fun r =>
          if r.source_id = source_id then r.contribution a else 0).sum := by
  unfold Db.net Db.active_entries
  induction db.ledger_entries.rows with
  | nil => rfl
  | cons r rs ih =>
    rw [List.map_cons, List.sum_cons, ← ih, List.filter_cons]
    unfold LedgerEntryRow.contribution
    by_cases hs : r.source_id = source_id <;> by_cases ho : r.orphaned = true <;>
      simp [hs, ho]

theorem of_holder_iff {source_id : Uuid} {holder_address token_id : String} {r : TokenBalanceRow} :
    r.of_holder source_id holder_address token_id = true ↔
      r.source_id = source_id ∧ r.holder_address = holder_address ∧ r.token_id = token_id := by
  simp [TokenBalanceRow.of_holder, and_assoc]

theorem of_holder_clash {source_id : Uuid} {a : Account} (r s : TokenBalanceRow)
    (hr : r.of_holder source_id a.1 a.2 = true) (hs : s.of_holder source_id a.1 a.2 = true) :
    Schema.Clash r s := by
  obtain ⟨r1, r2, r3⟩ := of_holder_iff.1 hr
  obtain ⟨s1, s2, s3⟩ := of_holder_iff.1 hs
  exact Or.inr ⟨r1.trans s1.symm, r2.trans s2.symm, r3.trans s3.symm⟩

/-- The balance as a sum over the whole table. -/
theorem balance_eq_sum (db : Db) (source_id : Uuid) (a : Account) :
    db.balance source_id a
      = (db.token_balances.rows.map fun r =>
          if r.of_holder source_id a.1 a.2 then r.balance else 0).sum :=
  db.token_balances.find?_getD_eq_sum (·.balance) of_holder_clash

/-! ## What a delta map is worth

A delta map is a list of accounts with what is to be added. Collecting one row can touch one
entry twice, where a holder sends to itself. What counts is the sum for an account, its
worth: a modification of an entry adds to it what the modification adds.
-/

/-- The sum of the deltas of one account. -/
def worth (deltas : BalanceDeltas) (a : Account) : Int :=
  (deltas.map fun d => if d.1 = a then d.2.balance_delta else 0).sum

theorem worth_perm {ds es : BalanceDeltas} (h : ds.Perm es) (a : Account) : worth ds a = worth es a :=
  (h.map _).sum_eq

/-- A modified entry is worth what its modification adds. -/
theorem entry_or_default_worth (deltas : BalanceDeltas) (key : Account)
    (f : BalanceDelta → BalanceDelta) (x : Int)
    (hf : ∀ d, (f d).balance_delta = d.balance_delta + x) (a : Account) :
    worth (entry_or_default deltas key f) a = worth deltas a + if key = a then x else 0 := by
  unfold worth
  induction deltas with
  | nil => simp [entry_or_default, hf, BalanceDelta.default]
  | cons d rest ih =>
    obtain ⟨k, delta⟩ := d
    by_cases hk : k = key
    · subst hk
      simp only [entry_or_default, if_true, List.map_cons, List.sum_cons, hf]
      by_cases ha : k = a
      · simp only [if_pos ha]
        ring
      · simp only [if_neg ha]
        ring
    · simp only [entry_or_default, if_neg hk, List.map_cons, List.sum_cons, ih]
      ring

/-- The same for one end of a row, which is where a movement's end is absent. -/
theorem collect_party_worth (deltas : BalanceDeltas) (party : Option String) (token_id : String)
    (f : BalanceDelta → BalanceDelta) (x : Int)
    (hf : ∀ d, (f d).balance_delta = d.balance_delta + x) (a : Account) :
    worth (collect_party deltas party token_id f) a
      = worth deltas a + if party.map (fun holder => (holder, token_id)) = some a then x else 0 := by
  cases party with
  | none => simp [collect_party]
  | some holder => simp [collect_party, entry_or_default_worth _ _ _ _ hf]

/-- Collecting a row adds its effect, or takes it off when reversing. -/
theorem collect_balance_delta_worth (deltas : BalanceDeltas) (row : LedgerEntryRow)
    (reverse : Bool) (a : Account) :
    worth (collect_balance_delta deltas row reverse) a
      = worth deltas a + if reverse then -row.movement.effect a else row.movement.effect a := by
  have hdebit : ∀ d : BalanceDelta, (d.debit row reverse).balance_delta
      = d.balance_delta + -(if reverse then -row.amount else row.amount) := by
    intro d
    simp [BalanceDelta.debit, sub_eq_add_neg]
  have hcredit : ∀ d : BalanceDelta, (d.credit row reverse).balance_delta
      = d.balance_delta + (if reverse then -row.amount else row.amount) := by
    intro d
    simp [BalanceDelta.credit]
  unfold collect_balance_delta
  rw [collect_party_worth _ _ _ _ _ hcredit, collect_party_worth _ _ _ _ _ hdebit]
  by_cases hf : row.from_address.map (fun holder => (holder, row.token_id)) = some a <;>
    by_cases ht : row.to_address.map (fun holder => (holder, row.token_id)) = some a <;>
      cases reverse <;> simp [Movement.effect, LedgerEntryRow.movement, hf, ht]

/-- The deltas of replacing `previous` by `current` are worth the difference of
their contributions. -/
theorem balance_deltas_worth (previous : Option LedgerEntryRow) (current : LedgerEntryRow)
    (a : Account) :
    worth (balance_deltas previous current) a
      = current.contribution a - ((previous.map (·.contribution a)).getD 0) := by
  have hnil : worth [] a = 0 := rfl
  unfold balance_deltas LedgerEntryRow.contribution
  cases previous with
  | none =>
    by_cases hc : current.orphaned = true
    · simp [hc, hnil]
    · simp [hc, collect_balance_delta_worth, hnil]
  | some previous =>
    by_cases hc : current.orphaned = true <;> by_cases hp : previous.orphaned = true <;>
      simp [hc, hp, collect_balance_delta_worth, hnil, add_comm, sub_eq_add_neg]

/-! ## Applying a delta map

Each delta is one statement: it adds to the row of the holder, or inserts one, and it is
refused where the result would be negative. That a delta went through is known from the call
having returned; then the balances have moved by the worth of the map, and no other table was
written.
-/

/-- Nothing but `token_balances` (and the uuids drawn for its rows) has moved. -/
structure OnlyBalances (db db' : Db) : Prop where
  sources : db'.sources = db.sources
  checkpoints : db'.checkpoints = db.checkpoints
  events : db'.events = db.events
  ledger_entries : db'.ledger_entries = db.ledger_entries
  jobs : db'.jobs = db.jobs
  job_attempts : db'.job_attempts = db.job_attempts

theorem OnlyBalances.refl (db : Db) : OnlyBalances db db := ⟨rfl, rfl, rfl, rfl, rfl, rfl⟩

theorem OnlyBalances.trans {a b c : Db} (h : OnlyBalances a b) (k : OnlyBalances b c) :
    OnlyBalances a c :=
  ⟨k.sources.trans h.sources, k.checkpoints.trans h.checkpoints, k.events.trans h.events,
    k.ledger_entries.trans h.ledger_entries, k.jobs.trans h.jobs,
    k.job_attempts.trans h.job_attempts⟩

/-- A net only reads `ledger_entries`. -/
theorem net_congr {db db' : Db} (h : db'.ledger_entries = db.ledger_entries) (source_id : Uuid)
    (a : Account) : db'.net source_id a = db.net source_id a := by
  unfold Db.net Db.active_entries
  rw [h]

/-- A balance only reads `token_balances`. -/
theorem balance_congr {db db' : Db} (h : db'.token_balances = db.token_balances)
    (source_id : Uuid) (a : Account) : db'.balance source_id a = db.balance source_id a := by
  unfold Db.balance
  rw [h]

/-- One delta moves one balance, and only where the result is not negative. -/
theorem apply_holder_balance_delta_spec {db db' : Db} {source : SourceRef} {key : Account}
    {delta : BalanceDelta}
    (h : apply_holder_balance_delta db source key.1 key.2 delta = .ok db') :
    OnlyBalances db db' ∧ ∀ source_id a, db'.balance source_id a
      = db.balance source_id a
        + if source_id = source.id ∧ key = a then delta.balance_delta else 0 := by
  unfold apply_holder_balance_delta at h
  simp only [bail_eq_ok] at h
  obtain ⟨hnonneg, h⟩ := h
  -- the update and the insert are the two ways to store the new balance
  cases hfind : db.token_balances.rows.find? (TokenBalanceRow.of_holder source.id key.1 key.2) with
  | some old =>
    rw [hfind] at h
    simp only [bind_eq_ok, db_result_eq_ok] at h
    obtain ⟨token_balances, hupdate, hdb⟩ := h
    cases hdb
    refine ⟨⟨rfl, rfl, rfl, rfl, rfl, rfl⟩, fun source_id a => ?_⟩
    have hold : old ∈ db.token_balances.rows := List.mem_of_find?_eq_some hfind
    have hkey := of_holder_iff.1 (List.find?_some hfind)
    have hrows := Table.update_eq_replace hupdate (x := old) (by simp)
      (fun r hr hid => db.token_balances.eq_of_clash hr hold (Or.inl (by simpa using hid)))
    rw [balance_eq_sum, balance_eq_sum, hrows,
      sum_replaceRow _ db.token_balances.nodup hold]
    simp only [of_holder_iff, Option.map_some, Option.getD_some]
    obtain ⟨h1, h2, h3⟩ := hkey
    by_cases ha : source_id = source.id ∧ key = a
    · obtain ⟨rfl, rfl⟩ := ha
      simp only [h1, h2, h3, and_self, if_true]
      ring
    · have hne : ¬ (old.source_id = source_id ∧ old.holder_address = a.1 ∧ old.token_id = a.2) := by
        rintro ⟨e1, e2, e3⟩
        exact ha ⟨e1.symm.trans h1, Prod.ext (h2.symm.trans e2) (h3.symm.trans e3)⟩
      rw [if_neg hne, if_neg hne, if_neg ha]
      ring
  | none =>
    rw [hfind] at h
    have hzero : db.balance source.id key = 0 := by
      simp [Db.balance, hfind]
    by_cases hnext : delta.balance_delta = 0
    · simp only [Option.map_none, Option.getD_none, hnext, add_zero, if_true] at h
      cases h
      exact ⟨OnlyBalances.refl db, fun source_id a => by simp [hnext]⟩
    · simp only [Option.map_none, Option.getD_none, zero_add, if_neg hnext, bind_eq_ok,
        db_result_eq_ok] at h
      obtain ⟨token_balances, hinsert, hdb⟩ := h
      cases hdb
      refine ⟨⟨rfl, rfl, rfl, rfl, rfl, rfl⟩, fun source_id a => ?_⟩
      rw [balance_eq_sum, balance_eq_sum, (Table.insert_eq_some.1 hinsert).2]
      simp only [List.map_append, List.sum_append, List.map_cons, List.map_nil, List.sum_cons,
        List.sum_nil, add_zero, of_holder_iff]
      by_cases ha : source_id = source.id ∧ key = a
      · obtain ⟨rfl, rfl⟩ := ha
        simp
      · have hne : ¬ (source.id = source_id ∧ key.1 = a.1 ∧ key.2 = a.2) := by
          rintro ⟨e1, e2, e3⟩
          exact ha ⟨e1.symm, Prod.ext e2 e3⟩
        rw [if_neg hne, if_neg ha]

/-- Applying deltas one after the other adds what they are worth. -/
theorem apply_deltas_spec {source : SourceRef} {deltas : BalanceDeltas} :
    ∀ {db db' : Db}, deltas.foldlM (fun db delta =>
        apply_holder_balance_delta db source delta.1.1 delta.1.2 delta.2) db = .ok db' →
      OnlyBalances db db' ∧ ∀ source_id a, db'.balance source_id a
        = db.balance source_id a + if source_id = source.id then worth deltas a else 0 := by
  induction deltas with
  | nil =>
    intro db db' h
    simp only [List.foldlM_nil, pure_eq_ok] at h
    subst h
    exact ⟨OnlyBalances.refl db, fun source_id a => by simp [worth]⟩
  | cons d rest ih =>
    intro db db' h
    rw [List.foldlM_cons, bind_eq_ok] at h
    obtain ⟨mid, hd, hrest⟩ := h
    obtain ⟨hframe₁, hbal₁⟩ := apply_holder_balance_delta_spec hd
    obtain ⟨hframe₂, hbal₂⟩ := ih hrest
    refine ⟨hframe₁.trans hframe₂, fun source_id a => ?_⟩
    rw [hbal₂, hbal₁]
    unfold worth
    by_cases hs : source_id = source.id
    · simp only [hs, true_and, if_true, List.map_cons, List.sum_cons]
      ring
    · simp [hs]

/-- `apply_balance_delta` moves every balance by the difference the replacement
of `previous` by `current` makes to the net. -/
theorem apply_balance_delta_spec {db db' : Db} {source : SourceRef}
    {previous : Option LedgerEntryRow} {current : LedgerEntryRow}
    (h : apply_balance_delta db source previous current = .ok db') :
    OnlyBalances db db' ∧ ∀ source_id a, db'.balance source_id a = db.balance source_id a
      + if source_id = source.id
        then current.contribution a - (previous.map (·.contribution a)).getD 0 else 0 := by
  obtain ⟨hframe, hbal⟩ := apply_deltas_spec h
  refine ⟨hframe, fun source_id a => ?_⟩
  rw [hbal, worth_perm (List.perm_insertionSort _ _), balance_deltas_worth]

/-! ## Upserting a ledger entry

The insert conflicts on the chain, the transaction hash and the two indices. A conflict
overwrites the amount, the hash and the time of the row, clears the mark where the caller
restores, and leaves the rest; `LedgerEntryRow.stored` is the row it leaves.
-/

section Upsert

variable {parseAmount : AmountParser}

theorem at_key_iff {chain_id : Int} {transaction_hash : String} {log_index batch_index : Int}
    {r : LedgerEntryRow} :
    r.at_key chain_id transaction_hash log_index batch_index = true ↔
      r.chain_id = chain_id ∧ r.transaction_hash = transaction_hash ∧
        r.log_index = log_index ∧ r.batch_index = batch_index := by
  simp [LedgerEntryRow.at_key, and_assoc]

/-- The row an upsert leaves where `old` was stored. -/
def LedgerEntryRow.stored (options : PersistDecodedLogsOptions) (values old : LedgerEntryRow) :
    LedgerEntryRow :=
  if options.restore_orphaned_conflicts && old.orphaned then
    (values.on_conflict old).set_orphaned false
  else values.on_conflict old

theorem LedgerEntryRow.stored_source_id (options : PersistDecodedLogsOptions)
    (values old : LedgerEntryRow) : (values.stored options old).source_id = old.source_id := by
  unfold LedgerEntryRow.stored
  split <;> rfl

/-- The proposed row carries the key the conflict is looked up by. -/
theorem new_ledger_entry_row_key {id event_id : Uuid} {source : SourceRef} {log : RpcLog}
    {entry : DecodedLedgerEntry} {values : LedgerEntryRow}
    (h : new_ledger_entry_row parseAmount id source log event_id entry = .ok values) :
    values.source_id = source.id ∧ values.orphaned = false ∧
      ∃ log_index, parse_hex_u64 log.log_index = .ok log_index ∧
        values.same_entry = LedgerEntryRow.at_key source.chain_id
          (to_ascii_lowercase log.transaction_hash) (as_i32 log_index) entry.batch_index := by
  unfold new_ledger_entry_row at h
  simp only [bind_eq_ok] at h
  obtain ⟨amount, -, block_number, -, transaction_index, -, log_index, hlog, hv⟩ := h
  cases hv
  refine ⟨rfl, rfl, log_index, hlog, ?_⟩
  funext r
  rw [LedgerEntryRow.same_entry]

/-- An upsert appends the proposed row, or replaces the row found under its key
by `LedgerEntryRow.stored`. -/
theorem upsert_ledger_entry_spec {db db' : Db} {source : SourceRef} {log : RpcLog}
    {event_id : Uuid} {entry : DecodedLedgerEntry} {options : PersistDecodedLogsOptions}
    {previous : Option LedgerEntryRow} {row : LedgerEntryRow}
    (hprev : lock_existing_ledger_entry db source log entry.batch_index = .ok previous)
    (h : upsert_ledger_entry parseAmount db source log event_id entry options = .ok (row, db')) :
    ∃ values ledger_entries,
      new_ledger_entry_row parseAmount db.next_uuid source log event_id entry = .ok values ∧
      Schema.Check values ∧
      db' = { db with next_uuid := db.next_uuid + 1, ledger_entries } ∧
      previous = db.ledger_entries.rows.find? values.same_entry ∧
      ((previous = none ∧ row = values ∧
          ledger_entries.rows = db.ledger_entries.rows ++ [values]) ∨
        (∃ old, previous = some old ∧ old ∈ db.ledger_entries.rows ∧
          values.same_entry old = true ∧ row = values.stored options old ∧
          ledger_entries.rows = replaceRow old row db.ledger_entries.rows)) := by
  unfold upsert_ledger_entry at h
  simp only [bind_eq_ok, db_result_eq_ok] at h
  obtain ⟨values, hvalues, ⟨stored, ledger_entries⟩, hupsert, h⟩ := h
  obtain ⟨-, hactive, log_index, hlog, hkey⟩ := new_ledger_entry_row_key hvalues
  have hfound : previous = db.ledger_entries.rows.find? values.same_entry := by
    unfold lock_existing_ledger_entry at hprev
    rw [bind_eq_ok] at hprev
    obtain ⟨_, hlog', hfind⟩ := hprev
    rw [hlog] at hlog'
    cases hlog'
    cases hfind
    rw [hkey]
  subst hfound
  obtain ⟨hcheck, ⟨old, hfind, rfl, hupdate⟩ | ⟨hfind, rfl, hinsert⟩⟩ := Table.upsert_eq_some hupsert
  · have hold : old ∈ db.ledger_entries.rows := List.mem_of_find?_eq_some hfind
    have hsame : values.same_entry old = true := List.find?_some hfind
    -- only `old` is stored under the key of `values`
    have honly : ∀ r ∈ db.ledger_entries.rows, values.same_entry r = true → r = old := by
      intro r hr hr'
      obtain ⟨a1, a2, a3, a4⟩ := at_key_iff.1 hr'
      obtain ⟨b1, b2, b3, b4⟩ := at_key_iff.1 hsame
      exact db.ledger_entries.eq_of_clash hr hold (Or.inr ⟨a1.trans b1.symm, a2.trans b2.symm,
        a3.trans b3.symm, a4.trans b4.symm⟩)
    have hrows := Table.update_eq_replace hupdate hsame honly
    have hmem : values.on_conflict old ∈ ledger_entries.rows := by
      rw [hrows, mem_replaceRow hold]
      exact Or.inl rfl
    by_cases hrestore : (options.restore_orphaned_conflicts && old.orphaned) = true
    · have hrestore' : (options.restore_orphaned_conflicts
          && (values.on_conflict old).orphaned) = true := hrestore
      simp only [hrestore', if_true, bind_eq_ok, db_result_eq_ok] at h
      obtain ⟨restored, hset, h⟩ := h
      cases h
      have hset' := Table.update_eq_replace hset (x := values.on_conflict old) (by simp)
        (fun r hr hid => ledger_entries.eq_of_clash hr hmem (Or.inl (by simpa using hid)))
      have hstored : values.stored options old = (values.on_conflict old).set_orphaned false :=
        if_pos hrestore
      refine ⟨values, restored, hvalues, hcheck, rfl, rfl, Or.inr ⟨old, hfind, hold, hsame,
        hstored.symm, ?_⟩⟩
      rw [hset', hrows, replaceRow_replaceRow]
      intro hin
      exact db.ledger_entries.eq_of_clash hin hold (Or.inl rfl)
    · have hrestore' : ¬ (options.restore_orphaned_conflicts
          && (values.on_conflict old).orphaned) = true := hrestore
      simp only [hrestore'] at h
      cases h
      have hstored : values.stored options old = values.on_conflict old := if_neg hrestore
      exact ⟨values, ledger_entries, hvalues, hcheck, rfl, rfl, Or.inr ⟨old, hfind, hold, hsame,
        hstored.symm, hrows⟩⟩
  · have hrestore : ¬ (options.restore_orphaned_conflicts && stored.orphaned) = true := by
      simp [hactive]
    simp only [hrestore] at h
    cases h
    exact ⟨row, ledger_entries, hvalues, hcheck, rfl, rfl,
      Or.inl ⟨hfind, rfl, (Table.insert_eq_some.1 hinsert).2⟩⟩

end Upsert

/-! ## Every transaction keeps the books

`KeepsBooks` compares the change of the balances with the change of the nets, without
assuming that they were equal before. So it composes, and the loops of the transactions are
composed of it.
-/

/-- The balances moved by exactly what the net moved by. -/
def KeepsBooks (db db' : Db) : Prop := ∀ source_id a,
  db'.balance source_id a - db'.net source_id a = db.balance source_id a - db.net source_id a

theorem KeepsBooks.refl (db : Db) : KeepsBooks db db := fun _ _ => rfl

theorem KeepsBooks.trans {a b c : Db} (h : KeepsBooks a b) (k : KeepsBooks b c) : KeepsBooks a c :=
  fun source_id acc => (k source_id acc).trans (h source_id acc)

/-- Writes to the other tables keep the books. -/
theorem KeepsBooks.of_eq {db db' : Db} (hledger : db'.ledger_entries = db.ledger_entries)
    (hbalances : db'.token_balances = db.token_balances) : KeepsBooks db db' := by
  intro source_id a
  rw [net_congr hledger, balance_congr hbalances]

theorem Balanced.of_keepsBooks {db db' : Db} (h : Balanced db) (k : KeepsBooks db db') :
    Balanced db' := by
  intro source_id a
  have hdiff := k source_id a
  rw [h source_id a] at hdiff
  omega

section Persist

variable {parseAmount : AmountParser} {db db' : Db} {source : SourceRef}
  {options : PersistDecodedLogsOptions}

/-- What persisting an entry did: it found no row of another source, upserted its
row and applied the difference to the balances. -/
theorem persist_entry_spec {log : RpcLog} {event_id : Uuid} {entry : DecodedLedgerEntry}
    (h : persist_entry parseAmount source log event_id options db entry = .ok db') :
    ∃ previous current mid,
      lock_existing_ledger_entry db source log entry.batch_index = .ok previous ∧
      (∀ old, previous = some old → old.source_id = source.id) ∧
      upsert_ledger_entry parseAmount db source log event_id entry options = .ok (current, mid) ∧
      apply_balance_delta mid source previous current = .ok db' := by
  unfold persist_entry at h
  rw [bind_eq_ok] at h
  obtain ⟨previous, hprev, h⟩ := h
  rw [bail_eq_ok, bind_eq_ok] at h
  obtain ⟨hmine, ⟨current, mid⟩, hupsert, happly⟩ := h
  refine ⟨previous, current, mid, hprev, ?_, hupsert, happly⟩
  rintro old rfl
  simpa using hmine

theorem persist_entry_keepsBooks {log : RpcLog} {event_id : Uuid} {entry : DecodedLedgerEntry}
    (h : persist_entry parseAmount source log event_id options db entry = .ok db') :
    KeepsBooks db db' := by
  obtain ⟨previous, current, mid, hprev, hmine, hupsert, happly⟩ := persist_entry_spec h
  obtain ⟨hframe, hbal⟩ := apply_balance_delta_spec happly
  obtain ⟨values, ledger_entries, hvalues, -, hmid, -, hrows⟩ :=
    upsert_ledger_entry_spec hprev hupsert
  obtain ⟨hsource, -, -⟩ := new_ledger_entry_row_key hvalues
  intro source_id a
  have hmid_balance : mid.balance source_id a = db.balance source_id a :=
    balance_congr (by rw [hmid]) source_id a
  rw [hbal, hmid_balance, net_congr hframe.ledger_entries, net_eq_sum, net_eq_sum db, hmid]
  rcases hrows with ⟨rfl, rfl, hrows⟩ | ⟨old, rfl, hold, -, rfl, hrows⟩
  · -- a new row: the net gains its contribution, and so does the balance
    simp only [hrows, List.map_append, List.sum_append, List.map_cons, List.map_nil,
      List.sum_cons, List.sum_nil, hsource, Option.map_none, Option.getD_none]
    by_cases hs : source.id = source_id
    · rw [if_pos hs, if_pos hs.symm]
      omega
    · rw [if_neg hs, if_neg (fun e => hs e.symm)]
      omega
  · -- a stored row: both lose what the old row contributed and gain what the new one does
    have hold_source : old.source_id = source.id := hmine old rfl
    rw [hrows, sum_replaceRow _ db.ledger_entries.nodup hold]
    simp only [LedgerEntryRow.stored_source_id, hold_source, Option.map_some, Option.getD_some]
    by_cases hs : source.id = source_id
    · rw [if_pos hs, if_pos hs, if_pos hs.symm]
      omega
    · rw [if_neg hs, if_neg hs, if_neg (fun e => hs e.symm)]
      omega

/-- Persisting an event writes no ledger entry and no balance. -/
theorem upsert_event_frame {log : RpcLog} {decoded : DecodedLog} {event_id : Uuid}
    (h : upsert_event db source log decoded options = .ok (event_id, db')) :
    db' = { db with next_uuid := db.next_uuid + 1, events := db'.events } := by
  unfold upsert_event at h
  simp only [bind_eq_ok, db_result_eq_ok] at h
  obtain ⟨values, -, ⟨row, events⟩, -, h⟩ := h
  split at h
  · simp only [bind_eq_ok, db_result_eq_ok] at h
    obtain ⟨restored, -, h⟩ := h
    cases h
    rfl
  · cases h
    rfl

/-- Persisting logs writes events and persists entries, so it makes a change that
both make, if such changes compose. -/
theorem persist_decoded_logs_relates {R : Db → Db → Prop} (hrefl : ∀ s, R s s)
    (htrans : ∀ {a b c}, R a b → R b c → R a c)
    (hevents : ∀ s events, R s { s with next_uuid := s.next_uuid + 1, events })
    (hentry : ∀ {log event_id entry s t},
      persist_entry parseAmount source log event_id options s entry = .ok t → R s t)
    {logs : List (RpcLog × DecodedLog)} {summary : ScanSummary}
    (h : persist_decoded_logs_with_options parseAmount db source logs options
      = .ok (summary, db')) : R db db' := by
  unfold persist_decoded_logs_with_options at h
  simp only [context_eq_ok, bind_eq_ok] at h
  obtain ⟨_, -, mid, hlogs, h⟩ := h
  cases h
  refine foldlM_relates hrefl htrans ?_ hlogs
  intro log _ s t hlog
  unfold persist_log at hlog
  rw [bind_eq_ok] at hlog
  obtain ⟨⟨event_id, u⟩, hevent, hentries⟩ := hlog
  have hfirst : R s u := upsert_event_frame hevent ▸ hevents s u.events
  exact htrans hfirst (foldlM_relates hrefl htrans (fun _ _ _ _ => hentry) hentries)

theorem persist_decoded_logs_keepsBooks {logs : List (RpcLog × DecodedLog)} {summary : ScanSummary}
    (h : persist_decoded_logs_with_options parseAmount db source logs options
      = .ok (summary, db')) : KeepsBooks db db' :=
  persist_decoded_logs_relates KeepsBooks.refl KeepsBooks.trans
    (fun _ _ => KeepsBooks.of_eq rfl rfl) persist_entry_keepsBooks h

end Persist

/-! ## Orphaning a range

The rows are selected, reversed one after the other and then marked by one statement. The
reversal and the mark are tied by the predicate alone, which is the same in both: what is
marked is what was selected, as long as nobody writes in between.
-/

theorem active_in_iff {source_id : Uuid} {from_block to_block : Int} {r : LedgerEntryRow} :
    r.active_in source_id from_block to_block = true ↔
      r.source_id = source_id ∧ from_block ≤ r.block_number ∧ r.block_number ≤ to_block ∧
        r.orphaned = false := by
  simp [LedgerEntryRow.active_in, and_assoc]

/-- An orphaned row contributes nothing. -/
@[simp] theorem contribution_set_orphaned (r : LedgerEntryRow) (a : Account) :
    (r.set_orphaned true).contribution a = 0 := by
  simp [LedgerEntryRow.contribution, LedgerEntryRow.set_orphaned]

/-- Reversing rows takes their contributions off the balances. -/
theorem reverse_entries_spec {source : SourceRef} {rows : List LedgerEntryRow} {db db' : Db}
    (h : rows.foldlM (reverse_entry source) db = .ok db') :
    OnlyBalances db db' ∧ ∀ source_id a, db'.balance source_id a = db.balance source_id a
      - if source_id = source.id then (rows.map (·.contribution a)).sum else 0 := by
  induction rows generalizing db with
  | nil =>
    rw [List.foldlM_nil, pure_eq_ok] at h
    subst h
    exact ⟨OnlyBalances.refl db, fun source_id a => by simp⟩
  | cons row rest ih =>
    rw [List.foldlM_cons, bind_eq_ok] at h
    obtain ⟨mid, hrow, hrest⟩ := h
    obtain ⟨hframe₁, hbal₁⟩ := apply_balance_delta_spec hrow
    obtain ⟨hframe₂, hbal₂⟩ := ih hrest
    refine ⟨hframe₁.trans hframe₂, fun source_id a => ?_⟩
    rw [hbal₂, hbal₁]
    by_cases hs : source_id = source.id
    · simp only [if_pos hs, contribution_set_orphaned, Option.map_some, Option.getD_some,
        List.map_cons, List.sum_cons]
      omega
    · simp only [if_neg hs]
      omega

/-- What `orphan_source_range` did when it committed. -/
theorem orphan_source_range_spec {db db' : Db} {source : SourceRow} {from_block to_block : Int}
    {summary : OrphanRangeSummary}
    (h : orphan_source_range db source from_block to_block = .ok (summary, db')) :
    ∃ mid, (active_rows_in db source.id from_block to_block).foldlM
        (reverse_entry source.from_source) db = .ok mid ∧
      db' = { mid with events := db'.events, ledger_entries := db'.ledger_entries } ∧
      db'.ledger_entries.rows = db.ledger_entries.rows.map (Table.setRow
        (LedgerEntryRow.active_in source.id from_block to_block) (LedgerEntryRow.set_orphaned true)) ∧
      db'.events.rows = db.events.rows.map (Table.setRow
        (EventRow.active_in source.id from_block to_block) (EventRow.set_orphaned true)) := by
  unfold orphan_source_range at h
  simp only [bail_eq_ok, context_eq_ok, bind_eq_ok, db_result_eq_ok] at h
  obtain ⟨-, -, _, -, mid, hmid, ledger_entries, hentries, events, hevents, h⟩ := h
  obtain ⟨hframe, -⟩ := reverse_entries_spec hmid
  cases h
  refine ⟨mid, hmid, rfl, ?_, ?_⟩
  · rw [(Table.update_eq_some.1 hentries).2, hframe.ledger_entries]
  · rw [(Table.update_eq_some.1 hevents).2, hframe.events]

theorem orphan_source_range_keepsBooks {db db' : Db} {source : SourceRow} {from_block to_block : Int}
    {summary : OrphanRangeSummary}
    (h : orphan_source_range db source from_block to_block = .ok (summary, db')) :
    KeepsBooks db db' := by
  obtain ⟨mid, hmid, hdb, hrows, -⟩ := orphan_source_range_spec h
  obtain ⟨-, hbal⟩ := reverse_entries_spec hmid
  intro source_id a
  have hbalance : db'.balance source_id a = mid.balance source_id a :=
    balance_congr (by rw [hdb]) source_id a
  -- marking the active rows takes off the net what reversing them took off the balance
  have hnet : db'.net source_id a = db.net source_id a
      - if source_id = source.id
        then ((active_rows_in db source.id from_block to_block).map (·.contribution a)).sum
        else 0 := by
    rw [net_eq_sum, net_eq_sum, hrows, active_rows_in,
      ((List.perm_insertionSort _ _).map _).sum_eq]
    induction db.ledger_entries.rows with
    | nil => simp
    | cons r rs ih =>
      by_cases hr : r.active_in source.id from_block to_block = true
      · obtain ⟨hrs, -⟩ := active_in_iff.1 hr
        have hmarked : (r.set_orphaned true).source_id = source.id := hrs
        simp only [List.map_cons, List.sum_cons, List.filter_cons, ih, Table.setRow, if_pos hr,
          contribution_set_orphaned, hmarked, hrs]
        by_cases hs : source.id = source_id
        · rw [if_pos hs, if_pos hs, if_pos hs.symm, if_pos hs.symm]
          omega
        · rw [if_neg hs, if_neg hs, if_neg (fun e => hs e.symm), if_neg (fun e => hs e.symm)]
          omega
      · simp only [List.map_cons, List.sum_cons, List.filter_cons, ih, Table.setRow, if_neg hr]
        omega
  have hid : source.from_source.id = source.id := rfl
  rw [hbalance, hbal, hnet, hid]
  omega

/-! ## Repairing the metadata of a log

A repair writes hash, time and block of the rows of a log. None of these is in a
contribution, so balances and nets both stay.
-/

theorem update_log_metadata_keepsBooks {db db' : Db} {source : SourceRow} {log : RpcLog}
    {summary : LogMetadataUpdate}
    (h : update_log_metadata db source log = .ok (summary, db')) : KeepsBooks db db' := by
  unfold update_log_metadata at h
  simp only [bind_eq_ok, db_result_eq_ok] at h
  obtain ⟨log_index, -, block_number, -, transaction_index, -, events, -, ledger_entries,
    hentries, h⟩ := h
  cases h
  intro source_id a
  have hnet : ∀ d : Db, d.ledger_entries = ledger_entries →
      d.net source_id a = db.net source_id a := by
    intro d hd
    rw [net_eq_sum, net_eq_sum, hd, (Table.update_eq_some.1 hentries).2, List.map_map]
    congr 1
    refine List.map_congr_left fun r _ => ?_
    simp only [Function.comp_apply, Table.setRow]
    split
    · simp only [LedgerEntryRow.contribution, LedgerEntryRow.movement]
    · rfl
  rw [hnet _ rfl]
  rfl

/-! ## Ensuring a source

A source is inserted or overwritten. The rows that carry its identifier are not touched.
-/

/-- `ensure_source` writes no other table. -/
theorem ensure_source_frame {db db' : Db} {chain_id : Int} {name contract_address : String}
    {standard : TokenStandard} {start_block : Int} {row : SourceRow}
    (h : ensure_source db chain_id name contract_address standard start_block = .ok (row, db')) :
    db' = { db with next_uuid := db.next_uuid + 1, sources := db'.sources } := by
  unfold ensure_source at h
  simp only [bail_eq_ok, bind_eq_ok, db_result_eq_ok] at h
  obtain ⟨-, ⟨stored, sources⟩, -, h⟩ := h
  cases h
  rfl

end EvmIndexer
