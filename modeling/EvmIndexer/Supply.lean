/-
The supply of a token is what was minted less what was burned.

The balances of a source are updated one delta at a time, each transfer as two deltas of two
rows. Nothing adds them up, so nothing would notice if a transfer credited what it had not
debited. In every database of the ledger it did not: the balance rows of a token add up to
the active mints less the active burns (`supply_is_minted_less_burned`). A mint and a burn
are told by the `movement_type` column, which is written from the two parties and never
again, so the column and the parties agree in every stored row (`ends_type`).

It follows that nobody holds more than the supply, and that a token of which one unit is left
has one holder. Who that is the path of the token tells, if each of its transfers hands the
token on (`path_ends_with_holder`).
-/
import EvmIndexer.HolderCounts
import Mathlib.Algebra.Order.BigOperators.Group.Finset

set_option autoImplicit false

namespace EvmIndexer

open Sql Transition Bookkeeping

/-! ## What every stored entry has

A property of single entries that the proposed row has, and that no `SET` clause takes away,
holds of every stored row. The four fields of `EntryInvariant` are the four ways a row is
written: proposed by a persist, updated on a conflict, flagged or restored, and given
repaired metadata. The movement type is one such property: `movement_type` computes it from
the two parties, and neither is ever updated.
-/

section Entries

variable {parseAmount : AmountParser} {P : LedgerEntryRow → Prop}

/-- What proposed rows have, and no `SET` clause takes from a row. -/
structure EntryInvariant (parseAmount : AmountParser) (P : LedgerEntryRow → Prop) : Prop where
  proposed : ∀ {id event_id : Uuid} {source : SourceRef} {log : RpcLog} {entry : DecodedLedgerEntry}
    {values : LedgerEntryRow},
    new_ledger_entry_row parseAmount id source log event_id entry = .ok values → P values
  on_conflict : ∀ excluded row : LedgerEntryRow, P row → P (excluded.on_conflict row)
  set_orphaned : ∀ (orphaned : Bool) (row : LedgerEntryRow), P row → P (row.set_orphaned orphaned)
  set_metadata : ∀ (row : LedgerEntryRow) (block_number : Int) (block_timestamp : Option Timestamp)
    (block_hash : String) (transaction_index : Option Int),
    P row → P { row with block_number, block_timestamp, block_hash, transaction_index }

theorem EntryInvariant.stored (h : EntryInvariant parseAmount P)
    (options : PersistDecodedLogsOptions) (values old : LedgerEntryRow) (hold : P old) :
    P (values.stored options old) := by
  unfold LedgerEntryRow.stored
  split
  · exact h.set_orphaned false _ (h.on_conflict values old hold)
  · exact h.on_conflict values old hold

theorem EntryInvariant.persist_entry (h : EntryInvariant parseAmount P) {db db' : Db}
    {source : SourceRef} {log : RpcLog} {event_id : Uuid} {options : PersistDecodedLogsOptions}
    {entry : DecodedLedgerEntry}
    (hentry : persist_entry parseAmount source log event_id options db entry = .ok db')
    (hdb : ∀ row ∈ db.ledger_entries.rows, P row) : ∀ row ∈ db'.ledger_entries.rows, P row := by
  obtain ⟨previous, current, mid, hprev, -, hupsert, happly⟩ := persist_entry_spec hentry
  obtain ⟨values, ledger_entries, hvalues, -, hmid, -, hrows⟩ :=
    upsert_ledger_entry_spec hprev hupsert
  rw [(apply_balance_delta_spec happly).1.ledger_entries, hmid]
  intro row hrow
  rcases hrows with ⟨-, -, hrows⟩ | ⟨old, -, hold, -, rfl, hrows⟩
  · rw [hrows, List.mem_append, List.mem_singleton] at hrow
    rcases hrow with hrow | rfl
    · exact hdb row hrow
    · exact h.proposed hvalues
  · rw [hrows, mem_replaceRow hold] at hrow
    rcases hrow with rfl | ⟨hrow, -⟩
    · exact h.stored options values old (hdb old hold)
    · exact hdb row hrow

/-- A call leaves the property with every entry. The cases are those of the ledger's calls,
and each writes entries in one of the four ways or in none. -/
theorem EntryInvariant.apply (h : EntryInvariant parseAmount P) {db db' : Db} {op : LedgerOp}
    (hop : op.apply parseAmount db = .ok db') (hdb : ∀ row ∈ db.ledger_entries.rows, P row) :
    ∀ row ∈ db'.ledger_entries.rows, P row := by
  cases op with
  | ensure_source chain_id name contract_address standard start_block =>
    obtain ⟨row, hrow⟩ := map_snd_eq_ok.1 hop
    rw [ensure_source_frame hrow]
    exact hdb
  | persist_decoded_logs_with_options source logs options =>
    obtain ⟨summary, hsummary⟩ := map_snd_eq_ok.1 hop
    exact persist_decoded_logs_relates
      (R := fun s t : Db => (∀ row ∈ s.ledger_entries.rows, P row) →
        ∀ row ∈ t.ledger_entries.rows, P row)
      (fun _ => id) (fun hst htu hs => htu (hst hs)) (fun _ _ => id) h.persist_entry hsummary hdb
  | orphan_source_range source from_block to_block =>
    obtain ⟨summary, hsummary⟩ := map_snd_eq_ok.1 hop
    obtain ⟨_, -, -, hrows, -⟩ := orphan_source_range_spec hsummary
    rw [hrows]
    intro row hrow
    obtain ⟨old, hold, rfl⟩ := List.mem_map.1 hrow
    unfold Table.setRow
    split
    · exact h.set_orphaned true old (hdb old hold)
    · exact hdb old hold
  | update_log_metadata source log =>
    obtain ⟨summary, hsummary⟩ := map_snd_eq_ok.1 hop
    unfold EvmIndexer.update_log_metadata at hsummary
    simp only [bind_eq_ok, db_result_eq_ok] at hsummary
    obtain ⟨_, -, _, -, _, -, events, -, ledger_entries, hentries, hsummary⟩ := hsummary
    cases hsummary
    rw [(Table.update_eq_some.1 hentries).2]
    intro row hrow
    obtain ⟨old, hold, rfl⟩ := List.mem_map.1 hrow
    unfold Table.setRow
    split
    · exact h.set_metadata old _ _ _ _ (hdb old hold)
    · exact hdb old hold

/-- In every database of the ledger, every entry has the property. -/
theorem EntryInvariant.reachable (h : EntryInvariant parseAmount P) {db : Db}
    (hdb : LedgerReachable parseAmount db) : ∀ row ∈ db.ledger_entries.rows, P row :=
  ledger_invariant (I := fun db : Db => ∀ row ∈ db.ledger_entries.rows, P row)
    (fun _ hrow => absurd hrow List.not_mem_nil) (fun _ _ _ hs hop => h.apply hop hs)
    (fun _ _ hs hsame row hrow => hs row (hsame.ledger_entries.mem_iff.2 hrow)) hdb

end Entries

/-- The movement type two parties make. -/
def ends_type : Option String → Option String → MovementType
  | none, some _ => .Mint
  | some _, none => .Burn
  | some _, some _ => .Transfer
  | none, none => .Transfer

theorem entries_have_ends_type (parseAmount : AmountParser) :
    EntryInvariant parseAmount fun row =>
      row.movement_type = ends_type row.from_address row.to_address where
  proposed := by
    intro id event_id source log entry values h
    unfold new_ledger_entry_row at h
    simp only [bind_eq_ok] at h
    obtain ⟨_, -, _, -, _, -, _, -, hv⟩ := h
    cases hv
    unfold movement_type ends_type
    cases non_zero_address entry.«from» <;> cases non_zero_address entry.«to» <;> rfl
  on_conflict _ _ h := h
  set_orphaned _ _ h := h
  set_metadata _ _ _ _ _ h := h

/-- A stored mint comes from nobody and goes to somebody, and only a mint does. -/
theorem LedgerReachable.mint_iff {parseAmount : AmountParser} {db : Db}
    (h : LedgerReachable parseAmount db) {row : LedgerEntryRow} (hrow : row ∈ db.ledger_entries.rows) :
    row.movement_type = .Mint ↔ row.from_address = none ∧ row.to_address ≠ none := by
  have htype : row.movement_type = ends_type row.from_address row.to_address :=
    (entries_have_ends_type parseAmount).reachable h row hrow
  rw [htype]
  cases row.from_address <;> cases row.to_address <;> simp [ends_type]

/-- So with burns. -/
theorem LedgerReachable.burn_iff {parseAmount : AmountParser} {db : Db}
    (h : LedgerReachable parseAmount db) {row : LedgerEntryRow} (hrow : row ∈ db.ledger_entries.rows) :
    row.movement_type = .Burn ↔ row.from_address ≠ none ∧ row.to_address = none := by
  have htype : row.movement_type = ends_type row.from_address row.to_address :=
    (entries_have_ends_type parseAmount).reachable h row hrow
  rw [htype]
  cases row.from_address <;> cases row.to_address <;> simp [ends_type]

/-! ## Supply

The sum of the balance rows is compared with the entries one account at a time. Over the
accounts of the token each balance is what its entries credit less what they debit, and in
the sum a transfer cancels: it is credited once and debited once. Only the entries with one
end are left, which are the mints and the burns.
-/

/-- The balance rows of a token, added up. -/
def Db.supply (db : Db) (source_id : Uuid) (token_id : String) : Int :=
  ((db.token_balances.rows.filter fun r =>
    r.source_id == source_id && r.token_id == token_id).map (·.balance)).sum

/-- The active entries of a token with a movement type. -/
def Db.token_entries (db : Db) (source_id : Uuid) (token_id : String) (movement : MovementType) :
    List LedgerEntryRow :=
  (db.active_entries source_id).filter fun r => r.movement_type == movement && r.token_id == token_id

/-- What the active entries of a token mint. -/
def Db.minted (db : Db) (source_id : Uuid) (token_id : String) : Int :=
  ((db.token_entries source_id token_id .Mint).map (·.amount)).sum

/-- What the active entries of a token burn. -/
def Db.burned (db : Db) (source_id : Uuid) (token_id : String) : Int :=
  ((db.token_entries source_id token_id .Burn).map (·.amount)).sum

section Supply

variable {db : Db} {source_id : Uuid} {token_id : String}

/-- The accounts of a token with a balance row, or at an end of an active entry. -/
def Db.accounts (db : Db) (source_id : Uuid) (token_id : String) : Finset Account :=
  ((db.token_balances.rows.map fun r => (r.holder_address, r.token_id)) ++
    ((db.active_entries source_id).flatMap fun r =>
      (r.from_address.toList ++ r.to_address.toList).map fun holder => (holder, r.token_id))
    ).toFinset.filter fun a => a.2 = token_id

theorem mem_accounts_of_balance {row : TokenBalanceRow} (hrow : row ∈ db.token_balances.rows)
    (htoken : row.token_id = token_id) :
    (row.holder_address, row.token_id) ∈ db.accounts source_id token_id := by
  unfold Db.accounts
  rw [Finset.mem_filter, List.mem_toFinset, List.mem_append]
  exact ⟨Or.inl (List.mem_map.2 ⟨row, hrow, rfl⟩), htoken⟩

theorem mem_accounts_of_entry {row : LedgerEntryRow} (hrow : row ∈ db.active_entries source_id)
    (htoken : row.token_id = token_id) {holder : String}
    (hparty : row.from_address = some holder ∨ row.to_address = some holder) :
    (holder, row.token_id) ∈ db.accounts source_id token_id := by
  unfold Db.accounts
  rw [Finset.mem_filter, List.mem_toFinset, List.mem_append, List.mem_flatMap]
  refine ⟨Or.inr ⟨row, hrow, List.mem_map.2 ⟨holder, ?_, rfl⟩⟩, htoken⟩
  rw [List.mem_append]
  rcases hparty with hparty | hparty
  · exact Or.inl (by simp [hparty])
  · exact Or.inr (by simp [hparty])

theorem token_of_mem_accounts {a : Account} (h : a ∈ db.accounts source_id token_id) :
    a.2 = token_id := (Finset.mem_filter.1 h).2

/-- Over accounts of the token that have all its balance rows, the balances are the supply. -/
theorem sum_balance_eq_supply {accounts : Finset Account} (htoken : ∀ a ∈ accounts, a.2 = token_id)
    (hcover : db.accounts source_id token_id ⊆ accounts) :
    ∑ a ∈ accounts, db.balance source_id a = db.supply source_id token_id := by
  have hrows : ∀ row ∈ db.token_balances.rows, row.token_id = token_id →
      (row.holder_address, row.token_id) ∈ accounts :=
    fun row hrow hsame => hcover (mem_accounts_of_balance hrow hsame)
  -- a row counts for the one account it is the balance of
  have hrow : ∀ row : TokenBalanceRow,
      (row.token_id = token_id → (row.holder_address, row.token_id) ∈ accounts) →
      (∑ a ∈ accounts, if row.of_holder source_id a.1 a.2 then row.balance else 0)
        = if row.source_id == source_id && row.token_id == token_id then row.balance else 0 := by
    intro row hmem
    have hside : ∀ a : Account, row.of_holder source_id a.1 a.2 = true ↔
        (row.holder_address, row.token_id) = a ∧ row.source_id = source_id := by
      intro a
      rw [of_holder_iff, Prod.ext_iff, and_comm]
    by_cases hsource : row.source_id = source_id
    · simp only [hside, hsource, and_true, Finset.sum_ite_eq, beq_self_eq_true, Bool.true_and,
        beq_iff_eq]
      by_cases hsame : row.token_id = token_id
      · rw [if_pos (hmem hsame), if_pos hsame]
      · rw [if_neg fun hin => hsame (htoken _ hin), if_neg hsame]
    · simp [hside, hsource]
  simp only [balance_eq_sum]
  unfold Db.supply
  generalize db.token_balances.rows = rows at hrows
  induction rows with
  | nil => simp
  | cons row rest ih =>
    simp only [List.map_cons, List.sum_cons, Finset.sum_add_distrib]
    rw [ih fun r hr => hrows r (List.mem_cons_of_mem _ hr), hrow row (hrows row (List.mem_cons_self ..)),
      List.filter_cons]
    split
    · rw [List.map_cons, List.sum_cons]
    · rw [zero_add]

/-- Entries of other tokens add nothing to an account. -/
theorem net_eq_net_of_token {a : Account} (ha : a.2 = token_id) :
    db.net source_id a = Bookkeeping.net
      (((db.active_entries source_id).filter fun r => r.token_id == token_id).map (·.movement)) a := by
  unfold Db.net
  induction db.active_entries source_id with
  | nil => rfl
  | cons row rest ih =>
    rw [List.map_cons, net_cons, ih, List.filter_cons]
    by_cases hsame : row.token_id = token_id
    · rw [if_pos (beq_iff_eq.2 hsame), List.map_cons, net_cons]
    · have heffect : row.movement.effect a = 0 := by
        have hend : ∀ party : Option String,
            party.map (fun holder => (holder, row.token_id)) ≠ some a := by
          intro party hparty
          obtain ⟨holder, -, rfl⟩ := Option.map_eq_some_iff.1 hparty
          exact hsame ha
        unfold Movement.effect LedgerEntryRow.movement
        rw [if_neg (hend _), if_neg (hend _)]
        rfl
      rw [if_neg (fun e => hsame (beq_iff_eq.1 e)), heffect, zero_add]

variable {parseAmount : AmountParser}

/-- What the movements of a token mint and burn is what its mint and burn entries say. -/
theorem minted_burned_eq (h : LedgerReachable parseAmount db) (source_id : Uuid) (token_id : String) :
    let movements :=
      ((db.active_entries source_id).filter fun r => r.token_id == token_id).map (·.movement)
    Bookkeeping.minted movements = db.minted source_id token_id ∧
      Bookkeeping.burned movements = db.burned source_id token_id := by
  have hmem : ∀ row ∈ (db.active_entries source_id).filter (fun r => r.token_id == token_id),
      row ∈ db.ledger_entries.rows :=
    fun row hrow => (List.mem_filter.1 (List.mem_filter.1 hrow).1).1
  -- a selection of movements that says what the type of their rows says selects the same rows
  have hselect : ∀ (p : Movement Account → Bool) (movement : MovementType),
      (∀ row ∈ db.ledger_entries.rows, p row.movement = (row.movement_type == movement)) →
      (((((db.active_entries source_id).filter fun r => r.token_id == token_id).map
        (·.movement)).filter p).map (·.amount)).sum
        = ((db.token_entries source_id token_id movement).map (·.amount)).sum := by
    intro p movement hp
    have hrows := List.filter_congr (p := p ∘ LedgerEntryRow.movement)
      fun row hrow => hp row (hmem row hrow)
    unfold Db.token_entries
    rw [List.filter_map, List.map_map, ← List.filter_filter]
    exact congrArg (fun rows : List LedgerEntryRow => (rows.map (·.amount)).sum) hrows
  refine ⟨hselect _ .Mint fun row hrow => ?_, hselect _ .Burn fun row hrow => ?_⟩
  · have hmint := h.mint_iff hrow
    rw [Bool.eq_iff_iff, beq_iff_eq, hmint]
    simp [LedgerEntryRow.movement, Option.isSome_iff_ne_none]
  · have hburn := h.burn_iff hrow
    rw [Bool.eq_iff_iff, beq_iff_eq, hburn]
    simp [LedgerEntryRow.movement, Option.isSome_iff_ne_none]

/-- The balances of a token add up to its mints less its burns. -/
theorem supply_eq (h : LedgerReachable parseAmount db) :
    db.supply source_id token_id = db.minted source_id token_id - db.burned source_id token_id := by
  obtain ⟨hminted, hburned⟩ := minted_burned_eq h source_id token_id
  have hnets : ∀ a ∈ db.accounts source_id token_id, db.balance source_id a = Bookkeeping.net
      (((db.active_entries source_id).filter fun r => r.token_id == token_id).map (·.movement)) a :=
    fun a ha => (h.balanced source_id a).trans (net_eq_net_of_token (token_of_mem_accounts ha))
  rw [← sum_balance_eq_supply (fun _ => token_of_mem_accounts) (Finset.Subset.refl _), ← hminted,
    ← hburned, Finset.sum_congr rfl hnets]
  refine sum_net fun m hm => ?_
  -- both ends of an entry are among the accounts
  obtain ⟨row, hrow, rfl⟩ := List.mem_map.1 hm
  obtain ⟨hactive, hsame⟩ := List.mem_filter.1 hrow
  refine ⟨fun a ha => ?_, fun a ha => ?_⟩
  · obtain ⟨holder, hto, rfl⟩ := Option.map_eq_some_iff.1 ha
    exact mem_accounts_of_entry hactive (beq_iff_eq.1 hsame) (Or.inr hto)
  · obtain ⟨holder, hfrom, rfl⟩ := Option.map_eq_some_iff.1 ha
    exact mem_accounts_of_entry hactive (beq_iff_eq.1 hsame) (Or.inl hfrom)

/-- Two holders together hold no more than the supply. -/
theorem balance_add_balance_le_supply {holder other : String} (hne : holder ≠ other) :
    db.balance source_id (holder, token_id) + db.balance source_id (other, token_id)
      ≤ db.supply source_id token_id := by
  have htoken : ∀ a ∈ db.accounts source_id token_id ∪ {(holder, token_id), (other, token_id)},
      a.2 = token_id := by
    intro a ha
    simp only [Finset.mem_union, Finset.mem_insert, Finset.mem_singleton] at ha
    rcases ha with ha | rfl | rfl
    · exact token_of_mem_accounts ha
    · rfl
    · rfl
  rw [← sum_balance_eq_supply htoken Finset.subset_union_left]
  have hpair : (holder, token_id) ≠ (other, token_id) := fun e => hne (Prod.ext_iff.1 e).1
  rw [← Finset.sum_pair (f := db.balance source_id) hpair]
  exact Finset.sum_le_sum_of_subset_of_nonneg Finset.subset_union_right
    fun a _ _ => balance_nonneg db source_id a

theorem balance_le_supply (holder : String) :
    db.balance source_id (holder, token_id) ≤ db.supply source_id token_id := by
  -- any other holder will do
  have hother : holder ≠ holder ++ "'" := by
    intro e
    have hlength := congrArg String.length e
    rw [String.length_append] at hlength
    have hone : ("'" : String).length = 1 := rfl
    omega
  have hpair : db.balance source_id (holder, token_id) + db.balance source_id (holder ++ "'", token_id)
      ≤ db.supply source_id token_id := balance_add_balance_le_supply hother
  have hnonneg := balance_nonneg db source_id (holder ++ "'", token_id)
  omega

/-- Where the supply is one unit, one holder has it. -/
theorem one_unit_has_one_holder (hone : db.supply source_id token_id = 1) :
    ∃ holder, ∀ other, db.balance source_id (other, token_id) = if other = holder then 1 else 0 := by
  -- were nothing held, nothing would add up to one
  obtain ⟨holder, hheld⟩ : ∃ holder, db.balance source_id (holder, token_id) ≠ 0 := by
    by_contra hnone
    push Not at hnone
    have hzero : db.supply source_id token_id = 0 := by
      rw [← sum_balance_eq_supply (fun _ => token_of_mem_accounts) (Finset.Subset.refl _)]
      refine Finset.sum_eq_zero fun a ha => ?_
      rw [← token_of_mem_accounts ha] at hnone
      exact hnone a.1
    omega
  have hpositive := balance_nonneg db source_id (holder, token_id)
  have hbound : db.balance source_id (holder, token_id) ≤ db.supply source_id token_id :=
    balance_le_supply holder
  refine ⟨holder, fun other => ?_⟩
  by_cases hsame : other = holder
  · rw [if_pos hsame, hsame]
    omega
  · rw [if_neg hsame]
    have hpair : db.balance source_id (other, token_id) + db.balance source_id (holder, token_id)
        ≤ db.supply source_id token_id := balance_add_balance_le_supply hsame
    have hnonneg := balance_nonneg db source_id (other, token_id)
    omega

end Supply

/-- In every database of the ledger the balances of a token add up to what its active entries
mint less what they burn. Nobody holds more than that, and a single unit has a single holder. -/
theorem supply_is_minted_less_burned {parseAmount : AmountParser} {db : Db}
    (h : LedgerReachable parseAmount db) (source_id : Uuid) (token_id : String) :
    db.supply source_id token_id = db.minted source_id token_id - db.burned source_id token_id ∧
      (∀ holder, db.balance source_id (holder, token_id)
        ≤ db.minted source_id token_id - db.burned source_id token_id) ∧
      (db.minted source_id token_id - db.burned source_id token_id = 1 →
        ∃ holder, ∀ other,
          db.balance source_id (other, token_id) = if other = holder then 1 else 0) := by
  rw [← supply_eq h]
  exact ⟨rfl, balance_le_supply, one_unit_has_one_holder⟩

/-- Token 1 of a collection, minted once: whoever holds it is the only one. -/
theorem supply_is_minted_less_burned_two_tokens :
    (two_tokens bob).minted 0 "1" = 1 ∧ (two_tokens bob).burned 0 "1" = 0 ∧
      (two_tokens bob).supply 0 "1" = 1 ∧
      ∃ holder, ∀ other,
        (two_tokens bob).balance 0 (other, "1") = if other = holder then 1 else 0 := by
  obtain ⟨hsupply, -, hone⟩ := supply_is_minted_less_burned (two_tokens_reachable bob) 0 "1"
  have hminted : (two_tokens bob).minted 0 "1" = 1 := by decide +kernel
  have hburned : (two_tokens bob).burned 0 "1" = 0 := by decide +kernel
  rw [hminted, hburned] at hsupply hone
  exact ⟨hminted, hburned, hsupply, hone (by decide)⟩

/-! ## The path of a token

An NFT has a single unit, and its entries should read as a path from the mint to the present
holder. Nothing in the table says so. Where they do read so, the ends cancel along the path
and the last holder is the only one with a balance.
-/

/-- Where the active entries of a token, in some order, hand one unit on from mint to last
holder, that holder has it and nobody else. -/
theorem path_ends_with_holder {parseAmount : AmountParser} {db : Db}
    (h : LedgerReachable parseAmount db) {source_id : Uuid} {token_id : String}
    {path : List LedgerEntryRow}
    (hpath : path.Perm ((db.active_entries source_id).filter fun r => r.token_id == token_id))
    (hhanded : Handed 1 none (path.map (·.movement))) (holder : String) :
    db.balance source_id (holder, token_id)
      = if path.getLast?.bind (·.to_address) = some holder then 1 else 0 := by
  rw [h.balanced, net_eq_net_of_token rfl, ← net_perm (hpath.map _), hhanded.net,
    if_neg (Option.some_ne_none _).symm, sub_zero]
  -- the account of the last entry is that of the holder just when the address is
  have hlast : handedTo none (path.map (·.movement)) = some (holder, token_id) ↔
      path.getLast?.bind (·.to_address) = some holder := by
    unfold handedTo
    rw [List.getLast?_map]
    cases hend : path.getLast? with
    | none => simp
    | some row =>
      have htoken : row.token_id = token_id :=
        beq_iff_eq.1 (List.mem_filter.1 (hpath.mem_iff.1 (List.mem_of_getLast? hend))).2
      simp [LedgerEntryRow.movement, htoken]
  by_cases hmine : path.getLast?.bind (·.to_address) = some holder
  · rw [if_pos hmine, if_pos (hlast.2 hmine)]
  · rw [if_neg hmine, if_neg fun e => hmine (hlast.1 e)]

end EvmIndexer
