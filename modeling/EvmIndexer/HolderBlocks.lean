/-
The block columns of a holder's balance.

`first_received_block` and `last_moved_block` are kept without looking at the ledger: a
delta carries the least block it credits and the greatest it moves, and the row takes the
minimum and the maximum of what it has and what the delta brings. A reversal brings
nothing, and a delta that leaves a new holder at zero leaves no row. So the columns are those of
the active entries as long as neither matters: no range is orphaned that holds the first
credit or the last move of an account (`OrphansInside`), and no entry that adds nothing to
an account is the first to name it (`FindsBalances`).
-/
import EvmIndexer.Ledger
import EvmIndexer.Replay
import EvmIndexer.Stored
import EvmIndexer.Lib.Extremes

set_option autoImplicit false

namespace EvmIndexer

open Sql Transition Extremes

/-! ## The blocks of an account

The two columns are compared with two sets of blocks, those in which active entries credit
the account and those in which they move it. `IsLeast` and `IsGreatest` of these sets need
not exist, and then the column is null. `Tracks` is the comparison for one account, also for
one that has no balance row.
-/

/-- The row credits the account. -/
def LedgerEntryRow.credits (a : Account) (row : LedgerEntryRow) : Prop :=
  row.movement.credited = some a

/-- The row credits or debits the account. -/
def LedgerEntryRow.moves (a : Account) (row : LedgerEntryRow) : Prop :=
  row.movement.credited = some a ∨ row.movement.debited = some a

instance (a : Account) (row : LedgerEntryRow) : Decidable (row.credits a) :=
  inferInstanceAs (Decidable (_ = _))

instance (a : Account) (row : LedgerEntryRow) : Decidable (row.moves a) :=
  inferInstanceAs (Decidable (_ ∨ _))

/-- The blocks of the non-orphaned entries of a source that are so. -/
def Db.blocks_of (db : Db) (source_id : Uuid) (p : LedgerEntryRow → Prop) : Set Int :=
  {block | ∃ e ∈ db.active_entries source_id, p e ∧ e.block_number = block}

/-- The columns of every balance are the first block that credits its account and the last
that moves it, among the non-orphaned entries of its source. -/
def HolderBlocks (db : Db) : Prop :=
  ∀ r ∈ db.token_balances.rows,
    IsLeastOf (db.blocks_of r.source_id (LedgerEntryRow.credits (r.holder_address, r.token_id)))
      r.first_received_block ∧
    IsGreatestOf (db.blocks_of r.source_id (LedgerEntryRow.moves (r.holder_address, r.token_id)))
      r.last_moved_block

/-- The balance row of an account. -/
def Db.balance_row (db : Db) (source_id : Uuid) (a : Account) : Option TokenBalanceRow :=
  db.token_balances.rows.find? (TokenBalanceRow.of_holder source_id a.1 a.2)

theorem balance_row_eq_some {db : Db} {source_id : Uuid} {a : Account} {r : TokenBalanceRow} :
    db.balance_row source_id a = some r ↔
      r ∈ db.token_balances.rows ∧ r.source_id = source_id ∧ (r.holder_address, r.token_id) = a := by
  unfold Db.balance_row
  rw [db.token_balances.find?_eq_some_iff fun r _ s _ => of_holder_clash r s, of_holder_iff,
    Prod.ext_iff]

/-- A row, or none, for an account that is credited in some blocks and moved in others. -/
def Tracks (credited moved : Set Int) : Option TokenBalanceRow → Prop
  | none => credited = ∅ ∧ moved = ∅
  | some r => IsLeastOf credited r.first_received_block ∧ IsGreatestOf moved r.last_moved_block

theorem tracks_some {credited moved : Set Int} {r : TokenBalanceRow} :
    Tracks credited moved (some r) ↔
      IsLeastOf credited r.first_received_block ∧ IsGreatestOf moved r.last_moved_block := Iff.rfl

/-- Every account is tracked: by its row, or by having no entries. -/
def HoldersTracked (db : Db) : Prop :=
  ∀ source_id a, Tracks (db.blocks_of source_id (LedgerEntryRow.credits a))
    (db.blocks_of source_id (LedgerEntryRow.moves a)) (db.balance_row source_id a)

theorem HoldersTracked.holderBlocks {db : Db} (h : HoldersTracked db) : HolderBlocks db := by
  intro r hr
  have hrow := h r.source_id (r.holder_address, r.token_id)
  rw [balance_row_eq_some.2 ⟨hr, rfl, rfl⟩] at hrow
  exact hrow

/-! ## What a delta map brings

A delta map is collected from at most two rows, the previous one reversed and the current
one. Each account has one delta in it, even where the two rows name it from both sides, so
what the map brings to an account can be read off one entry of the map.
-/

theorem min_optional_block_eq (o p : Option Int) : min_optional_block o p = Option.merge min o p := by
  cases o <;> cases p <;> rfl

theorem max_optional_block_eq (o p : Option Int) : max_optional_block o p = Option.merge max o p := by
  cases o <;> cases p <;> rfl

/-- The delta of an account. -/
def delta_at (deltas : BalanceDeltas) (a : Account) : BalanceDelta :=
  ((deltas.find? fun d => d.1 = a).map (·.2)).getD BalanceDelta.default

/-- The accounts of a delta map, each once. -/
def DistinctAccounts (deltas : BalanceDeltas) : Prop := (deltas.map (·.1)).Nodup

theorem entry_or_default_accounts (deltas : BalanceDeltas) (key : Account)
    (f : BalanceDelta → BalanceDelta) {a : Account} :
    a ∈ (entry_or_default deltas key f).map (·.1) ↔ a = key ∨ a ∈ deltas.map (·.1) := by
  induction deltas with
  | nil => simp [entry_or_default]
  | cons d rest ih =>
    obtain ⟨k, delta⟩ := d
    unfold entry_or_default
    by_cases hk : k = key
    · rw [if_pos hk, hk]
      simp only [List.map_cons, List.mem_cons, or_self_left]
    · rw [if_neg hk]
      simp only [List.map_cons, List.mem_cons, ih]
      exact or_left_comm

theorem DistinctAccounts.entry_or_default {deltas : BalanceDeltas} (h : DistinctAccounts deltas)
    (key : Account) (f : BalanceDelta → BalanceDelta) :
    DistinctAccounts (entry_or_default deltas key f) := by
  unfold DistinctAccounts at h ⊢
  induction deltas with
  | nil => exact List.nodup_singleton key
  | cons d rest ih =>
    obtain ⟨k, delta⟩ := d
    obtain ⟨hnew, hrest⟩ := List.nodup_cons.1 h
    unfold EvmIndexer.entry_or_default
    by_cases hk : k = key
    · rw [if_pos hk]
      exact h
    · rw [if_neg hk]
      refine List.nodup_cons.2 ⟨?_, ih hrest⟩
      rw [entry_or_default_accounts]
      rintro (heq | hmem)
      · exact hk heq
      · exact hnew hmem

theorem delta_at_entry_or_default (deltas : BalanceDeltas) (key : Account)
    (f : BalanceDelta → BalanceDelta) (a : Account) :
    delta_at (entry_or_default deltas key f) a
      = if key = a then f (delta_at deltas a) else delta_at deltas a := by
  unfold delta_at
  induction deltas with
  | nil =>
    by_cases ha : key = a <;> simp [entry_or_default, ha]
  | cons d rest ih =>
    obtain ⟨k, delta⟩ := d
    unfold entry_or_default
    by_cases hk : k = key
    · subst hk
      by_cases ha : k = a <;> simp [ha]
    · rw [if_neg hk]
      by_cases hka : k = a
      · have hkey : ¬ key = a := fun heq => hk (hka.trans heq.symm)
        simp [hka, hkey]
      · simp only [List.find?_cons, decide_eq_false hka]
        exact ih

/-- What collecting one end of a row does to the delta of an account. -/
theorem delta_at_collect_party (deltas : BalanceDeltas) (party : Option String) (token_id : String)
    (f : BalanceDelta → BalanceDelta) (a : Account) :
    delta_at (collect_party deltas party token_id f) a
      = if party.map (fun holder => (holder, token_id)) = some a then f (delta_at deltas a)
        else delta_at deltas a := by
  cases party with
  | none => simp [collect_party]
  | some holder =>
    unfold collect_party
    simp only [delta_at_entry_or_default, Option.map_some, Option.some.injEq]

theorem mem_collect_party {deltas : BalanceDeltas} {party : Option String} {token_id : String}
    {f : BalanceDelta → BalanceDelta} {a : Account} :
    a ∈ (collect_party deltas party token_id f).map (·.1) ↔
      party.map (fun holder => (holder, token_id)) = some a ∨ a ∈ deltas.map (·.1) := by
  cases party with
  | none => simp [collect_party]
  | some holder =>
    unfold collect_party
    rw [entry_or_default_accounts, Option.map_some, Option.some.injEq, eq_comm]

theorem DistinctAccounts.collect {deltas : BalanceDeltas} (h : DistinctAccounts deltas)
    (row : LedgerEntryRow) (reverse : Bool) :
    DistinctAccounts (collect_balance_delta deltas row reverse) := by
  have hparty : ∀ {ds : BalanceDeltas} (_ : DistinctAccounts ds) (party : Option String)
      (f : BalanceDelta → BalanceDelta), DistinctAccounts (collect_party ds party row.token_id f) := by
    intro ds hds party f
    cases party with
    | none => exact hds
    | some holder => exact hds.entry_or_default (holder, row.token_id) f
  exact hparty (hparty h row.from_address _) row.to_address _

/-- A reversal brings no block. -/
theorem collect_reverse_blocks (deltas : BalanceDeltas) (row : LedgerEntryRow) (a : Account) :
    (delta_at (collect_balance_delta deltas row true) a).first_received_block
        = (delta_at deltas a).first_received_block ∧
      (delta_at (collect_balance_delta deltas row true) a).last_moved_block
        = (delta_at deltas a).last_moved_block := by
  unfold collect_balance_delta
  simp only [delta_at_collect_party]
  constructor
  · split <;> split <;> rfl
  · split <;> split <;> rfl

/-- A row brings its block to the accounts it moves. -/
theorem collect_blocks {deltas : BalanceDeltas} {a : Account}
    (hfirst : (delta_at deltas a).first_received_block = none)
    (hlast : (delta_at deltas a).last_moved_block = none) (row : LedgerEntryRow) :
    (delta_at (collect_balance_delta deltas row false) a).first_received_block
        = (if row.credits a then some row.block_number else none) ∧
      (delta_at (collect_balance_delta deltas row false) a).last_moved_block
        = (if row.moves a then some row.block_number else none) := by
  unfold collect_balance_delta LedgerEntryRow.credits LedgerEntryRow.moves LedgerEntryRow.movement
  simp only [delta_at_collect_party]
  by_cases hto : row.to_address.map (fun holder => (holder, row.token_id)) = some a <;>
    by_cases hfrom : row.from_address.map (fun holder => (holder, row.token_id)) = some a <;>
      simp [hto, hfrom, BalanceDelta.debit, BalanceDelta.credit, hfirst, hlast, min_optional_block,
        max_optional_block]

/-- What a delta map starts from: the reversal of the previous row, which has no blocks. -/
theorem balance_deltas_base (previous : Option LedgerEntryRow) :
    ∃ base, DistinctAccounts base ∧
      (∀ a, (delta_at base a).first_received_block = none ∧
        (delta_at base a).last_moved_block = none) ∧
      ∀ current : LedgerEntryRow, balance_deltas previous current
        = if current.orphaned then base else collect_balance_delta base current false := by
  have hnil : DistinctAccounts [] := List.nodup_nil
  cases previous with
  | none => exact ⟨[], hnil, fun _ => ⟨rfl, rfl⟩, fun _ => rfl⟩
  | some previous =>
    by_cases hp : previous.orphaned = true
    · exact ⟨[], hnil, fun _ => ⟨rfl, rfl⟩, fun _ => by simp only [balance_deltas, hp, if_true]⟩
    · refine ⟨collect_balance_delta [] previous true, hnil.collect previous true,
        collect_reverse_blocks [] previous, fun _ => ?_⟩
      simp only [balance_deltas, hp, Bool.false_eq_true, if_false]

/-- An account has one delta in the map of a row that replaces another. -/
theorem balance_deltas_distinct (previous : Option LedgerEntryRow) (current : LedgerEntryRow) :
    DistinctAccounts (balance_deltas previous current) := by
  obtain ⟨base, hbase, -, hdeltas⟩ := balance_deltas_base previous
  rw [hdeltas]
  split
  · exact hbase
  · exact hbase.collect current false

/-- What replacing `previous` by `current` brings: the block of `current`, once it is active. -/
theorem balance_deltas_blocks (previous : Option LedgerEntryRow) (current : LedgerEntryRow)
    (a : Account) :
    (delta_at (balance_deltas previous current) a).first_received_block
        = (if current.orphaned = false ∧ current.credits a then some current.block_number else none) ∧
      (delta_at (balance_deltas previous current) a).last_moved_block
        = (if current.orphaned = false ∧ current.moves a then some current.block_number else none) := by
  obtain ⟨base, -, hempty, hdeltas⟩ := balance_deltas_base previous
  rw [hdeltas]
  by_cases hc : current.orphaned = true
  · simp only [hc, if_true, Bool.true_eq_false, false_and, if_false]
    exact hempty a
  · have hblocks := collect_blocks (hempty a).1 (hempty a).2 current
    simp only [hc, Bool.false_eq_true, if_false, true_and]
    exact hblocks

/-- The accounts of an active row all have a delta. -/
theorem mem_balance_deltas (previous : Option LedgerEntryRow) {current : LedgerEntryRow}
    (hactive : current.orphaned = false) {a : Account} (hmoves : current.moves a) :
    a ∈ (balance_deltas previous current).map (·.1) := by
  obtain ⟨base, -, -, hdeltas⟩ := balance_deltas_base previous
  rw [hdeltas, if_neg (by rw [hactive]; exact Bool.false_ne_true)]
  unfold collect_balance_delta
  rw [mem_collect_party, mem_collect_party]
  rcases hmoves with hto | hfrom
  · exact Or.inl hto
  · exact Or.inr (Or.inl hfrom)

section Distinct

variable {deltas : BalanceDeltas} {d : (String × String) × BalanceDelta}

theorem DistinctAccounts.delta_at_of_mem (h : DistinctAccounts deltas) (hd : d ∈ deltas) :
    delta_at deltas d.1 = d.2 := by
  unfold delta_at
  cases hfind : deltas.find? fun e => e.1 = d.1 with
  | none =>
    have hnone := List.find?_eq_none.1 hfind d hd
    simp at hnone
  | some e =>
    have he := List.mem_of_find?_eq_some hfind
    have hkey := List.find?_some hfind
    rw [decide_eq_true_iff] at hkey
    rw [List.inj_on_of_nodup_map h he hd hkey]
    rfl

theorem DistinctAccounts.worth_of_mem (h : DistinctAccounts deltas) (hd : d ∈ deltas) :
    worth deltas d.1 = d.2.balance_delta := by
  unfold worth
  induction deltas with
  | nil => exact absurd hd List.not_mem_nil
  | cons e rest ih =>
    obtain ⟨hnew, hrest⟩ := List.nodup_cons.1 h
    rw [List.map_cons, List.sum_cons]
    have hothers : ∀ key, key ∉ rest.map (·.1) →
        (rest.map fun d => if d.1 = key then d.2.balance_delta else 0).sum = 0 := by
      intro key hkey
      refine List.sum_eq_zero ?_
      intro x hx
      obtain ⟨f, hf, rfl⟩ := List.mem_map.1 hx
      exact if_neg fun heq => hkey (List.mem_map.2 ⟨f, hf, heq⟩)
    rcases List.mem_cons.1 hd with rfl | hd
    · rw [if_pos rfl, hothers _ hnew, add_zero]
    · have hne : ¬ e.1 = d.1 := fun heq => hnew (List.mem_map.2 ⟨d, hd, heq.symm⟩)
      rw [if_neg hne, zero_add]
      exact ih hrest hd

end Distinct

/-! ## Applying a delta map

The statement for one account inserts a row, updates one or, for a new holder whose delta is
zero, does nothing. Because the accounts of the map are distinct, no later statement touches
the row that an earlier one wrote, and the map as a whole moves each row once.
-/

/-- What one delta does to the row of its account. -/
def RowMoved (delta : BalanceDelta) : Option TokenBalanceRow → Option TokenBalanceRow → Prop
  | some old, row => ∃ new, row = some new ∧
      new.first_received_block = min_optional_block old.first_received_block delta.first_received_block ∧
      new.last_moved_block = max_optional_block old.last_moved_block delta.last_moved_block
  | none, row => (delta.balance_delta = 0 ∧ row = none) ∨ ∃ new, row = some new ∧
      new.first_received_block = delta.first_received_block ∧
      new.last_moved_block = delta.last_moved_block

theorem apply_holder_balance_delta_row {db db' : Db} {source : SourceRef} {key : Account}
    {delta : BalanceDelta}
    (h : apply_holder_balance_delta db source key.1 key.2 delta = .ok db') :
    RowMoved delta (db.balance_row source.id key) (db'.balance_row source.id key) ∧
      ∀ source_id a, (source_id, a) ≠ (source.id, key) →
        db'.balance_row source_id a = db.balance_row source_id a := by
  unfold apply_holder_balance_delta at h
  simp only [bail_eq_ok] at h
  obtain ⟨-, h⟩ := h
  -- the three branches of the source: update the row, insert nothing at zero, insert
  cases hfind : db.token_balances.rows.find? (TokenBalanceRow.of_holder source.id key.1 key.2) with
  | some old =>
    have hrow : db.balance_row source.id key = some old := hfind
    rw [hfind] at h
    simp only [bind_eq_ok, db_result_eq_ok] at h
    obtain ⟨token_balances, hupdate, hdb⟩ := h
    cases hdb
    have hold : old ∈ db.token_balances.rows := List.mem_of_find?_eq_some hfind
    have hkey := of_holder_iff.1 (List.find?_some hfind)
    -- a source has one row for each account, so the update replaces `old` alone
    have hrows := Table.update_eq_replace hupdate (x := old) (by simp)
      (fun r hr hid => db.token_balances.eq_of_clash hr hold (Or.inl (by simpa using hid)))
    obtain ⟨new, hrows, ⟨hnew1, hnew2, hnew3⟩, hblocks⟩ : ∃ new : TokenBalanceRow,
        token_balances.rows = replaceRow old new db.token_balances.rows ∧
        (new.source_id = source.id ∧ new.holder_address = key.1 ∧ new.token_id = key.2) ∧
        new.first_received_block
            = min_optional_block old.first_received_block delta.first_received_block ∧
          new.last_moved_block = max_optional_block old.last_moved_block delta.last_moved_block :=
      ⟨_, hrows, hkey, rfl, rfl⟩
    rw [hrow]
    constructor
    · refine ⟨new, balance_row_eq_some.2 ⟨?_, hnew1, Prod.ext hnew2 hnew3⟩, hblocks⟩
      rw [hrows, mem_replaceRow hold]
      exact Or.inl rfl
    · -- a row of another account is neither the old nor the new one
      intro source_id a hne
      have hother : ¬ old.of_holder source_id a.1 a.2 = true := by
        intro hof
        obtain ⟨h1, h2, h3⟩ := of_holder_iff.1 hof
        exact hne (Prod.ext (h1.symm.trans hkey.1)
          (Prod.ext (h2.symm.trans hkey.2.1) (h3.symm.trans hkey.2.2)))
      unfold Db.balance_row
      rw [hrows]
      refine find?_replaceRow hother ?_ db.token_balances.rows
      rw [of_holder_iff, hkey.1, hkey.2.1, hkey.2.2] at hother
      rw [of_holder_iff, hnew1, hnew2, hnew3]
      exact hother
  | none =>
    have hrow : db.balance_row source.id key = none := hfind
    rw [hfind] at h
    by_cases hnext : delta.balance_delta = 0
    · -- a zero balance is never stored
      simp only [Option.map_none, Option.getD_none, hnext, add_zero, if_true] at h
      cases h
      rw [hrow]
      exact ⟨Or.inl ⟨hnext, rfl⟩, fun _ _ _ => rfl⟩
    · simp only [Option.map_none, Option.getD_none, zero_add, if_neg hnext, bind_eq_ok,
        db_result_eq_ok] at h
      obtain ⟨token_balances, hinsert, hdb⟩ := h
      cases hdb
      obtain ⟨new, hrows, ⟨hnew1, hnew2⟩, hblocks⟩ : ∃ new : TokenBalanceRow,
          token_balances.rows = db.token_balances.rows ++ [new] ∧
          (new.source_id = source.id ∧ (new.holder_address, new.token_id) = key) ∧
          new.first_received_block = min_optional_block none delta.first_received_block ∧
            new.last_moved_block = max_optional_block none delta.last_moved_block :=
        ⟨_, (Table.insert_eq_some.1 hinsert).2, ⟨rfl, rfl⟩, rfl, rfl⟩
      -- `merge` with the missing row leaves the blocks of the delta
      rw [min_optional_block_eq, max_optional_block_eq, Option.merge_none_left,
        Option.merge_none_left] at hblocks
      rw [hrow]
      constructor
      · refine Or.inr ⟨new, balance_row_eq_some.2 ⟨?_, hnew1, hnew2⟩, hblocks⟩
        rw [hrows, List.mem_append, List.mem_singleton]
        exact Or.inr rfl
      · intro source_id a hne
        unfold Db.balance_row
        rw [hrows, List.find?_append]
        have hnot : ¬ new.of_holder source_id a.1 a.2 = true := by
          intro hof
          obtain ⟨h1, h2, h3⟩ := of_holder_iff.1 hof
          exact hne (Prod.ext (h1.symm.trans hnew1)
            ((Prod.ext h2.symm h3.symm : a = (new.holder_address, new.token_id)).trans hnew2))
        rw [List.find?_cons_of_neg hnot, List.find?_nil, Option.or_none]

/-- Applying a delta map moves the row of each account once. -/
theorem apply_deltas_rows {source : SourceRef} {deltas : BalanceDeltas} (hkeys : DistinctAccounts deltas)
    {db db' : Db} (h : deltas.foldlM (fun db delta =>
      apply_holder_balance_delta db source delta.1.1 delta.1.2 delta.2) db = .ok db') :
    (∀ d ∈ deltas, RowMoved d.2 (db.balance_row source.id d.1) (db'.balance_row source.id d.1)) ∧
      ∀ source_id a, source_id ≠ source.id ∨ a ∉ deltas.map (·.1) →
        db'.balance_row source_id a = db.balance_row source_id a := by
  induction deltas generalizing db with
  | nil =>
    rw [List.foldlM_nil, pure_eq_ok] at h
    subst h
    exact ⟨fun d hd => absurd hd List.not_mem_nil, fun _ _ _ => rfl⟩
  | cons d rest ih =>
    rw [List.foldlM_cons, bind_eq_ok] at h
    obtain ⟨mid, hd, hrest⟩ := h
    obtain ⟨hnew, hrest_keys⟩ := List.nodup_cons.1 hkeys
    obtain ⟨hmoved, hsame⟩ := apply_holder_balance_delta_row hd
    obtain ⟨hmoved_rest, hsame_rest⟩ := ih hrest_keys hrest
    constructor
    · intro e he
      rcases List.mem_cons.1 he with rfl | he
      · -- the rest of the map does not name this account again
        rw [hsame_rest source.id e.1 (Or.inr hnew)]
        exact hmoved
      · -- and the first delta is of another account
        have hne : (source.id, e.1) ≠ (source.id, d.1) := fun heq =>
          hnew (List.mem_map.2 ⟨e, he, (Prod.ext_iff.1 heq).2⟩)
        rw [← hsame source.id e.1 hne]
        exact hmoved_rest e he
    · intro source_id a hother
      rw [List.map_cons, List.mem_cons, not_or] at hother
      have hne : (source_id, a) ≠ (source.id, d.1) := by
        intro heq
        obtain ⟨hs, ha⟩ := Prod.ext_iff.1 heq
        rcases hother with hother | hother
        · exact hother hs
        · exact hother.1 ha
      rw [hsame_rest source_id a (hother.imp_right And.right), hsame source_id a hne]

/-! ## Replacing a row

The reversal of the previous row brings no blocks, so a conflicting upsert keeps the blocks
it had: the merged row is in the block it was first stored in, and brings that block again
where it is active. The minimum and the maximum take it in without a change.
-/

theorem RowMoved.tracks {delta : BalanceDelta} {old new : Option TokenBalanceRow}
    {credited moved credited' moved' : Set Int} (h : RowMoved delta old new)
    (hold : Tracks credited moved old) (hfirst : IsLeastOf credited' delta.first_received_block)
    (hlast : IsGreatestOf moved' delta.last_moved_block)
    (hzero : old = none → delta.balance_delta = 0 → credited' = ∅ ∧ moved' = ∅) :
    Tracks (credited ∪ credited') (moved ∪ moved') new := by
  cases old with
  | none =>
    obtain ⟨hcredited, hmoved⟩ := hold
    rw [hcredited, hmoved, Set.empty_union, Set.empty_union]
    rcases h with ⟨hdelta, rfl⟩ | ⟨row, rfl, hrow_first, hrow_last⟩
    · exact hzero rfl hdelta
    · rw [tracks_some, hrow_first, hrow_last]
      exact ⟨hfirst, hlast⟩
  | some old =>
    obtain ⟨row, rfl, hrow_first, hrow_last⟩ := h
    rw [tracks_some, hrow_first, hrow_last, min_optional_block_eq, max_optional_block_eq]
    exact ⟨hold.1.union hfirst, hold.2.union hlast⟩

theorem LedgerEntryRow.credits.moves {a : Account} {row : LedgerEntryRow} (h : row.credits a) :
    row.moves a := Or.inl h

/-- Replacing `previous` by `current` adds the block of `current`, once it is active, to the
accounts it credits and moves, as long as no account without a row is left at zero. -/
theorem apply_balance_delta_tracks {db db' : Db} {source : SourceRef}
    {previous : Option LedgerEntryRow} {current : LedgerEntryRow} {credited moved : Account → Set Int}
    (h : apply_balance_delta db source previous current = .ok db')
    (htracks : ∀ a, Tracks (credited a) (moved a) (db.balance_row source.id a))
    (hnonzero : current.orphaned = false → ∀ a, current.moves a →
      db.balance_row source.id a = none → worth (balance_deltas previous current) a ≠ 0) (a : Account) :
    Tracks
      (credited a ∪ {b | (current.orphaned = false ∧ current.credits a) ∧ b = current.block_number})
      (moved a ∪ {b | (current.orphaned = false ∧ current.moves a) ∧ b = current.block_number})
      (db'.balance_row source.id a) := by
  have hperm := List.perm_insertionSort holder_token_le (balance_deltas previous current)
  have hdistinct := balance_deltas_distinct previous current
  have hsorted : DistinctAccounts ((balance_deltas previous current).insertionSort holder_token_le) :=
    (hperm.map _).nodup_iff.2 hdistinct
  obtain ⟨hmoved, hsame⟩ := apply_deltas_rows hsorted h
  -- an account the active row does not move gains nothing
  have hnothing : ¬ (current.orphaned = false ∧ current.moves a) →
      {b | (current.orphaned = false ∧ current.credits a) ∧ b = current.block_number} = ∅ ∧
      {b | (current.orphaned = false ∧ current.moves a) ∧ b = current.block_number} = ∅ := by
    intro hnot
    constructor
    · refine Set.eq_empty_of_forall_notMem ?_
      rintro b ⟨⟨hactive, hcredits⟩, -⟩
      exact hnot ⟨hactive, hcredits.moves⟩
    · refine Set.eq_empty_of_forall_notMem ?_
      rintro b ⟨hmoves, -⟩
      exact hnot hmoves
  by_cases hkey : a ∈ (balance_deltas previous current).map (·.1)
  · obtain ⟨d, hd, rfl⟩ := List.mem_map.1 hkey
    obtain ⟨hfirst, hlast⟩ := balance_deltas_blocks previous current d.1
    rw [hdistinct.delta_at_of_mem hd] at hfirst hlast
    refine (hmoved d (hperm.mem_iff.2 hd)).tracks (htracks d.1) ?_ ?_ ?_
    · rw [hfirst]
      exact isLeastOf_ite current.block_number
    · rw [hlast]
      exact isGreatestOf_ite current.block_number
    · intro hnone hzero
      refine hnothing ?_
      rintro ⟨hactive, hmoves⟩
      refine hnonzero hactive d.1 hmoves hnone ?_
      rw [hdistinct.worth_of_mem hd]
      exact hzero
  · have hnot : ¬ (current.orphaned = false ∧ current.moves a) := by
      rintro ⟨hactive, hmoves⟩
      exact hkey (mem_balance_deltas previous hactive hmoves)
    obtain ⟨hcredited, hmoved⟩ := hnothing hnot
    rw [hcredited, hmoved, Set.union_empty, Set.union_empty, hsame source.id a (Or.inr ?_)]
    · exact htracks a
    · rw [(hperm.map _).mem_iff]
      exact hkey

theorem apply_balance_delta_other {db db' : Db} {source : SourceRef}
    {previous : Option LedgerEntryRow} {current : LedgerEntryRow}
    (h : apply_balance_delta db source previous current = .ok db') {source_id : Uuid}
    (hother : source_id ≠ source.id) (a : Account) :
    db'.balance_row source_id a = db.balance_row source_id a := by
  have hperm := List.perm_insertionSort holder_token_le (balance_deltas previous current)
  have hsorted : DistinctAccounts ((balance_deltas previous current).insertionSort holder_token_le) :=
    (hperm.map _).nodup_iff.2 (balance_deltas_distinct previous current)
  exact (apply_deltas_rows hsorted h).2 source_id a (Or.inl hother)

/-! ## Persisting logs

The one way a persist can lose a block is an entry that names an account without changing it,
before the account has a row: a transfer of nothing, or one to oneself. No row is inserted
for it, and the entry is active all the same. Such an entry has to find the balance there.
-/

theorem mem_blocks_of {db : Db} {source_id : Uuid} {p : LedgerEntryRow → Prop} {b : Int} :
    b ∈ db.blocks_of source_id p ↔ ∃ e ∈ db.ledger_entries.rows,
      e.source_id = source_id ∧ e.orphaned = false ∧ p e ∧ e.block_number = b := by
  unfold Db.blocks_of Db.active_entries
  simp [List.mem_filter, and_assoc]

/-- The accounts a row moves. -/
def LedgerEntryRow.accounts (row : LedgerEntryRow) : List Account :=
  row.movement.credited.toList ++ row.movement.debited.toList

theorem LedgerEntryRow.mem_accounts {row : LedgerEntryRow} {a : Account} :
    a ∈ row.accounts ↔ row.moves a := by
  unfold LedgerEntryRow.accounts LedgerEntryRow.moves
  rw [List.mem_append, Option.mem_toList, Option.mem_toList]

/-- An account to which an active row adds nothing (an amount of zero, or a transfer to
itself) has its balance row already. Without one the delta is zero for a holder who is not
there, `apply_holder_balance_delta` inserts nothing, and the block of the row is in no
column. -/
def FindsBalances (db : Db) (source_id : Uuid) (row : LedgerEntryRow) : Prop :=
  row.orphaned = false → ∀ a ∈ row.accounts, row.movement.effect a = 0 →
    (db.balance_row source_id a).isSome = true

instance (db : Db) (source_id : Uuid) (row : LedgerEntryRow) :
    Decidable (FindsBalances db source_id row) := inferInstanceAs (Decidable (_ → _))

section Persist

variable {parseAmount : AmountParser} {source : SourceRef} {options : PersistDecodedLogsOptions}

variable (parseAmount source options) in
/-- The row an entry is stored as finds the balances it adds nothing to. -/
def EntryFinds (log : RpcLog) (event_id : Uuid) (db : Db) (entry : DecodedLedgerEntry) : Prop :=
  ∀ values, new_ledger_entry_row parseAmount db.next_uuid source log event_id entry = .ok values →
    FindsBalances db source.id (touched options db.ledger_entries.rows values)

variable (parseAmount source options) in
/-- Each entry of a log does, when its turn comes. -/
def LogFinds (db : Db) (log : RpcLog × DecodedLog) : Prop :=
  ∀ event, upsert_event db source log.1 log.2 options = .ok event →
    EachTurn (persist_entry parseAmount source log.1 event.1 options)
      (EntryFinds parseAmount source options log.1 event.1) event.2 log.2.entries

instance (log : RpcLog) (event_id : Uuid) (db : Db) (entry : DecodedLedgerEntry) :
    Decidable (EntryFinds parseAmount source options log event_id db entry) :=
  inferInstanceAs (Decidable (∀ values, _ = Except.ok values → _))

instance (db : Db) (log : RpcLog × DecodedLog) :
    Decidable (LogFinds parseAmount source options db log) :=
  inferInstanceAs (Decidable (∀ event, _ = Except.ok event → _))

theorem LedgerEntryRow.stored_moves (options : PersistDecodedLogsOptions)
    (values old : LedgerEntryRow) :
    (values.stored options old).movement.credited = old.movement.credited ∧
      (values.stored options old).movement.debited = old.movement.debited ∧
      (values.stored options old).block_number = old.block_number := by
  unfold LedgerEntryRow.stored
  split <;> exact ⟨rfl, rfl, rfl⟩

theorem HoldersTracked.of_eq {db db' : Db} (h : HoldersTracked db)
    (hentries : db'.ledger_entries = db.ledger_entries)
    (hbalances : db'.token_balances = db.token_balances) : HoldersTracked db' := by
  unfold HoldersTracked Db.blocks_of Db.active_entries Db.balance_row at h ⊢
  rw [hentries, hbalances]
  exact h

/-- The blocks of the active rows once `current` is stored: `current` adds its own. -/
theorem blocks_of_stored {db db' : Db} {current : LedgerEntryRow} {p : LedgerEntryRow → Prop}
    (hrows : db'.ledger_entries.rows = db.ledger_entries.rows ++ [current] ∨
      ∃ old ∈ db.ledger_entries.rows,
        db'.ledger_entries.rows = replaceRow old current db.ledger_entries.rows ∧
        current.source_id = old.source_id ∧ (old.orphaned = false → current.orphaned = false) ∧
        (p old → p current) ∧ current.block_number = old.block_number) (source_id : Uuid) :
    db'.blocks_of source_id p = db.blocks_of source_id p ∪ {b | (current.source_id = source_id ∧
      current.orphaned = false ∧ p current) ∧ b = current.block_number} := by
  ext b
  rw [Set.mem_union, mem_blocks_of, mem_blocks_of, Set.mem_ofPred_eq]
  rcases hrows with hrows | ⟨old, hold, hrows, hsource, hactive, hp, hblock⟩
  · -- a new row: the blocks of the table grow by its own
    simp only [hrows, List.mem_append, List.mem_singleton, or_and_right, exists_or, exists_eq_left]
    refine or_congr_right ?_
    constructor
    · rintro ⟨h1, h2, h3, h4⟩
      exact ⟨⟨h1, h2, h3⟩, h4.symm⟩
    · rintro ⟨⟨h1, h2, h3⟩, h4⟩
      exact ⟨h1, h2, h3, h4.symm⟩
  · -- a replaced row: what counted for `old` still counts for `current`, at the same block
    simp only [hrows, mem_replaceRow hold]
    constructor
    · rintro ⟨e, rfl | ⟨he, -⟩, h1, h2, h3, h4⟩
      · exact Or.inr ⟨⟨h1, h2, h3⟩, h4.symm⟩
      · exact Or.inl ⟨e, he, h1, h2, h3, h4⟩
    · rintro (⟨e, he, h1, h2, h3, h4⟩ | ⟨⟨h1, h2, h3⟩, h4⟩)
      · by_cases heq : e = old
        · subst heq
          exact ⟨current, Or.inl rfl, hsource.trans h1, hactive h2, hp h3, hblock.trans h4⟩
        · exact ⟨e, Or.inr ⟨he, heq⟩, h1, h2, h3, h4⟩
      · exact ⟨current, Or.inl rfl, h1, h2, h3, h4.symm⟩

/-- Persisting an entry that finds its balances keeps every account tracked. -/
theorem HoldersTracked.persist_entry {db db' : Db} (h : HoldersTracked db) {log : RpcLog}
    {event_id : Uuid} {entry : DecodedLedgerEntry}
    (hfinds : EntryFinds parseAmount source options log event_id db entry)
    (hentry : persist_entry parseAmount source log event_id options db entry = .ok db') :
    HoldersTracked db' := by
  obtain ⟨previous, current, mid, hprev, hmine, hupsert, happly⟩ := persist_entry_spec hentry
  obtain ⟨hframe, -⟩ := apply_balance_delta_spec happly
  obtain ⟨values, ledger_entries, hvalues, -, hmid, hfound, hrows⟩ :=
    upsert_ledger_entry_spec hprev hupsert
  obtain ⟨hvalues_source, -, -⟩ := new_ledger_entry_row_key hvalues
  have hfinds := hfinds values hvalues
  have hbalances : ∀ source_id a, mid.balance_row source_id a = db.balance_row source_id a := by
    intro source_id a
    rw [hmid]
    rfl
  have hentries : mid.ledger_entries = ledger_entries := by rw [hmid]
  -- the row the entry leaves is the source's, and moves what the one before it moved
  have hcurrent : touched options db.ledger_entries.rows values = current ∧
      current.source_id = source.id := by
    unfold touched
    rw [← hfound]
    rcases hrows with ⟨rfl, rfl, -⟩ | ⟨old, rfl, -, -, rfl, -⟩
    · exact ⟨rfl, hvalues_source⟩
    · exact ⟨rfl, (LedgerEntryRow.stored_source_id options values old).trans (hmine old rfl)⟩
  obtain ⟨hcurrent, hcurrent_source⟩ := hcurrent
  rw [hcurrent] at hfinds
  have hblocks : ∀ p : LedgerEntryRow → Prop,
      (∀ old, current = values.stored options old → p old → p current) → ∀ source_id,
      db'.blocks_of source_id p = db.blocks_of source_id p ∪ {b | (current.source_id = source_id ∧
        current.orphaned = false ∧ p current) ∧ b = current.block_number} := by
    intro p hp
    refine blocks_of_stored ?_
    rw [hframe.ledger_entries, hentries]
    rcases hrows with ⟨-, rfl, hrows⟩ | ⟨old, -, hold, -, heq, hrows⟩
    · exact Or.inl hrows
    · refine Or.inr ⟨old, hold, hrows, ?_, ?_, hp old heq, ?_⟩
      · rw [heq, LedgerEntryRow.stored_source_id]
      · intro hactive
        rw [heq, (LedgerEntryRow.stored_takes options values old).2.2, hactive]
        rfl
      · rw [heq]
        exact (LedgerEntryRow.stored_moves options values old).2.2
  have hcredits : ∀ (a : Account) (old : LedgerEntryRow), current = values.stored options old →
      (old.credits a ↔ current.credits a) := by
    intro a old heq
    unfold LedgerEntryRow.credits
    rw [heq, (LedgerEntryRow.stored_moves options values old).1]
  have hmoves : ∀ (a : Account) (old : LedgerEntryRow), current = values.stored options old →
      (old.moves a ↔ current.moves a) := by
    intro a old heq
    obtain ⟨hcredited, hdebited, -⟩ := LedgerEntryRow.stored_moves options values old
    unfold LedgerEntryRow.moves
    rw [heq, hcredited, hdebited]
  intro source_id a
  rw [hblocks _ fun old heq => (hcredits a old heq).1, hblocks _ fun old heq => (hmoves a old heq).1]
  by_cases hsource : source_id = source.id
  · subst hsource
    have hbefore : ∀ a, Tracks (db.blocks_of source.id (LedgerEntryRow.credits a))
        (db.blocks_of source.id (LedgerEntryRow.moves a)) (mid.balance_row source.id a) := by
      intro a
      rw [hbalances]
      exact h source.id a
    have htracks := apply_balance_delta_tracks happly hbefore ?_ a
    · simp only [hcurrent_source, true_and]
      exact htracks
    · intro hactive a hcurrent_moves hnone
      rw [hbalances] at hnone
      have hunmoved := h source.id a
      rw [hnone] at hunmoved
      -- an account without a row had no active entry, so the row before moved nothing
      have hprevious : (previous.map (·.contribution a)).getD 0 = 0 := by
        rcases hrows with ⟨rfl, -, -⟩ | ⟨old, rfl, hold, -, heq, -⟩
        · rfl
        · rw [Option.map_some, Option.getD_some]
          unfold LedgerEntryRow.contribution
          split
          · rfl
          · rename_i hold_active
            have hblock : old.block_number ∈ db.blocks_of source.id (LedgerEntryRow.moves a) :=
              mem_blocks_of.2 ⟨old, hold, hmine old rfl, Bool.eq_false_iff.2 hold_active,
                (hmoves a old heq).2 hcurrent_moves, rfl⟩
            rw [hunmoved.2] at hblock
            exact absurd hblock (Set.notMem_empty _)
      rw [balance_deltas_worth, hprevious, sub_zero]
      unfold LedgerEntryRow.contribution
      rw [if_neg (Bool.eq_false_iff.1 hactive)]
      intro hzero
      have hsome := hfinds hactive a (LedgerEntryRow.mem_accounts.2 hcurrent_moves) hzero
      rw [hnone] at hsome
      exact Bool.false_ne_true hsome
  · have hnot : ∀ q : Prop, ({b | (current.source_id = source_id ∧ q) ∧ b = current.block_number} : Set Int) = ∅ := by
      intro q
      refine Set.eq_empty_of_forall_notMem ?_
      rintro b ⟨⟨heq, -⟩, -⟩
      exact hsource (heq.symm.trans hcurrent_source)
    rw [hnot, hnot, Set.union_empty, Set.union_empty, apply_balance_delta_other happly hsource,
      hbalances]
    exact h source_id a

/-- Persisting logs whose entries find their balances keeps every account tracked. -/
theorem HoldersTracked.persist_logs {db db' : Db} (h : HoldersTracked db)
    {logs : List (RpcLog × DecodedLog)}
    (hfinds : EachTurn (persist_log parseAmount source options) (LogFinds parseAmount source options)
      db logs)
    (hlogs : logs.foldlM (persist_log parseAmount source options) db = .ok db') :
    HoldersTracked db' := by
  refine hfinds.invariant ?_ h hlogs
  intro s log t hs hlog hturn
  unfold persist_log at hturn
  rw [bind_eq_ok] at hturn
  obtain ⟨⟨event_id, mid⟩, hevent, hentries⟩ := hturn
  have hframe := upsert_event_frame hevent
  have hfirst : HoldersTracked mid := hs.of_eq (by rw [hframe]) (by rw [hframe])
  exact (hlog (event_id, mid) hevent).invariant (fun _ _ _ hmid hentry hstep => hmid.persist_entry hentry hstep)
    hfirst hentries

end Persist

/-! ## Orphaning a range

A reversal subtracts what an entry moved and takes back no block: the columns can only go
down and up, never be undone. So orphaning keeps them right just as long as the first credit
and the last move of every account it touches lie outside the range.
-/

/-- What the active rows of the range credit was credited before it, and what they move is
moved after it, by active rows of the source. The first block of a credited account and the
last block of a moved one then stay what they were, and those are the columns that a reversal
would have to lower or raise. -/
def OrphansInside (db : Db) (source_id : Uuid) (from_block to_block : Int) : Prop :=
  ∀ e ∈ db.ledger_entries.rows, e.active_in source_id from_block to_block = true →
    (∀ a ∈ e.movement.credited, ∃ r ∈ db.active_entries source_id,
      r.credits a ∧ r.block_number < from_block) ∧
    ∀ a ∈ e.accounts, ∃ r ∈ db.active_entries source_id, r.moves a ∧ to_block < r.block_number

instance (db : Db) (source_id : Uuid) (from_block to_block : Int) :
    Decidable (OrphansInside db source_id from_block to_block) :=
  inferInstanceAs (Decidable (∀ e ∈ _, _ → _ ∧ _))

theorem Tracks.of_subset {credited moved credited' moved' : Set Int} {row : Option TokenBalanceRow}
    (h : Tracks credited moved row) (hcredited : credited' ⊆ credited) (hmoved : moved' ⊆ moved)
    (hbelow : ∀ x ∈ credited, ∃ y ∈ credited', y ≤ x) (habove : ∀ x ∈ moved, ∃ y ∈ moved', x ≤ y) :
    Tracks credited' moved' row := by
  cases row with
  | none =>
    obtain ⟨rfl, rfl⟩ := h
    exact ⟨Set.subset_empty_iff.1 hcredited, Set.subset_empty_iff.1 hmoved⟩
  | some r => exact ⟨h.1.of_subset hcredited hbelow, h.2.of_subset hmoved habove⟩

/-- Reversing rows moves no column of a row that is there. -/
theorem reverse_entries_tracks {source : SourceRef} {rows : List LedgerEntryRow} {db db' : Db}
    {credited moved : Uuid → Account → Set Int}
    (h : rows.foldlM (reverse_entry source) db = .ok db')
    (htracks : ∀ source_id a, Tracks (credited source_id a) (moved source_id a)
      (db.balance_row source_id a)) :
    ∀ source_id a, Tracks (credited source_id a) (moved source_id a) (db'.balance_row source_id a) := by
  induction rows generalizing db with
  | nil =>
    rw [List.foldlM_nil, pure_eq_ok] at h
    subst h
    exact htracks
  | cons row rest ih =>
    rw [List.foldlM_cons, bind_eq_ok] at h
    obtain ⟨mid, hrow, hrest⟩ := h
    refine ih hrest ?_
    intro source_id a
    by_cases hsource : source_id = source.id
    · subst hsource
      have hmid := apply_balance_delta_tracks hrow (htracks source.id)
        (fun hactive => absurd hactive (by simp [LedgerEntryRow.set_orphaned])) a
      -- an orphaned row counts for no account, so the blocks to track do not grow
      have hnothing : ∀ p : Prop, ({b | ((row.set_orphaned true).orphaned = false ∧ p) ∧
          b = (row.set_orphaned true).block_number} : Set Int) = ∅ := by
        intro p
        refine Set.eq_empty_of_forall_notMem ?_
        rintro b ⟨⟨hactive, -⟩, -⟩
        cases hactive
      rw [hnothing, hnothing, Set.union_empty, Set.union_empty] at hmid
      exact hmid
    · rw [apply_balance_delta_other hrow hsource]
      exact htracks source_id a

/-- Orphaning inside the history of its accounts keeps them tracked. -/
theorem HoldersTracked.orphan {db db' : Db} (h : HoldersTracked db) {source : SourceRow}
    {from_block to_block : Int} {summary : OrphanRangeSummary}
    (hinside : OrphansInside db source.id from_block to_block)
    (horphan : orphan_source_range db source from_block to_block = .ok (summary, db')) :
    HoldersTracked db' := by
  obtain ⟨mid, hmid, hdb, hrows, -⟩ := orphan_source_range_spec horphan
  have hrow : ∀ source_id a, db'.balance_row source_id a = mid.balance_row source_id a := by
    intro source_id a
    rw [hdb]
    rfl
  -- the rows that stay active are those outside the range
  have hmem : ∀ (p : LedgerEntryRow → Prop) (source_id : Uuid) (b : Int),
      b ∈ db'.blocks_of source_id p ↔ ∃ e ∈ db.ledger_entries.rows, (e.source_id = source_id ∧
        e.orphaned = false ∧ p e ∧ e.block_number = b) ∧
        ¬ e.active_in source.id from_block to_block = true := by
    intro p source_id b
    rw [mem_blocks_of, hrows]
    constructor
    · rintro ⟨e', he', hactive⟩
      obtain ⟨e, he, rfl⟩ := List.mem_map.1 he'
      unfold Table.setRow at hactive
      split at hactive
      · cases hactive.2.1
      · rename_i hout
        exact ⟨e, he, hactive, hout⟩
    · rintro ⟨e, he, hactive, hout⟩
      refine ⟨e, List.mem_map.2 ⟨e, he, ?_⟩, hactive⟩
      unfold Table.setRow
      rw [if_neg hout]
  have hsub : ∀ (p : LedgerEntryRow → Prop) (source_id : Uuid),
      db'.blocks_of source_id p ⊆ db.blocks_of source_id p := by
    intro p source_id b hb
    obtain ⟨e, he, hactive, -⟩ := (hmem p source_id b).1 hb
    exact mem_blocks_of.2 ⟨e, he, hactive⟩
  -- a row before or after the range stays
  have hstays : ∀ (p : LedgerEntryRow → Prop) (r : LedgerEntryRow), r ∈ db.active_entries source.id →
      p r → (r.block_number < from_block ∨ to_block < r.block_number) →
        r.block_number ∈ db'.blocks_of source.id p := by
    intro p r hr hp hout
    unfold Db.active_entries at hr
    obtain ⟨hr, hactive⟩ := List.mem_filter.1 hr
    rw [Bool.and_eq_true, beq_iff_eq, Bool.not_eq_true'] at hactive
    refine (hmem p source.id r.block_number).2 ⟨r, hr, ⟨hactive.1, hactive.2, hp, rfl⟩, ?_⟩
    rw [active_in_iff]
    omega
  intro source_id a
  rw [hrow]
  refine (reverse_entries_tracks hmid h source_id a).of_subset (hsub _ _) (hsub _ _) ?_ ?_
  · intro b hb
    obtain ⟨e, he, hactive⟩ := mem_blocks_of.1 hb
    by_cases hin : e.active_in source.id from_block to_block = true
    · obtain ⟨hsource, hfrom, hto, -⟩ := active_in_iff.1 hin
      obtain ⟨r, hr, hcredits, hbefore⟩ := (hinside e he hin).1 a hactive.2.2.1
      have hsame : source_id = source.id := hactive.1.symm.trans hsource
      rw [hsame]
      refine ⟨r.block_number, hstays _ r hr hcredits (Or.inl hbefore), ?_⟩
      have hblock := hactive.2.2.2
      omega
    · exact ⟨b, (hmem _ source_id b).2 ⟨e, he, hactive, hin⟩, le_refl b⟩
  · intro b hb
    obtain ⟨e, he, hactive⟩ := mem_blocks_of.1 hb
    by_cases hin : e.active_in source.id from_block to_block = true
    · obtain ⟨hsource, hfrom, hto, -⟩ := active_in_iff.1 hin
      obtain ⟨r, hr, hmoves, hafter⟩ := (hinside e he hin).2 a (LedgerEntryRow.mem_accounts.2 hactive.2.2.1)
      have hsame : source_id = source.id := hactive.1.symm.trans hsource
      rw [hsame]
      refine ⟨r.block_number, hstays _ r hr hmoves (Or.inr hafter), ?_⟩
      have hblock := hactive.2.2.2
      omega
    · exact ⟨b, (hmem _ source_id b).2 ⟨e, he, hactive, hin⟩, le_refl b⟩

/-! ## Runs

The invariant is more than what is said of the columns: every account is tracked, by
its row or by having no entries; the columns follow (`HoldersTracked.holderBlocks`). Both
conditions are on the state a call finds, and both can be evaluated.
-/

section Runs

/-- The calls that persist or orphan, for sources that are there. -/
def PersistsOrOrphans : LedgerOp → Prop
  | .update_log_metadata .. => False
  | _ => True

variable (parseAmount : AmountParser)

/-- A call that persists finds the balances of its entries, each when its turn in the loop
comes, and one that orphans leaves the first credit and the last move of every account it
touches. A repair of the metadata is left out: it writes the block of an entry and no column
of a balance. -/
def StepTracks (db : Db) : LedgerOp → Prop
  | .ensure_source .. => True
  | .persist_decoded_logs_with_options source logs options =>
    EachTurn (persist_log parseAmount source options) (LogFinds parseAmount source options) db logs
  | .orphan_source_range source from_block to_block => OrphansInside db source.id from_block to_block
  | .update_log_metadata .. => False

variable {parseAmount}

instance (db : Db) (op : LedgerOp) : Decidable (StepTracks parseAmount db op) :=
  match op with
  | .ensure_source .. => isTrue trivial
  | .persist_decoded_logs_with_options source logs options =>
    inferInstanceAs (Decidable (EachTurn (persist_log parseAmount source options) _ db logs))
  | .orphan_source_range source from_block to_block =>
    inferInstanceAs (Decidable (OrphansInside db source.id from_block to_block))
  | .update_log_metadata .. => isFalse not_false

/-- What one call leaves. -/
theorem HoldersTracked.apply {db db' : Db} {op : LedgerOp} (h : HoldersTracked db)
    (htracks : StepTracks parseAmount db op) (hop : op.apply parseAmount db = .ok db') :
    HoldersTracked db' := by
  cases op with
  | ensure_source chain_id name contract_address standard start_block =>
    obtain ⟨row, hrow⟩ := map_snd_eq_ok.1 hop
    have hframe := ensure_source_frame hrow
    exact h.of_eq (by rw [hframe]) (by rw [hframe])
  | persist_decoded_logs_with_options source logs options =>
    obtain ⟨summary, hsummary⟩ := map_snd_eq_ok.1 hop
    exact h.persist_logs htracks (persist_decoded_logs_iff.1 ⟨summary, hsummary⟩).2
  | orphan_source_range source from_block to_block =>
    obtain ⟨summary, hsummary⟩ := map_snd_eq_ok.1 hop
    exact h.orphan htracks hsummary
  | update_log_metadata source log => exact absurd htracks not_false

theorem HoldersTracked.of_sameRows {db db' : Db} (h : HoldersTracked db) (hsame : db.SameRows db') :
    HoldersTracked db' := by
  have hblocks : ∀ source_id p, db'.blocks_of source_id p = db.blocks_of source_id p := by
    intro source_id p
    ext b
    simp only [mem_blocks_of, hsame.ledger_entries.mem_iff]
  have hrow : ∀ source_id a, db'.balance_row source_id a = db.balance_row source_id a := by
    intro source_id a
    refine Option.ext fun r => ?_
    rw [balance_row_eq_some, balance_row_eq_some, hsame.token_balances.mem_iff]
  intro source_id a
  rw [hblocks, hblocks, hrow]
  exact h source_id a

/-- In every run whose calls are all so, the block columns of every balance are those of
the non-orphaned entries. -/
theorem holder_blocks_follow_history {ops : List LedgerOp} {db : Db}
    (h : Run (Guarded (LedgerStep parseAmount) (StepTracks parseAmount)) Db.empty ops db) :
    HolderBlocks db := by
  have hempty : HoldersTracked Db.empty := by
    intro source_id a
    have hnone : ∀ p, Db.empty.blocks_of source_id p = ∅ := by
      intro p
      refine Set.eq_empty_of_forall_notMem ?_
      rintro b ⟨e, he, -⟩
      exact absurd he List.not_mem_nil
    exact ⟨hnone _, hnone _⟩
  have hkept : HoldersTracked db := by
    refine guarded_ledger_invariant ?_ (fun _ _ hs hsame => hs.of_sameRows hsame) h hempty
    intro s op t hs htracks hok
    exact hs.apply htracks hok
  exact hkept.holderBlocks

end Runs

/-! ## A mint that is orphaned -/

/-- Mints to one holder in three blocks, with one of the blocks orphaned. -/
def mints_without (block : Int) : List LedgerOp :=
  small_ledger
    [erc20_transfer "0x1" "0xb1" "0xd1" zero_address alice,
     erc20_transfer "0x2" "0xb2" "0xd2" zero_address alice,
     erc20_transfer "0x3" "0xb3" "0xd3" zero_address alice] ++
    [.orphan_source_range small_source block block]

theorem holder_blocks_follow_history_second_mint :
    HolderBlocks ((mints_without 2).foldl (LedgerOp.commit plain_digits) Db.empty) :=
  holder_blocks_follow_history (run_of_allowed (by decide +kernel))

/-- With the first block orphaned, it stays the one that the holder first received in. -/
theorem orphaned_mint_stays_first :
    ¬ ∀ (ops : List LedgerOp) (db : Db), (∀ op ∈ ops, PersistsOrOrphans op) →
      Run (LedgerStep plain_digits) Db.empty ops db → HolderBlocks db := by
  intro h
  have hops : ∀ op ∈ mints_without 1, PersistsOrOrphans op := by
    intro op hop
    simp only [mints_without, small_ledger, List.cons_append, List.nil_append, List.mem_cons,
      List.not_mem_nil, or_false] at hop
    rcases hop with rfl | rfl | rfl <;> trivial
  have hblocks := h _ _ hops (run_of_commits Db.empty (mints_without 1))
  have hrow : ∃ r ∈ ((mints_without 1).foldl (LedgerOp.commit plain_digits)
      Db.empty).token_balances.rows, r.first_received_block = some 1 ∧
        ∀ e ∈ ((mints_without 1).foldl (LedgerOp.commit plain_digits)
          Db.empty).active_entries r.source_id, e.block_number ≠ 1 := by decide +kernel
  obtain ⟨r, hr, hfirst, hnone⟩ := hrow
  obtain ⟨hleast, -⟩ := hblocks r hr
  rw [hfirst] at hleast
  obtain ⟨⟨e, he, -, hblock⟩, -⟩ := hleast
  exact hnone e he hblock

end EvmIndexer
