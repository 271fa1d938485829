/-
The two rankings of a contract: its holders and its minters.

`top_holders_conn` sorts the stored balances. `top_minters_conn` groups the active mints by
address, counts them, and looks up two more rows for each group: the entry of its first mint
and that of its last, whose timestamps it shows. Both cut the sorted list at a limit.

In every database of the ledger the holders shown have the nets of the active entries
(`top_holders_are_exact`), and the minters the numbers, blocks and timestamps of theirs
(`top_minters_are_exact`); whoever is left out ranks behind all who are shown, and the lists
are as long as the counts that `contract_summary` shows beside them, up to the limit.
-/
import EvmIndexer.Supply
import EvmIndexer.Pages
import EvmIndexer.Lib.Ranking

set_option autoImplicit false

namespace EvmIndexer

open Sql Transition

/-! ## Holders

The query reads `token_balances` and nothing else. That its rows are the nets of the ledger
is the balance law; that an account is shown once is the constraint on the account.
-/

/-- The order of `top_holders_conn`. -/
def balance_ge (a b : TokenBalanceRow) : Prop := b.balance ≤ a.balance

instance : DecidableRel balance_ge := fun _ _ => inferInstanceAs (Decidable (_ ≤ _))

instance : Std.Total balance_ge := ⟨fun a b => le_total b.balance a.balance⟩

instance : IsTrans TokenBalanceRow balance_ge := ⟨fun _ _ _ hab hbc => le_trans hbc hab⟩

section Holders

variable {db : Db} {source_id : Uuid} {limit : Nat}

theorem top_holders_eq (db : Db) (source_id : Uuid) (limit : Nat) :
    top_holders_conn db source_id limit = Ranking.top balance_ge limit
      (db.token_balances.rows.filter fun r => r.source_id == source_id && decide (0 < r.balance)) :=
  rfl

/-- A row with a positive balance of an account is the row the account has. -/
theorem balance_of_row {row : TokenBalanceRow} (hrow : row ∈ db.token_balances.rows) :
    db.balance row.source_id row.account = row.balance := by
  have hfind : db.token_balances.rows.find?
      (TokenBalanceRow.of_holder row.source_id row.account.1 row.account.2) = some row :=
    (db.token_balances.find?_eq_some_iff fun a _ b _ => of_holder_clash a b).2
      ⟨hrow, of_holder_iff.2 ⟨rfl, rfl, rfl⟩⟩
  unfold Db.balance
  rw [hfind]
  rfl

/-- The rows that are ranked are those of the accounts the ledger leaves positive. -/
theorem exists_positive_row (hdb : Balanced db) {holder token_id : String}
    (h : db.Holds source_id holder token_id) :
    ∃ row ∈ db.token_balances.rows.filter
        (fun r => r.source_id == source_id && decide (0 < r.balance)),
      row.account = (holder, token_id) := by
  have hmem := (mem_positive_accounts hdb).2 h
  unfold positive_accounts at hmem
  obtain ⟨row, hrow, haccount⟩ := List.mem_map.1 hmem
  exact ⟨row, hrow, haccount⟩

/-- What a ranked row shows is the net of its account. -/
theorem ranked_holder {parseAmount : AmountParser} (h : LedgerReachable parseAmount db)
    {row : TokenBalanceRow} (hrow : row ∈ db.token_balances.rows.filter
      fun r => r.source_id == source_id && decide (0 < r.balance)) :
    row.source_id = source_id ∧ 0 < row.balance ∧ row.balance = db.net source_id row.account := by
  obtain ⟨hmem, hselected⟩ := List.mem_filter.1 hrow
  rw [Bool.and_eq_true, beq_iff_eq, decide_eq_true_eq] at hselected
  refine ⟨hselected.1, hselected.2, ?_⟩
  rw [← h.balanced, ← hselected.1, balance_of_row hmem]

theorem shown_holder {parseAmount : AmountParser} (h : LedgerReachable parseAmount db)
    {row : TokenBalanceRow} (hrow : row ∈ top_holders_conn db source_id limit) :
    row.source_id = source_id ∧ 0 < row.balance ∧ row.balance = db.net source_id row.account :=
  ranked_holder h (Ranking.mem_of_mem_top hrow)

theorem length_top_holders (db : Db) (source_id : Uuid) (limit : Nat) :
    (top_holders_conn db source_id limit).length = min limit (holder_count_conn db source_id) :=
  Ranking.length_top

/-- The holders that are shown hold what they are shown with, in descending order and each
account once; there are as many as the count of holders up to the limit, and no account that
is not shown holds more than one that is. -/
theorem top_holders_are_exact {parseAmount : AmountParser} (h : LedgerReachable parseAmount db)
    (source_id : Uuid) (limit : Nat) :
    (∀ row ∈ top_holders_conn db source_id limit,
      row.source_id = source_id ∧ 0 < row.balance ∧ row.balance = db.net source_id row.account) ∧
    ((top_holders_conn db source_id limit).map (·.account)).Nodup ∧
    (top_holders_conn db source_id limit).Pairwise balance_ge ∧
    (top_holders_conn db source_id limit).length = min limit (holder_count_conn db source_id) ∧
    ∀ account, 0 < db.net source_id account →
      account ∉ (top_holders_conn db source_id limit).map (·.account) →
      ∀ row ∈ top_holders_conn db source_id limit, db.net source_id account ≤ row.balance := by
  refine ⟨fun row hrow => shown_holder h hrow, Ranking.nodup_map_top positive_accounts_nodup,
    Ranking.top_pairwise, length_top_holders db source_id limit, ?_⟩
  intro account hpositive hout row hrow
  obtain ⟨other, hother, haccount⟩ := exists_positive_row h.balanced hpositive
  -- the account has a row, which the limit cut off
  have hcut : other ∉ top_holders_conn db source_id limit :=
    fun hin => hout (List.mem_map.2 ⟨other, hin, haccount⟩)
  have hle : balance_ge row other := Ranking.le_of_not_mem_top hrow hother hcut
  have hnet := (ranked_holder h hother).2.2
  rw [haccount] at hnet
  unfold balance_ge at hle
  rw [hnet] at hle
  exact hle

end Holders

/-- The holder that is shown of the two of a collection holds no less than the other. -/
theorem top_holders_are_exact_two_tokens :
    (top_holders_conn (two_tokens bob) 0 1).length
        = min 1 (holder_count_conn (two_tokens bob) 0) ∧
      holder_count_conn (two_tokens bob) 0 = 2 ∧
      (top_holders_conn (two_tokens bob) 0 1).Pairwise balance_ge := by
  obtain ⟨-, -, hsorted, hlength, -⟩ := top_holders_are_exact (two_tokens_reachable bob) 0 1
  exact ⟨hlength, by decide +kernel, hsorted⟩

/-! ## Minters

The query is made of three: the groups, and for each group the row of its first mint and the
row of its last, joined by block and address. All of them read the active mints, and a mint
that names no receiver is in none.
-/

/-- A row of `minter_blocks`, the groups of `top_minters_conn`. -/
structure MinterBlocks where
  minter_address : String
  mint_count : Nat
  first_mint_block : Int
  last_mint_block : Int
  deriving DecidableEq, Repr

/-- `MinterSummary`. -/
structure MinterSummary where
  minter_address : String
  mint_count : Nat
  first_mint_block : Int
  first_mint_timestamp : Option Timestamp
  last_mint_block : Int
  last_mint_timestamp : Option Timestamp
  deriving DecidableEq, Repr

/-- `ORDER BY COUNT(*) DESC, MIN(block_number) ASC, to_address ASC`. -/
def MinterBlocks.rank_le (a b : MinterBlocks) : Prop :=
  b.mint_count < a.mint_count ∨ (a.mint_count = b.mint_count ∧
    (a.first_mint_block < b.first_mint_block ∨ (a.first_mint_block = b.first_mint_block ∧
      a.minter_address ≤ b.minter_address)))

instance : DecidableRel MinterBlocks.rank_le := fun _ _ => inferInstanceAs (Decidable (_ ∨ _))

/-- The active mints of a source that go to somebody. -/
def active_mints (db : Db) (source_id : Uuid) : List LedgerEntryRow :=
  db.ledger_entries.rows.filter fun r =>
    r.source_id == source_id && r.movement_type == .Mint && !r.orphaned && r.to_address.isSome

/-- The mints of one group. -/
def mints_to (mints : List LedgerEntryRow) (minter_address : String) : List LedgerEntryRow :=
  mints.filter fun r => r.to_address == some minter_address

/-- One group: `COUNT(*)`, `MIN(block_number)` and `MAX(block_number)` of its mints. -/
def minter_group (mints : List LedgerEntryRow) (minter_address : String) : Option MinterBlocks := do
  let blocks := (mints_to mints minter_address).map (·.block_number)
  let first_mint_block ← blocks.min?
  let last_mint_block ← blocks.max?
  some { minter_address, mint_count := blocks.length, first_mint_block, last_mint_block }

/-- `GROUP BY to_address`. -/
def minter_groups (mints : List LedgerEntryRow) : List MinterBlocks :=
  (mints.filterMap (·.to_address)).dedup.filterMap (minter_group mints)

/-- `ORDER BY log_index ASC, batch_index ASC`. -/
def LedgerEntryRow.log_le (a b : LedgerEntryRow) : Prop :=
  a.log_index < b.log_index ∨ (a.log_index = b.log_index ∧ a.batch_index ≤ b.batch_index)

instance : DecidableRel LedgerEntryRow.log_le := fun _ _ => inferInstanceAs (Decidable (_ ∨ _))

/-- `first_entry`: the timestamp of the first mint in the first block of a group. -/
def first_entry (mints : List LedgerEntryRow) (group : MinterBlocks) : Option Timestamp :=
  ((((mints_to mints group.minter_address).filter fun r =>
    r.block_number == group.first_mint_block).insertionSort LedgerEntryRow.log_le).head?).bind
      (·.block_timestamp)

/-- `last_entry`: the timestamp of the last mint in the last block of a group. -/
def last_entry (mints : List LedgerEntryRow) (group : MinterBlocks) : Option Timestamp :=
  ((((mints_to mints group.minter_address).filter fun r =>
    r.block_number == group.last_mint_block).insertionSort fun a b => b.log_le a).head?).bind
      (·.block_timestamp)

/-- `top_minters_conn`. The outer `ORDER BY` repeats the order of the groups. -/
def top_minters_conn (db : Db) (source_id : Uuid) (limit : Int) : List MinterSummary :=
  let mints := active_mints db source_id
  (((minter_groups mints).insertionSort MinterBlocks.rank_le).take
    (max 1 (min limit 100)).toNat).map fun group =>
      { minter_address := group.minter_address
        mint_count := group.mint_count
        first_mint_block := group.first_mint_block
        first_mint_timestamp := first_entry mints group
        last_mint_block := group.last_mint_block
        last_mint_timestamp := last_entry mints group }

/-! ### Groups

A group is there exactly for the addresses that were minted to, and its three numbers are a
count, a least and a greatest block of the same list of mints.
-/

instance : Std.Total MinterBlocks.rank_le := by
  refine ⟨fun a b => ?_⟩
  unfold MinterBlocks.rank_le
  rcases Nat.lt_trichotomy a.mint_count b.mint_count with hcount | hcount | hcount
  · exact Or.inr (Or.inl hcount)
  · rcases lt_trichotomy a.first_mint_block b.first_mint_block with hfirst | hfirst | hfirst
    · exact Or.inl (Or.inr ⟨hcount, Or.inl hfirst⟩)
    · rcases String.le_total a.minter_address b.minter_address with haddress | haddress
      · exact Or.inl (Or.inr ⟨hcount, Or.inr ⟨hfirst, haddress⟩⟩)
      · exact Or.inr (Or.inr ⟨hcount.symm, Or.inr ⟨hfirst.symm, haddress⟩⟩)
    · exact Or.inr (Or.inr ⟨hcount.symm, Or.inl hfirst⟩)
  · exact Or.inl (Or.inl hcount)

instance : IsTrans MinterBlocks MinterBlocks.rank_le := by
  refine ⟨fun a b c hab hbc => ?_⟩
  unfold MinterBlocks.rank_le at hab hbc ⊢
  rcases hab with hab | ⟨hab, hab' | ⟨hab', haddress⟩⟩
  · omega
  · omega
  · rcases hbc with hbc | ⟨hbc, hbc' | ⟨hbc', haddress'⟩⟩
    · omega
    · omega
    · exact Or.inr ⟨hab.trans hbc, Or.inr ⟨hab'.trans hbc', String.le_trans haddress haddress'⟩⟩

section Groups

variable {mints : List LedgerEntryRow} {minter_address : String} {group : MinterBlocks}

theorem mem_mints_to {row : LedgerEntryRow} :
    row ∈ mints_to mints minter_address ↔ row ∈ mints ∧ row.to_address = some minter_address := by
  unfold mints_to
  rw [List.mem_filter, beq_iff_eq]

/-- What a group says of the mints in it. -/
theorem minter_group_spec (h : minter_group mints minter_address = some group) :
    group.minter_address = minter_address ∧
      group.mint_count = (mints_to mints minter_address).length ∧
      (∃ row ∈ mints_to mints minter_address, row.block_number = group.first_mint_block) ∧
      (∃ row ∈ mints_to mints minter_address, row.block_number = group.last_mint_block) ∧
      ∀ row ∈ mints_to mints minter_address,
        group.first_mint_block ≤ row.block_number ∧ row.block_number ≤ group.last_mint_block := by
  unfold minter_group at h
  obtain ⟨first, hfirst, h⟩ := Option.bind_eq_some_iff.1 h
  obtain ⟨last, hlast, h⟩ := Option.bind_eq_some_iff.1 h
  cases h
  obtain ⟨hfirst_mem, hfirst_le⟩ := List.min?_eq_some_iff.1 hfirst
  obtain ⟨hlast_mem, hlast_le⟩ := List.max?_eq_some_iff.1 hlast
  refine ⟨rfl, List.length_map _, List.mem_map.1 hfirst_mem, List.mem_map.1 hlast_mem, ?_⟩
  intro row hrow
  exact ⟨hfirst_le _ (List.mem_map_of_mem hrow), hlast_le _ (List.mem_map_of_mem hrow)⟩

/-- An address that was minted to has a group. -/
theorem exists_minter_group {row : LedgerEntryRow} (hrow : row ∈ mints_to mints minter_address) :
    ∃ group, minter_group mints minter_address = some group := by
  have hne : (mints_to mints minter_address).map (·.block_number) ≠ [] :=
    List.ne_nil_of_mem (List.mem_map_of_mem hrow)
  obtain ⟨first, hfirst⟩ := Option.isSome_iff_exists.1 (List.isSome_min?_of_ne_nil hne)
  obtain ⟨last, hlast⟩ := Option.isSome_iff_exists.1 (List.isSome_max?_of_ne_nil hne)
  refine ⟨{ minter_address
            mint_count := ((mints_to mints minter_address).map (·.block_number)).length
            first_mint_block := first
            last_mint_block := last }, ?_⟩
  unfold minter_group
  simp only [hfirst, hlast, Option.bind_eq_bind, Option.bind_some]

/-- The groups are those of the addresses that were minted to, in turn. -/
theorem minter_groups_addresses (mints : List LedgerEntryRow) :
    (minter_groups mints).map (·.minter_address) = (mints.filterMap (·.to_address)).dedup := by
  have hkeys : ∀ address ∈ (mints.filterMap (·.to_address)).dedup,
      ∃ row, row ∈ mints_to mints address := by
    intro address haddress
    obtain ⟨row, hrow, hto⟩ := List.mem_filterMap.1 (List.mem_dedup.1 haddress)
    exact ⟨row, mem_mints_to.2 ⟨hrow, hto⟩⟩
  unfold minter_groups
  generalize (mints.filterMap (·.to_address)).dedup = keys at hkeys
  induction keys with
  | nil => rfl
  | cons address rest ih =>
    obtain ⟨row, hrow⟩ := hkeys address (List.mem_cons_self ..)
    obtain ⟨group, hgroup⟩ := exists_minter_group hrow
    rw [List.filterMap_cons_some hgroup, List.map_cons, (minter_group_spec hgroup).1,
      ih fun a ha => hkeys a (List.mem_cons_of_mem _ ha)]

theorem minter_group_of_mem (h : group ∈ minter_groups mints) :
    minter_group mints group.minter_address = some group := by
  obtain ⟨address, -, hgroup⟩ := List.mem_filterMap.1 h
  rw [(minter_group_spec hgroup).1]
  exact hgroup

/-- The mints to an address are the times it is named. -/
theorem length_mints_to (mints : List LedgerEntryRow) (minter_address : String) :
    (mints_to mints minter_address).length
      = (mints.filterMap (·.to_address)).count minter_address := by
  unfold mints_to
  induction mints with
  | nil => rfl
  | cons row rest ih =>
    rw [List.filter_cons]
    cases hto : row.to_address with
    | none => simp [hto, ih]
    | some address =>
      rw [List.filterMap_cons_some hto, List.count_cons, ← ih]
      by_cases hsame : address = minter_address
      · simp [hsame]
      · simp [hsame]

/-- Together the groups have all mints. -/
theorem sum_mint_count (hmints : ∀ row ∈ mints, row.to_address ≠ none) :
    ((minter_groups mints).map (·.mint_count)).sum = mints.length := by
  have hcount : (minter_groups mints).map (·.mint_count)
      = ((minter_groups mints).map (·.minter_address)).map
          fun address => (mints.filterMap (·.to_address)).count address := by
    rw [List.map_map]
    refine List.map_congr_left fun group hgroup => ?_
    rw [Function.comp_apply, (minter_group_spec (minter_group_of_mem hgroup)).2.1, length_mints_to]
  rw [hcount, minter_groups_addresses, List.sum_map_count_dedup_eq_length]
  clear hcount
  induction mints with
  | nil => rfl
  | cons row rest ih =>
    obtain ⟨address, hto⟩ := Option.ne_none_iff_exists'.1 (hmints row (List.mem_cons_self ..))
    rw [List.filterMap_cons_some hto, List.length_cons, List.length_cons,
      ih fun r hr => hmints r (List.mem_cons_of_mem _ hr)]

/-! ### The first and the last mint

In a block the first mint is the one with the least log index, and within the log the least
batch index. Together with the least block that is the least place, so the timestamp that is
shown is the one of the first mint of all.
-/

theorem log_le_total (a b : LedgerEntryRow) : a.log_le b ∨ b.log_le a := by
  unfold LedgerEntryRow.log_le
  omega

theorem log_le_trans {a b c : LedgerEntryRow} (hab : a.log_le b) (hbc : b.log_le c) : a.log_le c := by
  unfold LedgerEntryRow.log_le at hab hbc ⊢
  omega

/-- The first in an order of rows that are there is one of them, and none is before it. -/
theorem head?_insertionSort {r : LedgerEntryRow → LedgerEntryRow → Prop} [DecidableRel r]
    [Std.Total r] [IsTrans LedgerEntryRow r] (rows : List LedgerEntryRow) (hrows : rows ≠ []) :
    ∃ row ∈ rows, (rows.insertionSort r).head? = some row ∧ ∀ other ∈ rows, r row other := by
  have hsorted := List.pairwise_insertionSort r rows
  cases hsort : rows.insertionSort r with
  | nil =>
    have hlength := List.length_insertionSort r rows
    rw [hsort, List.length_nil] at hlength
    exact absurd (List.length_eq_zero_iff.1 hlength.symm) hrows
  | cons row rest =>
    rw [hsort] at hsorted
    have hmem : ∀ other, other ∈ rows ↔ other ∈ row :: rest := by
      intro other
      rw [← hsort, List.mem_insertionSort]
    refine ⟨row, (hmem row).2 (List.mem_cons_self ..), rfl, fun other hother => ?_⟩
    rcases List.mem_cons.1 ((hmem other).1 hother) with rfl | hother
    · exact (Std.Total.total (r := r) other other).elim id id
    · exact (List.pairwise_cons.1 hsorted).1 other hother

/-- In the first block of the mints, the first log is the first place. -/
theorem first_entry_spec (h : minter_group mints minter_address = some group) :
    ∃ mint ∈ mints_to mints minter_address, mint.block_number = group.first_mint_block ∧
      mint.block_timestamp = first_entry mints group ∧
      ∀ other ∈ mints_to mints minter_address, mint.place ≤ other.place := by
  obtain ⟨haddress, -, ⟨row, hrow, hblock⟩, -, hbounds⟩ := minter_group_spec h
  have htotal : Std.Total LedgerEntryRow.log_le := ⟨log_le_total⟩
  have htrans : IsTrans LedgerEntryRow LedgerEntryRow.log_le := ⟨fun _ _ _ => log_le_trans⟩
  obtain ⟨mint, hmint, hhead, hfirst⟩ := head?_insertionSort (r := LedgerEntryRow.log_le)
    ((mints_to mints minter_address).filter fun r => r.block_number == group.first_mint_block)
    (List.ne_nil_of_mem (List.mem_filter.2 ⟨hrow, beq_iff_eq.2 hblock⟩))
  obtain ⟨hmem, hmint_block⟩ := List.mem_filter.1 hmint
  rw [beq_iff_eq] at hmint_block
  refine ⟨mint, hmem, hmint_block, ?_, fun other hother => ?_⟩
  · unfold first_entry
    rw [haddress, hhead]
    rfl
  · have hle := (hbounds other hother).1
    rw [← not_lt]
    unfold LedgerEntryRow.place
    rw [lex_lt_iff]
    by_cases hsame : other.block_number = group.first_mint_block
    · have hlog := hfirst other (List.mem_filter.2 ⟨hother, beq_iff_eq.2 hsame⟩)
      unfold LedgerEntryRow.log_le at hlog
      omega
    · omega

/-- In the last block, the last log is the last place. -/
theorem last_entry_spec (h : minter_group mints minter_address = some group) :
    ∃ mint ∈ mints_to mints minter_address, mint.block_number = group.last_mint_block ∧
      mint.block_timestamp = last_entry mints group ∧
      ∀ other ∈ mints_to mints minter_address, other.place ≤ mint.place := by
  obtain ⟨haddress, -, -, ⟨row, hrow, hblock⟩, hbounds⟩ := minter_group_spec h
  have htotal : Std.Total fun a b : LedgerEntryRow => b.log_le a := ⟨fun a b => log_le_total b a⟩
  have htrans : IsTrans LedgerEntryRow fun a b => b.log_le a :=
    ⟨fun _ _ _ hab hbc => log_le_trans hbc hab⟩
  obtain ⟨mint, hmint, hhead, hlast⟩ := head?_insertionSort (r := fun a b => b.log_le a)
    ((mints_to mints minter_address).filter fun r => r.block_number == group.last_mint_block)
    (List.ne_nil_of_mem (List.mem_filter.2 ⟨hrow, beq_iff_eq.2 hblock⟩))
  obtain ⟨hmem, hmint_block⟩ := List.mem_filter.1 hmint
  rw [beq_iff_eq] at hmint_block
  refine ⟨mint, hmem, hmint_block, ?_, fun other hother => ?_⟩
  · unfold last_entry
    rw [haddress, hhead]
    rfl
  · have hle := (hbounds other hother).2
    rw [← not_lt]
    unfold LedgerEntryRow.place
    rw [lex_lt_iff]
    by_cases hsame : other.block_number = group.last_mint_block
    · have hlog := hlast other (List.mem_filter.2 ⟨hother, beq_iff_eq.2 hsame⟩)
      unfold LedgerEntryRow.log_le at hlog
      omega
    · omega

end Groups

/-! ### The ranking

The order of the groups is total, by count, then first block, then address, so the limit cuts
at one place and whoever is behind it ranks behind everybody who is shown.
-/

/-- The group a summary is of. -/
def MinterSummary.group (summary : MinterSummary) : MinterBlocks :=
  { minter_address := summary.minter_address
    mint_count := summary.mint_count
    first_mint_block := summary.first_mint_block
    last_mint_block := summary.last_mint_block }

/-- The summary counts the mints to its address, and shows the blocks and timestamps of the
first of them and of the last. -/
structure MinterSummary.Shows (summary : MinterSummary) (mints : List LedgerEntryRow) : Prop where
  mint_count : summary.mint_count = (mints_to mints summary.minter_address).length
  first : ∃ mint ∈ mints_to mints summary.minter_address,
    mint.block_number = summary.first_mint_block ∧
    mint.block_timestamp = summary.first_mint_timestamp ∧
    ∀ other ∈ mints_to mints summary.minter_address, mint.place ≤ other.place
  last : ∃ mint ∈ mints_to mints summary.minter_address,
    mint.block_number = summary.last_mint_block ∧
    mint.block_timestamp = summary.last_mint_timestamp ∧
    ∀ other ∈ mints_to mints summary.minter_address, other.place ≤ mint.place

section Ranked

variable {db : Db} {source_id : Uuid} {limit : Int}

theorem top_minters_group (db : Db) (source_id : Uuid) (limit : Int) :
    (top_minters_conn db source_id limit).map (·.group)
      = Ranking.top MinterBlocks.rank_le (max 1 (min limit 100)).toNat
          (minter_groups (active_mints db source_id)) := by
  unfold top_minters_conn
  rw [List.map_map]
  exact List.map_id _

/-- `COUNT(DISTINCT to_address)` is the number of groups. -/
theorem length_minter_groups (db : Db) (source_id : Uuid) :
    (minter_groups (active_mints db source_id)).length = minter_count_conn db source_id := by
  have haddresses : (active_mints db source_id).filterMap (·.to_address)
      = (db.ledger_entries.rows.filter fun r =>
          r.source_id == source_id && r.movement_type == .Mint && !r.orphaned).filterMap
            (·.to_address) := by
    unfold active_mints
    induction db.ledger_entries.rows with
    | nil => rfl
    | cons row rest ih =>
      simp only [List.filter_cons]
      cases hto : row.to_address <;>
        cases r : (row.source_id == source_id && row.movement_type == .Mint && !row.orphaned) <;>
        simp [hto, ih]
  unfold minter_count_conn
  rw [← List.length_map (f := MinterBlocks.minter_address), minter_groups_addresses, haddresses]

/-- Every active mint goes to somebody, so the groups miss none. -/
theorem active_mints_eq {parseAmount : AmountParser} (h : LedgerReachable parseAmount db)
    (source_id : Uuid) : active_mints db source_id
      = (db.active_entries source_id).filter fun r => r.movement_type == .Mint := by
  unfold active_mints Db.active_entries
  rw [List.filter_filter]
  refine List.filter_congr fun row hrow => ?_
  rw [Bool.eq_iff_iff]
  simp only [Bool.and_eq_true, beq_iff_eq, Bool.not_eq_true', Option.isSome_iff_ne_none]
  constructor
  · rintro ⟨⟨⟨hsource, hmint⟩, hactive⟩, -⟩
    exact ⟨hmint, hsource, hactive⟩
  · rintro ⟨hmint, hsource, hactive⟩
    exact ⟨⟨⟨hsource, hmint⟩, hactive⟩, ((h.mint_iff hrow).1 hmint).2⟩

/-- What is shown of a minter is so. -/
theorem top_minters_show {summary : MinterSummary}
    (h : summary ∈ top_minters_conn db source_id limit) :
    summary.Shows (active_mints db source_id) := by
  unfold top_minters_conn at h
  obtain ⟨group, hgroup, rfl⟩ := List.mem_map.1 h
  have hmem : group ∈ minter_groups (active_mints db source_id) :=
    Ranking.mem_of_mem_top (r := MinterBlocks.rank_le) hgroup
  have hspec := minter_group_of_mem hmem
  exact ⟨(minter_group_spec hspec).2.1, first_entry_spec hspec, last_entry_spec hspec⟩

/-- The minters that are shown have the numbers of their active mints and the blocks and
timestamps of the first and the last, each address once and in the order of the ranking. There
are as many as the count of minters up to the limit. A minter that is not shown has a group of
its own, and that group ranks behind every one that is shown, by the number of mints, then the
first block, then the address; within the limit the numbers add up to all active mints. -/
theorem top_minters_are_exact {parseAmount : AmountParser} (h : LedgerReachable parseAmount db)
    (source_id : Uuid) (limit : Int) :
    let minters := top_minters_conn db source_id limit
    let mints := (db.active_entries source_id).filter fun r => r.movement_type == .Mint
    (∀ summary ∈ minters, summary.Shows mints) ∧
    (minters.map (·.minter_address)).Nodup ∧
    (minters.map (·.group)).Pairwise MinterBlocks.rank_le ∧
    minters.length = min (max 1 (min limit 100)).toNat (minter_count_conn db source_id) ∧
    (∀ address, mints_to mints address ≠ [] → address ∉ minters.map (·.minter_address) →
      ∃ group, minter_group mints address = some group ∧
        ∀ summary ∈ minters, summary.group.rank_le group) ∧
    (minter_count_conn db source_id ≤ (max 1 (min limit 100)).toNat →
      (minters.map (·.mint_count)).sum = mints.length) := by
  intro minters mints
  have hmints : active_mints db source_id = mints := active_mints_eq h source_id
  have hgroups : minters.map (·.group) = Ranking.top MinterBlocks.rank_le
      (max 1 (min limit 100)).toNat (minter_groups mints) :=
    hmints ▸ top_minters_group db source_id limit
  have hlength : (minter_groups mints).length = minter_count_conn db source_id :=
    hmints ▸ length_minter_groups db source_id
  have haddresses : minters.map (·.minter_address)
      = (minters.map (·.group)).map (·.minter_address) := by
    rw [List.map_map]
    rfl
  refine ⟨fun summary hsummary => hmints ▸ top_minters_show hsummary, ?_, ?_, ?_, ?_, ?_⟩
  · rw [haddresses, hgroups]
    refine Ranking.nodup_map_top ?_
    rw [minter_groups_addresses]
    exact List.nodup_dedup _
  · rw [hgroups]
    exact Ranking.top_pairwise
  · rw [← List.length_map (f := MinterSummary.group), hgroups, Ranking.length_top, hlength]
  · intro address hminted hout
    obtain ⟨row, hrow⟩ := List.exists_mem_of_ne_nil _ hminted
    obtain ⟨group, hgroup⟩ := exists_minter_group hrow
    have haddress : group.minter_address = address := (minter_group_spec hgroup).1
    have hto := mem_mints_to.1 hrow
    have hmem : group ∈ minter_groups mints :=
      List.mem_filterMap.2 ⟨address, List.mem_dedup.2 (List.mem_filterMap.2 ⟨row, hto⟩), hgroup⟩
    -- the group is cut off, so it ranks behind every one that is shown
    have hcut : group ∉ minters.map (·.group) := by
      intro hin
      refine hout ?_
      rw [haddresses, ← haddress]
      exact List.mem_map_of_mem hin
    refine ⟨group, hgroup, fun summary hsummary => ?_⟩
    have hshown : summary.group ∈ minters.map (·.group) := List.mem_map_of_mem hsummary
    rw [hgroups] at hcut hshown
    exact Ranking.le_of_not_mem_top hshown hmem hcut
  · intro hall
    have hperm : (minters.map (·.group)).Perm (minter_groups mints) :=
      hgroups ▸ Ranking.top_perm (hlength ▸ hall)
    have hsum := (hperm.map (·.mint_count)).sum_eq
    rw [List.map_map] at hsum
    refine hsum.trans (sum_mint_count fun row hrow => ?_)
    obtain ⟨hactive, hmint⟩ := List.mem_filter.1 hrow
    exact ((h.mint_iff (List.mem_filter.1 hactive).1).1 (beq_iff_eq.1 hmint)).2

end Ranked

/-- Bob is minted a token in block 2, after alice was in block 1. They have one mint each, and
the limit leaves bob out, whose first block is the later one. -/
theorem top_minters_are_exact_two_tokens :
    (top_minters_conn (two_tokens bob) 0 1).map (fun m => (m.minter_address, m.mint_count))
        = [(alice, 1)] ∧
      (top_minters_conn (two_tokens bob) 0 1).length
        = min (max 1 (min 1 100) : Int).toNat (minter_count_conn (two_tokens bob) 0) ∧
      minter_count_conn (two_tokens bob) 0 = 2 ∧
      ∃ group, minter_group (((two_tokens bob).active_entries 0).filter fun r =>
          r.movement_type == .Mint) bob = some group ∧
        ∀ summary ∈ top_minters_conn (two_tokens bob) 0 1, summary.group.rank_le group := by
  obtain ⟨-, -, -, hlength, hcut, -⟩ := top_minters_are_exact (two_tokens_reachable bob) 0 1
  exact ⟨by decide +kernel, hlength, by decide +kernel, hcut bob (by decide +kernel)
    (by decide +kernel)⟩

end EvmIndexer
