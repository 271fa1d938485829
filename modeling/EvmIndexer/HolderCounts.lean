/-
What the holder counts count.

`holder_count_conn` counts the rows of `token_balances` with a positive balance, and such a
row is an account: an address and a token id. In every database of the ledger these are the
accounts the active entries leave positive, each once (`positive_accounts`). The addresses
among them are the holders, so the count is that of the holders just when no address has a
positive net in two token ids (`holder_counts_iff`), and is larger otherwise. The minters
beside it are counted with `COUNT(DISTINCT to_address)`.
-/
import EvmIndexer.Ledger
import Mathlib.Data.Set.Card

set_option autoImplicit false

namespace EvmIndexer

open Sql Transition

/-! ## The summary of a contract

The summary is a row of counts, each from a query of its own. They are read one after the
other on one connection, and here from one database.
-/

/-- `ContractSummary`. -/
structure ContractSummary where
  source_id : Uuid
  chain_id : Int
  contract_address : String
  token_standard : TokenStandard
  start_block : Int
  enabled : Bool
  event_count : Nat
  ledger_entry_count : Nat
  holder_count : Nat
  minter_count : Nat
  first_indexed_block : Option Int
  last_indexed_block : Option Int
  checkpoint_processed_block : Option Int
  checkpoint_finalized_block : Option Int
  deriving DecidableEq, Repr

/-- `first_block_conn`. -/
def first_block_conn (db : Db) (source_id : Uuid) : Option Int :=
  (((db.active_entries source_id).map (·.block_number)).insertionSort (· ≤ ·)).head?

/-- `last_block_conn`. -/
def last_block_conn (db : Db) (source_id : Uuid) : Option Int :=
  (((db.active_entries source_id).map (·.block_number)).insertionSort (· ≥ ·)).head?

/-- `contract_summary`. -/
def contract_summary (db : Db) (chain_id : Int) (contract_address : String) :
    Option ContractSummary := do
  let source ← source_by_contract db chain_id contract_address
  let checkpoint := checkpoint_for_source db source.id
  some
    { source_id := source.id
      chain_id := source.chain_id
      contract_address := source.contract_address
      token_standard := source.token_standard
      start_block := source.start_block
      enabled := source.enabled
      event_count := (db.events.rows.filter fun r => r.source_id == source.id && !r.orphaned).length
      ledger_entry_count := (db.active_entries source.id).length
      holder_count := holder_count_conn db source.id
      minter_count := minter_count_conn db source.id
      first_indexed_block := first_block_conn db source.id
      last_indexed_block := last_block_conn db source.id
      checkpoint_processed_block := checkpoint.map (·.processed_block)
      checkpoint_finalized_block := checkpoint.map (·.finalized_block) }

/-! ## Holders

A row of `token_balances` is for an address and a token id. Positive rows are counted, and
not addresses, so an address counts once for each token it holds. For a fungible token the
two are the same, because every balance has the empty token id.
-/

/-- The active entries of the source leave the address a positive amount of the token. -/
def Db.Holds (db : Db) (source_id : Uuid) (holder token_id : String) : Prop :=
  0 < db.net source_id (holder, token_id)

/-- The addresses that hold some token of the source. -/
def Db.holders (db : Db) (source_id : Uuid) : Set String :=
  {holder | ∃ token_id, db.Holds source_id holder token_id}

/-- No address holds two tokens of the source. For an ERC-20 source, whose entries all have
one token id, this always is so, and each holder has one balance row. -/
def Db.HoldsOneTokenEach (db : Db) (source_id : Uuid) : Prop :=
  ∀ holder token_id token_id', db.Holds source_id holder token_id →
    db.Holds source_id holder token_id' → token_id = token_id'

/-- The account of a balance row. -/
def TokenBalanceRow.account (row : TokenBalanceRow) : Account := (row.holder_address, row.token_id)

/-- The accounts whose rows are counted. -/
def positive_accounts (db : Db) (source_id : Uuid) : List Account :=
  (db.token_balances.rows.filter fun r =>
    r.source_id == source_id && decide (0 < r.balance)).map (·.account)

theorem holder_count_conn_eq (db : Db) (source_id : Uuid) :
    holder_count_conn db source_id = (positive_accounts db source_id).length := by
  unfold positive_accounts
  rw [List.length_map]
  rfl

section Counts

variable {db : Db} {source_id : Uuid}

/-- An account has one row, so it is counted once. -/
theorem positive_accounts_nodup : (positive_accounts db source_id).Nodup := by
  unfold positive_accounts
  have hrows : (db.token_balances.rows.filter fun r =>
      r.source_id == source_id && decide (0 < r.balance)).Nodup :=
    db.token_balances.nodup.filter _
  refine hrows.map_on fun a ha b hb hsame => ?_
  obtain ⟨hamem, ha⟩ := List.mem_filter.1 ha
  obtain ⟨hbmem, hb⟩ := List.mem_filter.1 hb
  rw [Bool.and_eq_true, beq_iff_eq] at ha hb
  obtain ⟨hholder, htoken⟩ := Prod.ext_iff.1 hsame
  exact db.token_balances.eq_of_clash hamem hbmem
    (Or.inr ⟨ha.1.trans hb.1.symm, hholder, htoken⟩)

/-- The accounts that are counted are those the ledger leaves positive. -/
theorem mem_positive_accounts (hdb : Balanced db) {holder token_id : String} :
    (holder, token_id) ∈ positive_accounts db source_id ↔ db.Holds source_id holder token_id := by
  unfold positive_accounts Db.Holds
  rw [← hdb source_id (holder, token_id), List.mem_map]
  unfold Db.balance
  constructor
  · rintro ⟨row, hrow, haccount⟩
    obtain ⟨hmem, hrow⟩ := List.mem_filter.1 hrow
    rw [Bool.and_eq_true, beq_iff_eq, decide_eq_true_eq] at hrow
    obtain ⟨hholder, htoken⟩ := Prod.ext_iff.1 haccount
    have hfind : db.token_balances.rows.find? (TokenBalanceRow.of_holder source_id holder token_id)
        = some row :=
      (db.token_balances.find?_eq_some_iff fun a _ b _ => of_holder_clash a b).2
        ⟨hmem, of_holder_iff.2 ⟨hrow.1, hholder, htoken⟩⟩
    rw [hfind]
    exact hrow.2
  · intro hpositive
    -- an account without a row holds nothing
    cases hfind : db.token_balances.rows.find?
        (TokenBalanceRow.of_holder source_id holder token_id) with
    | none =>
      rw [hfind] at hpositive
      exact absurd hpositive (lt_irrefl 0)
    | some row =>
      rw [hfind] at hpositive
      obtain ⟨hsource, hholder, htoken⟩ := of_holder_iff.1 (List.find?_some hfind)
      refine ⟨row, List.mem_filter.2 ⟨List.mem_of_find?_eq_some hfind, ?_⟩,
        Prod.ext hholder htoken⟩
      rw [Bool.and_eq_true, beq_iff_eq, decide_eq_true_eq]
      exact ⟨hsource, hpositive⟩

/-- The number of holders is that of the different addresses among the accounts. -/
theorem ncard_holders (hdb : Balanced db) :
    (db.holders source_id).ncard = ((positive_accounts db source_id).map Prod.fst).dedup.length := by
  have hset : db.holders source_id
      = ((positive_accounts db source_id).map Prod.fst).toFinset := by
    ext holder
    rw [Finset.mem_coe, List.mem_toFinset, List.mem_map]
    constructor
    · rintro ⟨token_id, hholds⟩
      exact ⟨(holder, token_id), (mem_positive_accounts hdb).2 hholds, rfl⟩
    · rintro ⟨⟨_, token_id⟩, hmem, rfl⟩
      exact ⟨token_id, (mem_positive_accounts hdb).1 hmem⟩
  rw [hset, Set.ncard_coe_finset, List.card_toFinset]

/-- No holder is missed: what is counted is at least their number. -/
theorem ncard_holders_le (hdb : Balanced db) :
    (db.holders source_id).ncard ≤ holder_count_conn db source_id := by
  rw [ncard_holders hdb, holder_count_conn_eq, ← List.length_map (f := Prod.fst)]
  exact (List.dedup_sublist _).length_le

/-- The count is that of the holders just when each of them holds one token. -/
theorem holder_count_conn_eq_iff (hdb : Balanced db) :
    holder_count_conn db source_id = (db.holders source_id).ncard ↔
      db.HoldsOneTokenEach source_id := by
  -- nothing is lost by taking each address once just when the addresses are distinct
  have hdistinct : holder_count_conn db source_id = (db.holders source_id).ncard ↔
      ((positive_accounts db source_id).map Prod.fst).Nodup := by
    rw [ncard_holders hdb, holder_count_conn_eq, ← List.length_map (f := Prod.fst),
      ← List.dedup_eq_self]
    constructor
    · intro hlength
      exact (List.dedup_sublist _).eq_of_length hlength.symm
    · intro hsame
      rw [hsame]
  rw [hdistinct, List.nodup_map_iff_inj_on positive_accounts_nodup]
  constructor
  · intro hinj holder token_id token_id' hholds hholds'
    have hsame := hinj _ ((mem_positive_accounts hdb).2 hholds) _
      ((mem_positive_accounts hdb).2 hholds') rfl
    exact (Prod.ext_iff.1 hsame).2
  · rintro hone ⟨holder, token_id⟩ hmem ⟨holder', token_id'⟩ hmem' hholder
    obtain rfl : holder = holder' := hholder
    rw [hone holder token_id token_id' ((mem_positive_accounts hdb).1 hmem)
      ((mem_positive_accounts hdb).1 hmem')]

end Counts

/-- In every database of the ledger, what the summary of a contract and that of a scan give
as the number of holders is the number of addresses with a positive net just when none of
them has one in two token ids. -/
theorem holder_counts_iff {parseAmount : AmountParser} {db : Db}
    (h : LedgerReachable parseAmount db) :
    (∀ chain_id contract_address summary,
      contract_summary db chain_id contract_address = some summary →
      (summary.holder_count = (db.holders summary.source_id).ncard ↔
        db.HoldsOneTokenEach summary.source_id)) ∧
    (∀ source logs options summary db',
      persist_decoded_logs_with_options parseAmount db source logs options = .ok (summary, db') →
      (summary.holder_count = (db'.holders source.id).ncard ↔ db'.HoldsOneTokenEach source.id)) := by
  constructor
  · intro chain_id contract_address summary hsummary
    unfold contract_summary at hsummary
    obtain ⟨source, -, hsome⟩ := Option.bind_eq_some_iff.1 hsummary
    cases hsome
    exact holder_count_conn_eq_iff h.balanced
  · intro source logs options summary db' hpersist
    have hop : (LedgerOp.persist_decoded_logs_with_options source logs options).apply parseAmount db
        = .ok db' := map_snd_eq_ok.2 ⟨summary, hpersist⟩
    -- the summary counts in the database the loop has left
    have hcount : summary.holder_count = holder_count_conn db' source.id := by
      unfold persist_decoded_logs_with_options at hpersist
      rw [context_eq_ok] at hpersist
      simp only [bind_eq_ok] at hpersist
      obtain ⟨_, -, last, -, hlast⟩ := hpersist
      cases hlast
      rfl
    rw [hcount]
    exact holder_count_conn_eq_iff (h.of_apply hop).balanced

/-- The mint of an NFT, log 0 of its transaction, and its decoding. -/
def erc721_mint (block_number block_hash transaction_hash «to» token_topic token_id : String) :
    RpcLog × DecodedLog :=
  ({ address := "0xc0c0c0c0c0c0c0c0c0c0c0c0c0c0c0c0c0c0c0c0"
     topics := ["0xddf252ad1be2c89b69c2b068fc378daa952ba7f163c4a11628f55a4df523b3ef",
       address_topic zero_address, address_topic «to», token_topic]
     data := "0x"
     block_number
     transaction_hash
     transaction_index := some "0x0"
     log_index := "0x0"
     block_hash
     block_timestamp := none },
   { event_name := "Transfer"
     entries :=
       [{ event_name := "Transfer"
          token_standard := .Erc721
          operator := none
          «from» := zero_address
          «to» := «to»
          token_id
          amount := "1"
          batch_index := 0 }] })

/-- A collection of which alice gets token 1, and then bob or she token 2. -/
def two_tokens (second : String) : Db :=
  [LedgerOp.ensure_source 1 "token" small_source.contract_address .Erc721 0,
   .persist_decoded_logs_with_options { small_source.from_source with token_standard := .Erc721 }
     [erc721_mint "0x1" "0xb1" "0xd1" alice
        "0x0000000000000000000000000000000000000000000000000000000000000001" "1",
      erc721_mint "0x2" "0xb2" "0xd2" second
        "0x0000000000000000000000000000000000000000000000000000000000000002" "2"]
     { restore_orphaned_conflicts := false }].foldl (LedgerOp.commit plain_digits) Db.empty

theorem two_tokens_reachable (second : String) : LedgerReachable plain_digits (two_tokens second) :=
  LedgerReachable.empty.commits _

/-- A token each: the two holders are counted. -/
theorem holder_counts_iff_token_each :
    ∃ summary, contract_summary (two_tokens bob) 1 small_source.contract_address = some summary ∧
      summary.holder_count = 2 ∧
      (summary.holder_count = ((two_tokens bob).holders summary.source_id).ncard ↔
        (two_tokens bob).HoldsOneTokenEach summary.source_id) := by
  have hsummary : ((contract_summary (two_tokens bob) 1 small_source.contract_address).map
      fun summary => summary.holder_count) = some 2 := by decide +kernel
  obtain ⟨summary, hsome, hcount⟩ := Option.map_eq_some_iff.1 hsummary
  exact ⟨summary, hsome, hcount,
    (holder_counts_iff (two_tokens_reachable bob)).1 1 small_source.contract_address summary hsome⟩

/-- Two tokens of one holder: two are counted. -/
theorem holder_of_two_tokens_counts_twice :
    LedgerReachable plain_digits (two_tokens alice) ∧
      ∃ summary, contract_summary (two_tokens alice) 1 small_source.contract_address = some summary ∧
        summary.holder_count = 2 ∧ ((two_tokens alice).holders summary.source_id).ncard = 1 := by
  have hsummary : ((contract_summary (two_tokens alice) 1 small_source.contract_address).map
      fun summary => (summary.source_id, summary.holder_count)) = some (0, 2) := by decide +kernel
  obtain ⟨summary, hsome, hresult⟩ := Option.map_eq_some_iff.1 hsummary
  obtain ⟨hsource, hcount⟩ := Prod.ext_iff.1 hresult
  refine ⟨two_tokens_reachable alice, summary, hsome, hcount, ?_⟩
  rw [ncard_holders (two_tokens_reachable alice).balanced]
  have hid : summary.source_id = 0 := hsource
  rw [hid]
  decide +kernel

end EvmIndexer
