/-
The ledger as a system: any sequence of transactions, from an empty database.

A ledger operation is one of the four calls that write ledger tables, with
everything it is called with. Taken as a transaction (`LedgerOp.commit`) it
either leaves what it computed or, on an error, the database it started from; a
transaction can also be aborted from outside, and in between the physical order
of the rows is whatever Postgres makes it (`Db.SameRows`). `LedgerStep` allows
all of these.

The main result of the file is that in every database such a sequence reaches,
each balance is what the non-orphaned entries of its source credit and debit
(`balance_eq_credits_sub_debits`). The proof has no case for mints, transfers,
conflicts or restores: each transaction keeps the books (`KeepsBooks`), an empty
database has them balanced, and `ledger_invariant` is the induction.
-/
import EvmIndexer.Balances
import EvmIndexer.Lib.Runs

set_option autoImplicit false

namespace EvmIndexer

open Sql Transition

/-! ## Physical order

Without `ORDER BY` a read may give the rows in any order, and an update moves a row. So a
database is as good as any other with the same rows, and what is proved of runs has to
survive a permutation after each step.
-/

/-- Neither a balance nor a net depends on the physical order. -/
theorem Db.SameRows.keepsBooks {db db' : Db} (h : db.SameRows db') : KeepsBooks db db' := by
  intro source_id a
  rw [balance_eq_sum, balance_eq_sum, net_eq_sum, net_eq_sum,
    (h.token_balances.map _).sum_eq, (h.ledger_entries.map _).sum_eq]

/-! ## The transactions

A run is a list of calls, and between two databases of it there is one transaction. Two
inductions are made once, for what holds in every reachable database and for what holds along
runs whose calls meet a condition.
-/

/-- A call that writes the ledger, with its arguments. -/
inductive LedgerOp
  | ensure_source (chain_id : Int) (name contract_address : String) (standard : TokenStandard)
      (start_block : Int)
  | persist_decoded_logs_with_options (source : SourceRef) (logs : List (RpcLog × DecodedLog))
      (options : PersistDecodedLogsOptions)
  | orphan_source_range (source : SourceRow) (from_block to_block : Int)
  | update_log_metadata (source : SourceRow) (log : RpcLog)

section Transactions

variable (parseAmount : AmountParser)

/-- What a call computes: the database it leaves, or its error. -/
def LedgerOp.apply (db : Db) : LedgerOp → Result Db
  | .ensure_source chain_id name contract_address standard start_block =>
    (EvmIndexer.ensure_source db chain_id name contract_address standard start_block).map (·.2)
  | .persist_decoded_logs_with_options source logs options =>
    (EvmIndexer.persist_decoded_logs_with_options parseAmount db source logs options).map (·.2)
  | .orphan_source_range source from_block to_block =>
    (EvmIndexer.orphan_source_range db source from_block to_block).map (·.2)
  | .update_log_metadata source log =>
    (EvmIndexer.update_log_metadata db source log).map (·.2)

/-- The call as a transaction: committed, or rolled back on its error. -/
def LedgerOp.commit (db : Db) (op : LedgerOp) : Db :=
  match op.apply parseAmount db with
  | .ok db' => db'
  | .error _ => db

/-- One transaction of the ledger: run to its end or aborted, after which the
rows are in any physical order. -/
def LedgerStep (db : Db) (op : LedgerOp) (db' : Db) : Prop :=
  (op.commit parseAmount db).SameRows db' ∨ db.SameRows db'

/-- The databases the ledger can be in: what any sequence of its transactions leaves of an
empty database, with rows in any physical order in between. -/
def LedgerReachable (db : Db) : Prop := Reachable (LedgerStep parseAmount) (· = Db.empty) db

variable {parseAmount}

theorem map_snd_eq_ok {α β : Type} {r : Result (α × β)} {b : β} :
    r.map (·.2) = .ok b ↔ ∃ a, r = .ok (a, b) := by
  simp

/-- What the call leaves and no reordering breaks, its transaction leaves. -/
theorem LedgerStep.preserves {I : Db → Prop} {db db' : Db} {op : LedgerOp}
    (h : LedgerStep parseAmount db op db') (hdb : I db)
    (hop : ∀ mid, op.apply parseAmount db = .ok mid → I mid)
    (horder : ∀ a b, I a → a.SameRows b → I b) : I db' := by
  rcases h with hrun | habort
  · refine horder _ db' ?_ hrun
    unfold LedgerOp.commit
    split
    · rename_i mid hok
      exact hop mid hok
    · exact hdb
  · exact horder db db' hdb habort

/-- What every call that meets a condition preserves and no reordering breaks, a run of such
calls preserves. -/
theorem guarded_ledger_invariant {I : Db → Prop} {ok : Db → LedgerOp → Prop}
    (hop : ∀ (db : Db) (op : LedgerOp) (db' : Db), I db → ok db op →
      op.apply parseAmount db = .ok db' → I db')
    (horder : ∀ a b, I a → a.SameRows b → I b) {ops : List LedgerOp} {db db' : Db}
    (h : Run (Guarded (LedgerStep parseAmount) ok) db ops db') (hdb : I db) : I db' := by
  refine h.invariant (fun s op t hs hstep => ?_) hdb
  exact hstep.1.preserves hs (fun mid hmid => hop s op mid hs hstep.2 hmid) horder

/-- What an empty database has, every call preserves and no reordering breaks,
every database of the ledger has. -/
theorem ledger_invariant {I : Db → Prop} (hempty : I Db.empty)
    (hop : ∀ (db : Db) (op : LedgerOp) (db' : Db), I db → op.apply parseAmount db = .ok db' → I db')
    (horder : ∀ db db', I db → db.SameRows db' → I db') {db : Db}
    (h : LedgerReachable parseAmount db) : I db := by
  refine Reachable.invariant (fun s hs => hs ▸ hempty) ?_ h
  intro s op t hs hstep
  exact LedgerStep.preserves hstep hs (fun mid hmid => hop s op mid hs hmid) horder

/-- Calls one after the other, each as a transaction, are a run of the ledger. -/
theorem run_of_commits (db : Db) (ops : List LedgerOp) :
    Run (LedgerStep parseAmount) db ops (ops.foldl (LedgerOp.commit parseAmount) db) := by
  induction ops generalizing db with
  | nil => exact Run.nil
  | cons op rest ih => exact Run.cons (Or.inl (Db.SameRows.refl _)) (ih _)

/-- Calls that each meet a condition where they are made are such a run. -/
theorem run_of_allowed {ok : Db → LedgerOp → Prop} [∀ db op, Decidable (ok db op)] {db : Db}
    {ops : List LedgerOp}
    (h : Allowed (LedgerOp.commit parseAmount) (fun db op => decide (ok db op)) db ops = true) :
    Run (Guarded (LedgerStep parseAmount) ok) db ops (ops.foldl (LedgerOp.commit parseAmount) db) :=
  Run.of_allowed (fun _ _ hok => ⟨Or.inl (Db.SameRows.refl _), of_decide_eq_true hok⟩) h

/-- Running calls one after the other, each as a transaction, stays among the
databases of the ledger. -/
theorem LedgerReachable.commits {db : Db} (h : LedgerReachable parseAmount db)
    (ops : List LedgerOp) : LedgerReachable parseAmount (ops.foldl (LedgerOp.commit parseAmount) db) := by
  obtain ⟨init, before, hinit, hrun⟩ := h
  exact ⟨init, before ++ ops, hinit, hrun.append (run_of_commits db ops)⟩

/-- A call that returns leaves a database of the ledger. -/
theorem LedgerReachable.of_apply {db db' : Db} (h : LedgerReachable parseAmount db) {op : LedgerOp}
    (hop : op.apply parseAmount db = .ok db') : LedgerReachable parseAmount db' := by
  have hcommit : op.commit parseAmount db = db' := by
    unfold LedgerOp.commit
    rw [hop]
  exact hcommit ▸ h.commits [op]

theorem LedgerReachable.empty : LedgerReachable parseAmount Db.empty := ⟨Db.empty, [], rfl, Run.nil⟩

/-! ## The books balance

An empty database balances, and no transaction changes a balance other than by what it
changes the net. The `CHECK` of the table is what keeps a balance from being negative: a
transaction that would take it below zero fails and is rolled back.
-/

theorem LedgerOp.apply_keepsBooks {db db' : Db} {op : LedgerOp}
    (h : op.apply parseAmount db = .ok db') : KeepsBooks db db' := by
  cases op with
  | ensure_source chain_id name contract_address standard start_block =>
    obtain ⟨row, hrow⟩ := map_snd_eq_ok.1 h
    have hframe := ensure_source_frame hrow
    exact KeepsBooks.of_eq (by rw [hframe]) (by rw [hframe])
  | persist_decoded_logs_with_options source logs options =>
    obtain ⟨summary, hsummary⟩ := map_snd_eq_ok.1 h
    exact persist_decoded_logs_keepsBooks hsummary
  | orphan_source_range source from_block to_block =>
    obtain ⟨summary, hsummary⟩ := map_snd_eq_ok.1 h
    exact orphan_source_range_keepsBooks hsummary
  | update_log_metadata source log =>
    obtain ⟨summary, hsummary⟩ := map_snd_eq_ok.1 h
    exact update_log_metadata_keepsBooks hsummary

/-- In every database of the ledger the balances are the nets. -/
theorem LedgerReachable.balanced {db : Db} (h : LedgerReachable parseAmount db) : Balanced db := by
  refine ledger_invariant (I := Balanced) (fun _ _ => rfl) ?_ ?_ h
  · intro db op db' hdb hop
    exact hdb.of_keepsBooks (LedgerOp.apply_keepsBooks hop)
  · intro db db' hdb hsame
    exact hdb.of_keepsBooks hsame.keepsBooks

/-- No stored balance is negative, whatever the account. -/
theorem balance_nonneg (db : Db) (source_id : Uuid) (a : Account) : 0 ≤ db.balance source_id a := by
  unfold Db.balance
  cases hfind : db.token_balances.rows.find? (TokenBalanceRow.of_holder source_id a.1 a.2) with
  | none => simp
  | some row =>
    have hcheck := db.token_balances.checked row (List.mem_of_find?_eq_some hfind)
    simpa using hcheck.2.1

/-- The amounts a source's non-orphaned entries credit to a holder of a token. -/
def Db.credits (db : Db) (source_id : Uuid) (holder token_id : String) : Int :=
  (((db.active_entries source_id).filter fun r =>
    r.to_address = some holder ∧ r.token_id = token_id).map (·.amount)).sum

/-- The amounts a source's non-orphaned entries debit from a holder of a token. -/
def Db.debits (db : Db) (source_id : Uuid) (holder token_id : String) : Int :=
  (((db.active_entries source_id).filter fun r =>
    r.from_address = some holder ∧ r.token_id = token_id).map (·.amount)).sum

theorem net_eq_credits_sub_debits (db : Db) (source_id : Uuid) (holder token_id : String) :
    db.net source_id (holder, token_id)
      = db.credits source_id holder token_id - db.debits source_id holder token_id := by
  have hside : ∀ party : LedgerEntryRow → Option String,
      ((fun m : LedgerEntryRow => decide ((party m).map (fun h => (h, m.token_id))
        = some (holder, token_id))) = fun r => decide (party r = some holder ∧ r.token_id = token_id)) := by
    intro party
    funext r
    cases party r <;> simp
  unfold Db.net Db.credits Db.debits
  rw [Bookkeeping.net_eq_credits_sub_debits, List.filter_map, List.filter_map, List.map_map,
    List.map_map]
  have hto := hside (·.to_address)
  have hfrom := hside (·.from_address)
  simp only [Function.comp_def, LedgerEntryRow.movement]
  rw [hto, hfrom]

/-- Whatever was persisted, orphaned, replayed or repaired, a balance is what
the non-orphaned entries of its source credit to the holder minus what they
debit, and it is not negative. -/
theorem balance_eq_credits_sub_debits {db : Db} (h : LedgerReachable parseAmount db)
    (source_id : Uuid) (holder token_id : String) :
    db.balance source_id (holder, token_id)
        = db.credits source_id holder token_id - db.debits source_id holder token_id ∧
      0 ≤ db.balance source_id (holder, token_id) := by
  refine ⟨?_, balance_nonneg db source_id _⟩
  rw [h.balanced, net_eq_credits_sub_debits]

end Transactions

/-! ## A small ledger -/

/-- The amounts written as plain digits, which the decimal parser reads as the
number they spell. -/
def plain_digits : AmountParser := fun amount =>
  let digits := amount.toList
  if digits ≠ [] ∧ digits.all Char.isDigit then
    some { digits := digits.foldl (fun n c => 10 * n + (c.toNat - '0'.toNat : Nat)) 0, scale := 0 }
  else none

/-- The zero address, the `from` of a mint. -/
def zero_address : String := "0x0000000000000000000000000000000000000000"

def alice : String := "0xaaaaaaaaaaaaaaaaaaaaaaaaaaaaaaaaaaaaaaaa"

def bob : String := "0xbbbbbbbbbbbbbbbbbbbbbbbbbbbbbbbbbbbbbbbb"

/-- An address as the topic of a log, padded to 32 bytes. -/
def address_topic (address : String) : String :=
  "0x000000000000000000000000" ++ String.ofList (address.toList.drop 2)

/-- The ERC-20 transfer of 5 units, log 0 of its transaction, and its decoding. -/
def erc20_transfer (block_number block_hash transaction_hash «from» «to» : String) :
    RpcLog × DecodedLog :=
  ({ address := "0xc0c0c0c0c0c0c0c0c0c0c0c0c0c0c0c0c0c0c0c0"
     topics := ["0xddf252ad1be2c89b69c2b068fc378daa952ba7f163c4a11628f55a4df523b3ef",
       address_topic «from», address_topic «to»]
     data := "0x0000000000000000000000000000000000000000000000000000000000000005"
     block_number
     transaction_hash
     transaction_index := some "0x0"
     log_index := "0x0"
     block_hash
     block_timestamp := none },
   { event_name := "Transfer"
     entries :=
       [{ event_name := "Transfer"
          token_standard := .Erc20
          operator := none
          «from» := «from»
          «to» := «to»
          token_id := ""
          amount := "5"
          batch_index := 0 }] })

/-- The row of the one source of a small ledger. -/
def small_source : SourceRow :=
  { id := 0, chain_id := 1, name := "token", contract_address := "0xc0c0c0c0c0c0c0c0c0c0c0c0c0c0c0c0c0c0c0c0"
    token_standard := .Erc20, start_block := 0, enabled := true }

/-- A source, and logs persisted for it without restoring. -/
def small_ledger (logs : List (RpcLog × DecodedLog)) : List LedgerOp :=
  [.ensure_source 1 "token" small_source.contract_address .Erc20 0,
   .persist_decoded_logs_with_options small_source.from_source logs
     { restore_orphaned_conflicts := false }]

/-- A mint in block 1, all of it passed on in block 2. -/
def mint_then_transfer : List (RpcLog × DecodedLog) :=
  [erc20_transfer "0x1" "0xb1" "0xd1" zero_address alice,
   erc20_transfer "0x2" "0xb2" "0xd2" alice bob]

theorem balance_eq_credits_sub_debits_mint_then_transfer :
    let db := (small_ledger mint_then_transfer).foldl (LedgerOp.commit plain_digits) Db.empty
    db.balance 0 (bob, "") = 5 ∧
      (db.balance 0 (bob, "") = db.credits 0 bob "" - db.debits 0 bob "" ∧
        0 ≤ db.balance 0 (bob, "")) :=
  ⟨by decide +kernel, balance_eq_credits_sub_debits (LedgerReachable.empty.commits _) 0 bob ""⟩

end EvmIndexer
