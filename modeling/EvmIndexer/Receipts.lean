/-
`backfill-transaction-receipts`, repeated.

The command asks the chain for the receipts of transactions that have active entries of the source
and no receipt, the lowest blocks first and no more than its limit, and stores them in batches. It
stops at the first receipt it does not get, with the batch this belongs to lost.

So a run takes transactions off the front of the list (`Fetched.list_left`), and what is left is in
the same order for the next. Repeated, the command gets through the list window by window, unless
there is a receipt that cannot be had: its transaction comes within a batch of the front and stays
there, and nothing behind it is reached (`receipts_backfilled`).
-/
import EvmIndexer.MetadataRepair
import Mathlib.Data.Prod.Lex
import Mathlib.Data.String.Basic

set_option autoImplicit false

namespace EvmIndexer

open Sql Program

/-! ## The command

The query joins the active entries of the source with the receipts, and keeps the
transactions that have none, in the order of their first block. The loop asks for one receipt
at a time and stores a batch whenever it is full, and what is left at the end.
-/

/-- There is a row for the transaction. -/
def has_receipt (rows : List TransactionReceiptRow) (chain_id : Int) (transaction_hash : String) :
    Bool :=
  rows.any fun row => row.chain_id == chain_id && row.transaction_hash == transaction_hash

/-- The active entries of the source that the left join finds no receipt for. -/
def missing_entries (service : Service) (source_id : Uuid) : List LedgerEntryRow :=
  service.db.ledger_entries.rows.filter fun row => row.source_id == source_id && !row.orphaned &&
    !has_receipt service.transaction_receipts row.chain_id row.transaction_hash

/-- Their transactions, each once. -/
def missing_hashes (service : Service) (source_id : Uuid) : List String :=
  ((missing_entries service source_id).map (·.transaction_hash)).dedup

/-- `MIN(le.block_number)` of a group. -/
def first_missing_block (missing : List LedgerEntryRow) (transaction_hash : String) : Int :=
  (((missing.filter fun row => row.transaction_hash == transaction_hash).map
    LedgerEntryRow.block_number).min?).getD 0

/-- `ORDER BY MIN(le.block_number), le.transaction_hash`. -/
def missing_le (missing : List LedgerEntryRow) (a b : String) : Prop :=
  first_missing_block missing a < first_missing_block missing b ∨
    (first_missing_block missing a = first_missing_block missing b ∧ a ≤ b)

instance (missing : List LedgerEntryRow) : DecidableRel (missing_le missing) := fun _ _ =>
  inferInstanceAs (Decidable (_ ∨ _))

/-- All rows of the query, without its `LIMIT`. -/
def missing_in_order (service : Service) (source_id : Uuid) : List String :=
  (missing_hashes service source_id).insertionSort (missing_le (missing_entries service source_id))

/-- `limit.clamp(1, 10_000)`. -/
def receipt_window (limit : Int) : Nat := (max 1 (min limit 10000)).toNat

/-- `transaction_hashes_missing_receipts`. -/
def transaction_hashes_missing_receipts (service : Service) (source_id : Uuid) (limit : Int) :
    List String :=
  (missing_in_order service source_id).take (receipt_window limit)

/-- The arguments of the command, checked: the contract. -/
def backfill_transaction_receipts_args (chain_id : Int) (contract : String) (limit : Int)
    (persist_batch_size : Nat) : Result String := do
  let contract ← normalize_address contract
  if chain_id ≤ 0 then .error "chain-id must be greater than zero"
  else if limit ≤ 0 then .error "limit must be greater than zero"
  else if persist_batch_size = 0 then .error "persist-batch-size must be greater than zero"
  else .ok contract

section Command

variable (parse_bytes : List Char → Option Nat) (rpc : ChainRpc)

/-- A turn of the loop of `backfill_transaction_receipts`, on the batch and the count so far. -/
def backfill_receipt (chain_id : Int) (persist_batch_size : Nat)
    (progress : List TransactionReceipt × Nat) (transaction_hash : String) :
    Job (List TransactionReceipt × Nat) := do
  let receipt ← ask (context ("fetch transaction receipt " ++ transaction_hash)
    (rpc.transaction_receipt transaction_hash))
  let batch := progress.1 ++ [receipt]
  if persist_batch_size ≤ batch.length then do
    let persisted ← transaction fun service => context "persist transaction receipt batch"
      (persist_transaction_receipts parse_bytes service chain_id batch)
    return ([], progress.2 + persisted)
  else return (batch, progress.2)

/-- `backfill_transaction_receipts`: how many it has persisted. Where no transaction is left, the
loop makes no turn. -/
def backfill_transaction_receipts (chain_id : Int) (contract : String) (limit : Int)
    (persist_batch_size : Nat) : Job Nat := do
  let contract ← ask (backfill_transaction_receipts_args chain_id contract limit persist_batch_size)
  let service ← get
  let source ← ask (backfill_source service.db chain_id contract)
  let transaction_hashes := transaction_hashes_missing_receipts service source.id limit
  let (batch, persisted) ← transaction_hashes.foldlM
    (backfill_receipt parse_bytes rpc chain_id persist_batch_size) ([], 0)
  if batch = [] then return persisted
  else do
    let last ← transaction fun service => context "persist final transaction receipt batch"
      (persist_transaction_receipts parse_bytes service chain_id batch)
    return persisted + last

end Command

/-! ## Receipts in the table

A receipt is stored under chain and transaction hash. The hash is the one the answer carries
and not the one that was asked for, so that it is of the transaction is asked of the chain.
-/

section Stored

variable {parse_bytes : List Char → Option Nat} {chain_id : Int}

/-- The receipt can be read, and its row passes the checks of the table. -/
def CanStore (parse_bytes : List Char → Option Nat) (chain_id : Int) (receipt : TransactionReceipt) :
    Prop :=
  ∃ values, new_transaction_receipt_row parse_bytes chain_id receipt = .ok values ∧ values.Check

/-- The transaction a receipt is stored under. -/
def TransactionReceipt.stored_hash (receipt : TransactionReceipt) : String :=
  to_ascii_lowercase receipt.transaction_hash

theorem new_transaction_receipt_row_key {receipt : TransactionReceipt} {values : TransactionReceiptRow}
    (h : new_transaction_receipt_row parse_bytes chain_id receipt = .ok values) :
    values.chain_id = chain_id ∧ values.transaction_hash = receipt.stored_hash := by
  unfold new_transaction_receipt_row at h
  simp only [bind_eq_ok] at h
  obtain ⟨_, -, _, -, _, -, _, -, _, -, _, -, h⟩ := h
  cases h
  exact ⟨rfl, rfl⟩

theorem has_receipt_iff {rows : List TransactionReceiptRow} {transaction_hash : String} :
    has_receipt rows chain_id transaction_hash = true ↔
      (chain_id, transaction_hash) ∈ rows.map fun row => (row.chain_id, row.transaction_hash) := by
  unfold has_receipt
  simp only [List.any_eq_true, Bool.and_eq_true, beq_iff_eq, List.mem_map, Prod.mk.injEq]

/-- A receipt that is stored adds its key, and takes none away. -/
theorem upsert_has_receipt {rows rows' : List TransactionReceiptRow} {receipt : TransactionReceipt}
    (h : upsert_transaction_receipt parse_bytes chain_id rows receipt = .ok rows') (c : Int)
    (transaction_hash : String) :
    has_receipt rows' c transaction_hash = true ↔ has_receipt rows c transaction_hash = true ∨
      (c = chain_id ∧ transaction_hash = receipt.stored_hash) := by
  unfold upsert_transaction_receipt at h
  simp only [bind_eq_ok, bail_eq_ok] at h
  obtain ⟨values, hvalues, -, h⟩ := h
  obtain ⟨hchain, hhash⟩ := new_transaction_receipt_row_key hvalues
  rw [has_receipt_iff, has_receipt_iff]
  split at h
  · rename_i hthere
    cases h
    -- a row at the key gives way to one with the same key
    have hkeys : ((rows.map fun row => if (row.chain_id == values.chain_id &&
          row.transaction_hash == values.transaction_hash) = true then values else row).map
            fun row => (row.chain_id, row.transaction_hash))
        = rows.map fun row => (row.chain_id, row.transaction_hash) := by
      rw [List.map_map]
      refine List.map_congr_left fun row _ => ?_
      rw [Function.comp_apply]
      split
      · rename_i hkey
        rw [Bool.and_eq_true, beq_iff_eq, beq_iff_eq] at hkey
        rw [hkey.1, hkey.2]
      · rfl
    rw [hkeys]
    refine ⟨Or.inl, ?_⟩
    rintro (hbefore | ⟨rfl, rfl⟩)
    · exact hbefore
    · rw [← hchain, ← hhash]
      exact has_receipt_iff.1 hthere
  · cases h
    rw [List.map_append, List.mem_append, List.map_singleton, List.mem_singleton, Prod.mk.injEq,
      hchain, hhash]

/-- Receipts that can be stored are persisted, all in one transaction. A single one that
cannot be stored takes the others with it. -/
theorem persist_transaction_receipts_returns (service : Service) {receipts : List TransactionReceipt}
    (hall : ∀ receipt ∈ receipts, CanStore parse_bytes chain_id receipt) :
    ∃ result, persist_transaction_receipts parse_bytes service chain_id receipts = .ok result := by
  have hloop : ∀ (receipts : List TransactionReceipt) (rows : List TransactionReceiptRow),
      (∀ receipt ∈ receipts, CanStore parse_bytes chain_id receipt) →
      ∃ rows', receipts.foldlM (upsert_transaction_receipt parse_bytes chain_id) rows = .ok rows' := by
    intro receipts
    induction receipts with
    | nil => exact fun rows _ => ⟨rows, rfl⟩
    | cons receipt rest ih =>
      intro rows hall
      obtain ⟨values, hvalues, hcheck⟩ := hall receipt (List.mem_cons_self ..)
      have hone : ∃ rows', upsert_transaction_receipt parse_bytes chain_id rows receipt = .ok rows' := by
        unfold upsert_transaction_receipt
        simp only [hvalues, bind, Except.bind, not_true_eq_false, hcheck, if_false]
        split
        · exact ⟨_, rfl⟩
        · exact ⟨_, rfl⟩
      obtain ⟨mid, hmid⟩ := hone
      obtain ⟨rows', hrest⟩ := ih mid fun r hr => hall r (List.mem_cons_of_mem _ hr)
      exact ⟨rows', by rw [List.foldlM_cons, bind_eq_ok]; exact ⟨mid, hmid, hrest⟩⟩
  obtain ⟨rows', hrows⟩ := hloop receipts service.transaction_receipts hall
  refine ⟨(receipts.length, { service with transaction_receipts := rows' }), ?_⟩
  unfold persist_transaction_receipts
  rw [context_eq_ok, bind_eq_ok]
  exact ⟨rows', hrows, rfl⟩

/-- And none that cannot be stored is. -/
theorem canStore_of_persisted {service : Service} {receipts : List TransactionReceipt}
    {result : Nat × Service}
    (h : persist_transaction_receipts parse_bytes service chain_id receipts = .ok result) :
    ∀ receipt ∈ receipts, CanStore parse_bytes chain_id receipt := by
  intro receipt hreceipt
  unfold persist_transaction_receipts at h
  rw [context_eq_ok, bind_eq_ok] at h
  obtain ⟨rows', hrows, -⟩ := h
  obtain ⟨_, _, hturn⟩ := exists_turn_of_foldlM hrows hreceipt
  unfold upsert_transaction_receipt at hturn
  simp only [bind_eq_ok, bail_eq_ok, not_not] at hturn
  obtain ⟨values, hvalues, hcheck, -⟩ := hturn
  exact ⟨values, hvalues, hcheck⟩

/-- What persisting receipts adds to the table, and that it writes no other. -/
theorem persist_has_receipt {service service' : Service} {receipts : List TransactionReceipt}
    {persisted : Nat}
    (h : persist_transaction_receipts parse_bytes service chain_id receipts
      = .ok (persisted, service')) :
    service'.db = service.db ∧ ∀ c transaction_hash,
      has_receipt service'.transaction_receipts c transaction_hash = true ↔
        has_receipt service.transaction_receipts c transaction_hash = true ∨
          (c = chain_id ∧ transaction_hash ∈ receipts.map (·.stored_hash)) := by
  have hloop : ∀ (receipts : List TransactionReceipt) (rows rows' : List TransactionReceiptRow),
      receipts.foldlM (upsert_transaction_receipt parse_bytes chain_id) rows = .ok rows' →
      ∀ c transaction_hash, has_receipt rows' c transaction_hash = true ↔
        has_receipt rows c transaction_hash = true ∨
          (c = chain_id ∧ transaction_hash ∈ receipts.map (·.stored_hash)) := by
    intro receipts
    induction receipts with
    | nil =>
      intro rows rows' hfold c transaction_hash
      rw [List.foldlM_nil, pure_eq_ok] at hfold
      simp [hfold]
    | cons receipt rest ih =>
      intro rows rows' hfold c transaction_hash
      rw [List.foldlM_cons, bind_eq_ok] at hfold
      obtain ⟨mid, hone, hrest⟩ := hfold
      rw [ih mid rows' hrest, upsert_has_receipt hone, List.map_cons, List.mem_cons, or_assoc,
        ← and_or_left]
  unfold persist_transaction_receipts at h
  rw [context_eq_ok, bind_eq_ok] at h
  obtain ⟨rows', hrows, h⟩ := h
  cases h
  exact ⟨rfl, hloop receipts _ rows' hrows⟩

end Stored

/-! ## One run

A run ends at the end of its window, or stops at a receipt it cannot get, or at a batch the
table refuses. What it has stored by then are whole batches, a prefix of the window.
-/

section Run

variable {parse_bytes : List Char → Option Nat} {rpc : ChainRpc} {chain_id : Int}

/-- The chain answers with a receipt that can be stored. -/
def Receivable (parse_bytes : List Char → Option Nat) (rpc : ChainRpc) (chain_id : Int)
    (transaction_hash : String) : Prop :=
  ∃ receipt, rpc.transaction_receipt transaction_hash = .ok receipt ∧
    CanStore parse_bytes chain_id receipt

/-- What the chain answers for a transaction of the list is of that transaction. -/
def AnswersFor (rpc : ChainRpc) (transaction_hashes : List String) : Prop :=
  ∀ hash ∈ transaction_hashes, ∀ receipt, rpc.transaction_receipt hash = .ok receipt →
    receipt.stored_hash = hash

/-- The receipts of these transactions were stored, and nothing else was written. -/
structure Fetched (parse_bytes : List Char → Option Nat) (rpc : ChainRpc) (chain_id : Int)
    (start : Service) (done : List String) (s : Service) : Prop where
  db : s.db = start.db
  receipts : ∀ c transaction_hash, has_receipt s.transaction_receipts c transaction_hash = true ↔
    has_receipt start.transaction_receipts c transaction_hash = true ∨
      (c = chain_id ∧ transaction_hash ∈ done)
  receivable : ∀ hash ∈ done, Receivable parse_bytes rpc chain_id hash

variable {start s t : Service} {done selected : List String} {batch : List TransactionReceipt}
  {persist_batch_size : Nat}

theorem Fetched.refl (s : Service) : Fetched parse_bytes rpc chain_id s [] s :=
  ⟨rfl, fun c hash => by simp, fun _ hmem => absurd hmem List.not_mem_nil⟩

/-- A batch is stored as a whole, or holds a receipt that cannot be. -/
theorem Fetched.persist (h : Fetched parse_bytes rpc chain_id start done s)
    (hbatch : ∀ receipt ∈ batch, rpc.transaction_receipt receipt.stored_hash = .ok receipt)
    (text : String) {Q : Nat → Service → Prop} {E : String → Service → Prop}
    (hQ : ∀ persisted t,
      Fetched parse_bytes rpc chain_id start (done ++ batch.map (·.stored_hash)) t → Q persisted t)
    (hE : ∀ e, (∃ hash ∈ batch.map (·.stored_hash), ¬ Receivable parse_bytes rpc chain_id hash) →
      E e s) :
    Wp (transaction fun service => context text
      (persist_transaction_receipts parse_bytes service chain_id batch)) Q E s := by
  refine Wp.transaction (fun persisted t hok => ?_) fun e herror => hE e ?_
  · rw [context_eq_ok] at hok
    obtain ⟨hdb, hkeys⟩ := persist_has_receipt hok
    refine hQ persisted t ⟨hdb.trans h.db, fun c hash => ?_, fun hash hmem => ?_⟩
    · rw [hkeys, h.receipts, List.mem_append, and_or_left, or_assoc]
    · rcases List.mem_append.1 hmem with hmem | hmem
      · exact h.receivable hash hmem
      · obtain ⟨receipt, hreceipt, rfl⟩ := List.mem_map.1 hmem
        exact ⟨receipt, hbatch receipt hreceipt, canStore_of_persisted hok receipt hreceipt⟩
  · by_contra hall
    have hstore : ∀ receipt ∈ batch, CanStore parse_bytes chain_id receipt := by
      intro receipt hreceipt
      by_contra hbad
      refine hall ⟨receipt.stored_hash, List.mem_map_of_mem hreceipt, ?_⟩
      rintro ⟨found, hfound, hstored⟩
      rw [hbatch receipt hreceipt] at hfound
      cases hfound
      exact hbad hstored
    obtain ⟨result, hresult⟩ := persist_transaction_receipts_returns s hstore
    rw [hresult] at herror
    cases herror

/-- A run that stopped has stored whole batches, and the next holds a transaction whose receipt
cannot be fetched or stored. -/
def Stopped (parse_bytes : List Char → Option Nat) (rpc : ChainRpc) (chain_id : Int)
    (persist_batch_size : Nat) (start : Service) (selected : List String) (t : Service) : Prop :=
  ∃ k, Fetched parse_bytes rpc chain_id start (selected.take k) t ∧
    ∃ hash ∈ (selected.drop k).take persist_batch_size, ¬ Receivable parse_bytes rpc chain_id hash

theorem Fetched.stopped {pending rest : List String}
    (h : Fetched parse_bytes rpc chain_id start done t) (hselected : selected = done ++ (pending ++ rest))
    (hlength : pending.length ≤ persist_batch_size)
    (hbad : ∃ hash ∈ pending, ¬ Receivable parse_bytes rpc chain_id hash) :
    Stopped parse_bytes rpc chain_id persist_batch_size start selected t := by
  obtain ⟨hash, hmem, hbad⟩ := hbad
  refine ⟨done.length, ?_, hash, ?_, hbad⟩
  · rwa [hselected, List.take_left]
  · rw [hselected, List.drop_left, List.take_append, List.take_of_length_le hlength]
    exact List.mem_append_left _ hmem

/-- Where the loop is after some transactions: their receipts are in the table or in the batch. -/
structure Batching (parse_bytes : List Char → Option Nat) (rpc : ChainRpc) (chain_id : Int)
    (persist_batch_size : Nat) (start : Service) (done : List String)
    (batch : List TransactionReceipt) (s : Service) : Prop where
  answers : ∀ receipt ∈ batch, rpc.transaction_receipt receipt.stored_hash = .ok receipt
  short : batch.length < persist_batch_size
  fetched : ∃ stored, Fetched parse_bytes rpc chain_id start stored s ∧
    done = stored ++ batch.map (·.stored_hash)

/-- A turn of the loop gets the receipt of its transaction, or the run stops. -/
theorem backfill_receipt_fetches (persisted : Nat) {transaction_hash : String} {rest : List String}
    (h : Batching parse_bytes rpc chain_id persist_batch_size start done batch s)
    (hselected : selected = done ++ transaction_hash :: rest) (hanswers : AnswersFor rpc selected) :
    Wp (backfill_receipt parse_bytes rpc chain_id persist_batch_size (batch, persisted)
        transaction_hash)
      (fun progress t => Batching parse_bytes rpc chain_id persist_batch_size start
        (done ++ [transaction_hash]) progress.1 t)
      (fun _ t => Stopped parse_bytes rpc chain_id persist_batch_size start selected t) s := by
  obtain ⟨hbatch, hshort, stored, hfetched, rfl⟩ := h
  have hpending : selected
      = stored ++ ((batch.map (·.stored_hash) ++ [transaction_hash]) ++ rest) := by
    rw [hselected]
    simp
  unfold backfill_receipt
  refine Wp.bind (Wp.ask (fun receipt hreceipt => ?_) fun e herror => ?_)
  · rw [context_eq_ok] at hreceipt
    have hhash : receipt.stored_hash = transaction_hash :=
      hanswers transaction_hash (by rw [hselected]; simp) receipt hreceipt
    have hnext : ∀ r ∈ batch ++ [receipt], rpc.transaction_receipt r.stored_hash = .ok r := by
      intro r hr
      rcases List.mem_append.1 hr with hr | hr
      · exact hbatch r hr
      · rw [List.mem_singleton.1 hr, hhash]
        exact hreceipt
    have hhashes : (batch ++ [receipt]).map (·.stored_hash)
        = batch.map (·.stored_hash) ++ [transaction_hash] := by
      rw [List.map_append, List.map_singleton, hhash]
    dsimp only
    split
    · -- the batch is full
      refine Wp.bind (hfetched.persist hnext _ (fun _ t ht => Wp.pure ?_) fun e hbad => ?_)
      · refine ⟨fun _ hmem => absurd hmem List.not_mem_nil, by simpa using Nat.zero_lt_of_lt hshort,
          _, ht, ?_⟩
        rw [hhashes, List.map_nil, List.append_nil, List.append_assoc]
      · rw [hhashes] at hbad
        exact hfetched.stopped hpending (by simp; omega) hbad
    · rename_i hroom
      refine Wp.pure ⟨hnext, not_le.1 hroom, stored, hfetched, ?_⟩
      rw [hhashes, List.append_assoc]
  · refine hfetched.stopped hpending (by simp; omega) ⟨transaction_hash, by simp, ?_⟩
    rintro ⟨receipt, hreceipt, -⟩
    rw [hreceipt] at herror
    cases herror

/-- And so the loop gets those of all its transactions, or the run stops. -/
theorem backfill_receipts_fetch (transaction_hashes : List String) (persisted : Nat)
    (h : Batching parse_bytes rpc chain_id persist_batch_size start done batch s)
    (hselected : selected = done ++ transaction_hashes) (hanswers : AnswersFor rpc selected) :
    Wp (transaction_hashes.foldlM (backfill_receipt parse_bytes rpc chain_id persist_batch_size)
        (batch, persisted))
      (fun progress t => Batching parse_bytes rpc chain_id persist_batch_size start selected
        progress.1 t)
      (fun _ t => Stopped parse_bytes rpc chain_id persist_batch_size start selected t) s := by
  induction transaction_hashes generalizing done batch persisted s with
  | nil =>
    rw [hselected, List.append_nil]
    exact Wp.pure h
  | cons hash rest ih =>
    rw [List.foldlM_cons]
    refine Wp.bind ((backfill_receipt_fetches persisted h hselected hanswers).mono
      (fun progress t ht => ?_) fun _ _ he => he)
    exact ih progress.2 ht (by rw [hselected, List.append_assoc, List.singleton_append])

variable {contract address : String} {limit : Int} {source : SourceRow}

/-- A run that returns has stored the receipts of all transactions it selected. -/
theorem backfill_transaction_receipts_fetches
    (hargs : backfill_transaction_receipts_args chain_id contract limit persist_batch_size
      = .ok address)
    (hsource : source_by_contract s.db chain_id address = some source)
    (hselected : selected = transaction_hashes_missing_receipts s source.id limit)
    (hanswers : AnswersFor rpc selected) :
    Wp (backfill_transaction_receipts parse_bytes rpc chain_id contract limit persist_batch_size)
      (fun _ t => Fetched parse_bytes rpc chain_id s selected t)
      (fun _ t => Stopped parse_bytes rpc chain_id persist_batch_size s selected t) s := by
  have hpositive : 0 < persist_batch_size := by
    unfold backfill_transaction_receipts_args at hargs
    simp only [bind_eq_ok, bail_eq_ok] at hargs
    obtain ⟨_, -, -, -, hsize, -⟩ := hargs
    exact Nat.pos_of_ne_zero hsize
  have hfound : backfill_source s.db chain_id address = .ok source := by
    unfold backfill_source
    rw [hsource]
  have hstart : Batching parse_bytes rpc chain_id persist_batch_size s [] [] s :=
    ⟨fun _ hmem => absurd hmem List.not_mem_nil, hpositive, [], Fetched.refl s, rfl⟩
  unfold backfill_transaction_receipts
  refine Wp.bind (Wp.ask (fun found hok => ?_) fun e herror => ?_)
  · rw [hargs] at hok
    cases hok
    refine Wp.get_bind (Wp.bind (Wp.ask (fun stored hok => ?_) fun e herror => ?_))
    · rw [hfound] at hok
      cases hok
      dsimp only
      rw [← hselected]
      refine Wp.bind ((backfill_receipts_fetch selected 0 hstart (List.nil_append selected).symm
        hanswers).mono
        (fun progress t ht => ?_) fun _ _ he => he)
      obtain ⟨batch, persisted⟩ := progress
      obtain ⟨hbatch, hshort, stored, hfetched, hsplit⟩ := ht
      dsimp only at hbatch hshort hsplit ⊢
      rw [hsplit]
      split
      · rename_i hempty
        rw [hempty, List.map_nil, List.append_nil]
        exact Wp.pure hfetched
      · refine Wp.bind (hfetched.persist hbatch _ (fun _ u hu => Wp.pure hu) fun e hbad => ?_)
        have hpending : stored ++ batch.map (·.stored_hash)
            = stored ++ (batch.map (·.stored_hash) ++ []) := by rw [List.append_nil]
        exact hfetched.stopped hpending (by simpa using hshort.le) hbad
    · rw [hfound] at herror
      cases herror
  · rw [hargs] at herror
    cases herror

end Run

/-! ## The list

The next run selects again. A transaction is selected with all of its entries or not at all,
so those that are left have the first block they had, and the list is the old one without its
front.
-/

section Missing

variable {parse_bytes : List Char → Option Nat} {rpc : ChainRpc} {chain_id : Int} {s t : Service}
  {source_id : Uuid} {done : List String}

theorem missing_le_iff {missing : List LedgerEntryRow} {a b : String} : missing_le missing a b ↔
    toLex (first_missing_block missing a, a) ≤ toLex (first_missing_block missing b, b) := by
  rw [Prod.Lex.toLex_le_toLex]
  rfl

instance (missing : List LedgerEntryRow) : Std.Total (missing_le missing) :=
  ⟨fun a b => by
    rw [missing_le_iff, missing_le_iff]
    exact le_total _ _⟩

instance (missing : List LedgerEntryRow) : IsTrans String (missing_le missing) :=
  ⟨fun a b c hab hbc => by
    rw [missing_le_iff] at hab hbc ⊢
    exact hab.trans hbc⟩

theorem mem_missing_in_order {transaction_hash : String} :
    transaction_hash ∈ missing_in_order s source_id ↔
      transaction_hash ∈ missing_hashes s source_id :=
  List.mem_insertionSort _

theorem missing_in_order_nodup (s : Service) (source_id : Uuid) :
    (missing_in_order s source_id).Nodup :=
  (List.perm_insertionSort _ _).nodup_iff.2 (List.nodup_dedup _)

/-- The entries of the source that still miss a receipt are those of the other transactions. -/
theorem Fetched.entries_left (h : Fetched parse_bytes rpc chain_id s done t)
    (hchain : ∀ row ∈ s.db.ledger_entries.rows, row.source_id = source_id → row.chain_id = chain_id) :
    missing_entries t source_id
      = (missing_entries s source_id).filter fun row => !decide (row.transaction_hash ∈ done) := by
  unfold missing_entries
  rw [h.db, List.filter_filter]
  refine List.filter_congr fun row hrow => ?_
  by_cases hsource : row.source_id = source_id
  · have hkey := h.receipts row.chain_id row.transaction_hash
    rw [hchain row hrow hsource] at hkey ⊢
    simp only [true_and] at hkey
    cases hthere : has_receipt t.transaction_receipts chain_id row.transaction_hash <;>
      cases hbefore : has_receipt s.transaction_receipts chain_id row.transaction_hash <;>
      by_cases hdone : row.transaction_hash ∈ done <;>
      simp_all
  · rw [beq_false_of_ne hsource]
    simp

theorem Fetched.mem_left (h : Fetched parse_bytes rpc chain_id s done t)
    (hchain : ∀ row ∈ s.db.ledger_entries.rows, row.source_id = source_id → row.chain_id = chain_id)
    {transaction_hash : String} : transaction_hash ∈ missing_hashes t source_id ↔
      transaction_hash ∈ missing_hashes s source_id ∧ transaction_hash ∉ done := by
  unfold missing_hashes
  rw [List.mem_dedup, List.mem_dedup, h.entries_left hchain, List.mem_map, List.mem_map]
  constructor
  · rintro ⟨row, hrow, rfl⟩
    obtain ⟨hmem, hnot⟩ := List.mem_filter.1 hrow
    rw [Bool.not_eq_true', decide_eq_false_iff_not] at hnot
    exact ⟨⟨row, hmem, rfl⟩, hnot⟩
  · rintro ⟨⟨row, hrow, rfl⟩, hnot⟩
    refine ⟨row, List.mem_filter.2 ⟨hrow, ?_⟩, rfl⟩
    rw [Bool.not_eq_true', decide_eq_false_iff_not]
    exact hnot

/-- A transaction that is left keeps all of its entries, and its place in the order. -/
theorem Fetched.first_block_left (h : Fetched parse_bytes rpc chain_id s done t)
    (hchain : ∀ row ∈ s.db.ledger_entries.rows, row.source_id = source_id → row.chain_id = chain_id)
    {transaction_hash : String} (hnot : transaction_hash ∉ done) :
    first_missing_block (missing_entries t source_id) transaction_hash
      = first_missing_block (missing_entries s source_id) transaction_hash := by
  have hentries : (missing_entries t source_id).filter
        (fun row => row.transaction_hash == transaction_hash)
      = (missing_entries s source_id).filter
        fun row => row.transaction_hash == transaction_hash := by
    rw [h.entries_left hchain, List.filter_filter]
    refine List.filter_congr fun row _ => ?_
    by_cases hhash : row.transaction_hash = transaction_hash
    · simp [hhash, hnot]
    · simp [hhash]
  unfold first_missing_block
  rw [hentries]

/-- Once the first transactions of the list are done, the list is the rest. -/
theorem Fetched.list_left {window : Nat}
    (h : Fetched parse_bytes rpc chain_id s ((missing_in_order s source_id).take window) t)
    (hchain : ∀ row ∈ s.db.ledger_entries.rows, row.source_id = source_id → row.chain_id = chain_id) :
    missing_in_order t source_id = (missing_in_order s source_id).drop window := by
  have hnodup := missing_in_order_nodup s source_id
  -- what is left is what is not among the first
  have hdrop : ∀ hash, hash ∈ (missing_in_order s source_id).drop window ↔
      hash ∈ missing_in_order s source_id ∧
        hash ∉ (missing_in_order s source_id).take window := by
    intro hash
    have hsplit := List.take_append_drop window (missing_in_order s source_id)
    rw [← hsplit] at hnodup
    have hdisjoint := (List.nodup_append'.1 hnodup).2.2
    constructor
    · exact fun hmem => ⟨List.mem_of_mem_drop hmem, fun htake => hdisjoint htake hmem⟩
    · rintro ⟨hmem, hnot⟩
      rw [← hsplit, List.mem_append] at hmem
      exact hmem.resolve_left hnot
  have hperm : (missing_in_order t source_id).Perm
      ((missing_in_order s source_id).drop window) := by
    refine (List.perm_ext_iff_of_nodup (missing_in_order_nodup t source_id)
      (hnodup.sublist (List.drop_sublist ..))).2 fun hash => ?_
    rw [mem_missing_in_order, h.mem_left hchain, hdrop, mem_missing_in_order]
  -- both are in the order of the query, which has not changed for what is left
  have hafter : (missing_in_order t source_id).Pairwise (missing_le (missing_entries t source_id)) :=
    List.pairwise_insertionSort _ _
  have hbefore : ((missing_in_order s source_id).drop window).Pairwise
      (missing_le (missing_entries s source_id)) :=
    (List.pairwise_insertionSort _ _).sublist (List.drop_sublist ..)
  have hsame : ((missing_in_order s source_id).drop window).Pairwise
      (missing_le (missing_entries t source_id)) := by
    refine hbefore.imp_of_mem fun {a b} ha hb hab => ?_
    unfold missing_le at hab ⊢
    rw [h.first_block_left hchain ((hdrop a).1 ha).2,
      h.first_block_left hchain ((hdrop b).1 hb).2]
    exact hab
  refine List.Perm.eq_of_pairwise (fun a b _ _ hab hba => ?_) hafter hsame hperm
  rw [missing_le_iff] at hab hba
  exact (Prod.ext_iff.1 (toLex.injective (le_antisymm hab hba))).2

end Missing

/-! ## Repeated

Each run takes a window off the front until one stops, and then every later run stops at the
same transaction, or behind fewer than a batch of it. So what is never stored is everything
from the batch of that transaction on.
-/

/-- What the command leaves after some repetitions. -/
def receipts_after (parse_bytes : List Char → Option Nat) (rpc : ChainRpc) (chain_id : Int)
    (contract : String) (limit : Int) (persist_batch_size : Nat) : Nat → Service → Service :=
  Nat.iterate fun service =>
    left (backfill_transaction_receipts parse_bytes rpc chain_id contract limit persist_batch_size
      service)

theorem Fetched.trans {parse_bytes : List Char → Option Nat} {rpc : ChainRpc} {chain_id : Int}
    {r s t : Service} {done others : List String} (h : Fetched parse_bytes rpc chain_id r done s)
    (k : Fetched parse_bytes rpc chain_id s others t) :
    Fetched parse_bytes rpc chain_id r (done ++ others) t := by
  refine ⟨k.db.trans h.db, fun c hash => ?_, fun hash hmem => ?_⟩
  · rw [k.receipts, h.receipts, List.mem_append, and_or_left, or_assoc]
  · rcases List.mem_append.1 hmem with hmem | hmem
    · exact h.receivable hash hmem
    · exact k.receivable hash hmem

/-- What is in a first part and not in another is in the first part of what comes after it. -/
theorem mem_take_drop {l : List String} {hash : String} {size window : Nat}
    (hmem : hash ∈ l.take size) (hnot : hash ∉ l.take window) : hash ∈ (l.drop window).take size := by
  rcases Nat.le_total size window with hle | hle
  · refine absurd ?_ hnot
    have hpart : l.take size = (l.take window).take size := by rw [List.take_take, min_eq_left hle]
    rw [hpart] at hmem
    exact List.mem_of_mem_take hmem
  · rw [← Nat.add_sub_cancel' hle, List.take_add, List.mem_append] at hmem
    have hrest := hmem.resolve_left hnot
    have hpart : (l.drop window).take (size - window)
        = ((l.drop window).take size).take (size - window) := by
      rw [List.take_take, min_eq_left (Nat.sub_le ..)]
    rw [hpart] at hrest
    exact List.mem_of_mem_take hrest

/-- The command, repeated, takes the transactions that miss a receipt off the list from the front,
and stores their receipts and no others; it never gets past one whose receipt the chain does not
return or the table does not take. Each run takes as many as its window holds, until such a
transaction is within a batch of the front. -/
theorem receipts_backfilled {parse_bytes : List Char → Option Nat} {rpc : ChainRpc} {chain_id : Int}
    {contract address : String} {limit : Int} {persist_batch_size : Nat} {service : Service}
    {source : SourceRow}
    (hargs : backfill_transaction_receipts_args chain_id contract limit persist_batch_size
      = .ok address)
    (hsource : source_by_contract service.db chain_id address = some source)
    (hchain : ∀ row ∈ service.db.ledger_entries.rows, row.source_id = source.id →
      row.chain_id = chain_id)
    (hanswers : AnswersFor rpc (missing_in_order service source.id)) (runs : Nat) :
    let after := receipts_after parse_bytes rpc chain_id contract limit persist_batch_size runs service
    let missing := missing_in_order service source.id
    ∃ k, missing_in_order after source.id = missing.drop k ∧
      (∀ c hash, has_receipt after.transaction_receipts c hash = true ↔
        has_receipt service.transaction_receipts c hash = true ∨
          (c = chain_id ∧ hash ∈ missing.take k)) ∧
      (∀ hash ∈ missing.take k, Receivable parse_bytes rpc chain_id hash) ∧
      (k = runs * receipt_window limit ∨ ∃ hash ∈ (missing.drop k).take persist_batch_size,
        ¬ Receivable parse_bytes rpc chain_id hash) := by
  intro after missing
  have hruns : ∃ k, Fetched parse_bytes rpc chain_id service (missing.take k) after ∧
      (k = runs * receipt_window limit ∨ ∃ hash ∈ (missing.drop k).take persist_batch_size,
        ¬ Receivable parse_bytes rpc chain_id hash) := by
    unfold after receipts_after
    induction runs with
    | zero =>
      refine ⟨0, ?_, Or.inl (Nat.zero_mul _).symm⟩
      rw [List.take_zero]
      exact Fetched.refl service
    | succ runs ih =>
      obtain ⟨k, hfetched, hends⟩ := ih
      rw [Function.iterate_succ_apply']
      generalize Nat.iterate _ runs service = s at hfetched ⊢
      have hlist : missing_in_order s source.id = missing.drop k := hfetched.list_left hchain
      have hselected : (missing.drop k).take (receipt_window limit)
          = transaction_hashes_missing_receipts s source.id limit := by
        unfold transaction_hashes_missing_receipts
        rw [hlist]
      have hrun : Wp (backfill_transaction_receipts parse_bytes rpc chain_id contract limit
          persist_batch_size) _ _ s :=
        backfill_transaction_receipts_fetches hargs (hfetched.db ▸ hsource) hselected
          fun hash hmem => hanswers hash (List.mem_of_mem_drop (List.mem_of_mem_take hmem))
      cases hresult : backfill_transaction_receipts parse_bytes rpc chain_id contract limit
          persist_batch_size s with
      | ok persisted t =>
        -- the whole window is stored
        have ht := hrun.of_ok hresult
        refine ⟨k + receipt_window limit, ?_, ?_⟩
        · rw [List.take_add]
          exact hfetched.trans ht
        · rcases hends with rfl | ⟨hash, hmem, hbad⟩
          · exact Or.inl (Nat.succ_mul ..).symm
          · refine Or.inr ⟨hash, ?_, hbad⟩
            rw [← List.drop_drop]
            exact mem_take_drop hmem fun hin => hbad (ht.receivable hash hin)
      | error e t =>
        -- the batches before the one that failed are
        obtain ⟨stored, ht, hash, hmem, hbad⟩ := hrun.of_error hresult
        rw [List.drop_take, List.take_take] at hmem
        have hwithin : stored < receipt_window limit := by
          by_contra hge
          rw [Nat.sub_eq_zero_of_le (not_lt.1 hge), Nat.min_zero, List.take_zero] at hmem
          cases hmem
        refine ⟨k + stored, ?_, Or.inr ⟨hash, ?_, hbad⟩⟩
        · rw [List.take_take, min_eq_left hwithin.le] at ht
          rw [List.take_add]
          exact hfetched.trans ht
        · rw [← List.drop_drop]
          rw [Nat.min_comm, ← List.take_take] at hmem
          exact List.mem_of_mem_take hmem
  obtain ⟨k, hfetched, hends⟩ := hruns
  exact ⟨k, hfetched.list_left hchain, hfetched.receipts, hfetched.receivable, hends⟩

/-- A chain with one kind of receipt. -/
def receipt_of (transaction_hash : String) : TransactionReceipt :=
  { transaction_hash, transaction_index := "0x0", block_hash := "0xb1", block_number := "0x1"
    «from» := alice, «to» := none, contract_address := none, status := some "0x1", gas_used := "0x5"
    cumulative_gas_used := "0x5", effective_gas_price := none, transaction_type := none, raw := "" }

/-- Its row. -/
def receipt_row_of (transaction_hash : String) : TransactionReceiptRow :=
  { chain_id := 1, transaction_hash, block_number := 1, block_hash := "0xb1"
    transaction_index := some 0, from_address := alice, to_address := none, contract_address := none
    status := some 1, gas_used := 5, cumulative_gas_used := 5, effective_gas_price := none
    transaction_type := none, raw_receipt := "" }

/-- Two entries of different transactions, without receipts. -/
def without_receipts : Service :=
  { db := (small_ledger mint_then_transfer).foldl (LedgerOp.commit plain_digits) Db.empty
    chains := [], transaction_receipts := [], reorg_events := [], ingested := [] }

theorem receipts_backfilled_two_entries :
    let rpc : ChainRpc := { small_rpc 2 (fun _ => "0xb1") [] with
      transaction_receipt := fun hash => .ok (receipt_of hash) }
    missing_in_order without_receipts 0 = ["0xd1", "0xd2"] ∧
      missing_in_order (receipts_after parse_hex_digits rpc 1 small_source.contract_address 1 3 1
        without_receipts) 0 = ["0xd2"] := by
  intro rpc
  have heval : backfill_transaction_receipts_args 1 small_source.contract_address 1 3
        = .ok small_source.contract_address ∧
      source_by_contract without_receipts.db 1 small_source.contract_address = some small_source ∧
      (∀ row ∈ without_receipts.db.ledger_entries.rows, row.source_id = small_source.id →
        row.chain_id = 1) ∧
      missing_in_order without_receipts small_source.id = ["0xd1", "0xd2"] ∧
      ∀ hash ∈ ["0xd1", "0xd2"], (receipt_of hash).stored_hash = hash ∧
        new_transaction_receipt_row parse_hex_digits 1 (receipt_of hash)
          = .ok (receipt_row_of hash) ∧ (receipt_row_of hash).Check := by
    decide +kernel
  obtain ⟨hargs, hsource, hchain, hlist, hreceipts⟩ := heval
  have hanswers : AnswersFor rpc (missing_in_order without_receipts small_source.id) := by
    intro hash hmem receipt hreceipt
    cases hreceipt
    exact (hreceipts hash (hlist ▸ hmem)).1
  obtain ⟨k, hleft, -, -, hk⟩ := @receipts_backfilled parse_hex_digits rpc 1 _ _ 1 3 without_receipts _
    hargs hsource hchain hanswers 1
  have hone : k = 1 := by
    refine hk.resolve_right ?_
    rintro ⟨hash, hmem, hbad⟩
    rw [hlist] at hmem
    obtain ⟨-, hrow, hcheck⟩ := hreceipts hash (List.mem_of_mem_drop (List.mem_of_mem_take hmem))
    exact hbad ⟨receipt_of hash, rfl, _, hrow, hcheck⟩
  rw [hone, hlist] at hleft
  exact ⟨hlist, hleft⟩

end EvmIndexer
