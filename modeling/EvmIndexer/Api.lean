/-
The endpoints of `api/mod.rs`, and what a client makes of their answers.

A handler checks the address and the parameters, looks the contract up, and answers with what
the repository reads; a paged answer carries the cursor as text. Nothing on the server relates
one answer to another. A client that follows the cursors until none is given gets the rows its
filters select, in order and each once, in as many answers as the limit makes necessary
(`followed_pages_are_the_selection`), provided the table stays as it is meanwhile and no two
active rows share a place. An index that follows one chain has its rows at places of their
own (`in_place_run`).

Two things follow that no endpoint computes. Adding up the transfers of a holder gives the
balance that the holders endpoint shows (`account_statement`), though the one reads
`ledger_entries` and the other `token_balances`. And where a token is handed on as one unit,
the path endpoint ends with the holder that the holders endpoint shows
(`token_path_ends_with_holder`).
-/
import EvmIndexer.Rankings
import EvmIndexer.Places
import EvmIndexer.Hex

set_option autoImplicit false

namespace EvmIndexer

open Sql Transition Bookkeeping

namespace Api

/-! ## Answers

A handler answers with a page or with one of two errors, and the check it made first decides
which. The checks of the parameters are those of the repository's query, with their texts.
-/

/-- `ApiError`. -/
inductive ApiError
  | BadRequest (message : String)
  | NotFound (message : String)
  deriving DecidableEq, Repr

/-- `ApiResult`. -/
abbrev ApiResult (α : Type) : Type := Except ApiError α

/-- A check of a parameter, whose error is a bad request. -/
def checked {α : Type} (r : Result α) : ApiResult α :=
  match r with
  | .ok a => .ok a
  | .error message => .error (.BadRequest message)

/-- `ok_or_else(|| ApiError::not_found("contract source not found"))`. -/
def found {α : Type} (answer : Option α) : ApiResult α :=
  match answer with
  | some a => .ok a
  | none => .error (.NotFound "contract source not found")

/-- `HolderBalance`, with the balance as a number. -/
structure HolderBalance where
  holder_address : String
  token_id : String
  balance : Int
  first_received_block : Option Int
  last_moved_block : Option Int
  deriving DecidableEq, Repr

/-- `HolderBalance::from`. -/
def HolderBalance.from_row (row : TokenBalanceRow) : HolderBalance :=
  { holder_address := row.holder_address
    token_id := row.token_id
    balance := row.balance
    first_received_block := row.first_received_block
    last_moved_block := row.last_moved_block }

/-- `PageResponse`. -/
structure PageResponse (α : Type) where
  items : List α
  next_cursor : Option String

/-- `PageResponse::from`. -/
def PageResponse.from_page {α : Type} (page : LedgerPage α) : PageResponse α :=
  { items := page.items, next_cursor := page.next_cursor.map encode_cursor }

/-! ## The repository's reads

Each read looks the contract up by chain and address and then reads the tables of that
source. A contract that is not there is no error of the repository: it answers with nothing,
and the handler makes a 404 of it.
-/

/-- `holders`. -/
def holders (db : Db) (chain_id : Int) (contract_address : String) (limit : Int) :
    Option (List HolderBalance) := do
  let source ← source_by_contract db chain_id contract_address
  some ((top_holders_conn db source.id (clamp_limit limit).toNat).map HolderBalance.from_row)

/-- `minters`. -/
def minters (db : Db) (chain_id : Int) (contract_address : String) (limit : Int) :
    Option (List MinterSummary) := do
  let source ← source_by_contract db chain_id contract_address
  some (top_minters_conn db source.id (clamp_limit limit))

/-- `transfers_page`. -/
def transfers_page (db : Db) (chain_id : Int) (contract_address : String) (query : LedgerQuery) :
    Option (LedgerPage LedgerTransfer) := do
  let source ← source_by_contract db chain_id contract_address
  some (ledger_page_conn db source.id query .Desc)

/-- `token_path_page`. -/
def token_path_page (db : Db) (chain_id : Int) (contract_address token_id : String)
    (query : LedgerQuery) : Option (LedgerPage LedgerTransfer) := do
  let source ← source_by_contract db chain_id contract_address
  some (ledger_page_conn db source.id { query with token_id := some token_id } .Asc)

/-! ## The handlers

The address is checked before the parameters, and both before the database is asked. Where
several handlers take a parameter it is checked by one function of the repository, with the
default limit that the handler passes to it.
-/

/-- `normalize_contract_address`. -/
def normalize_contract_address (value : String) : Result String :=
  normalize_evm_address value "contract"

/-- `contract_summary`. -/
def contract_summary (db : Db) (chain_id : Int) (contract_address : String) :
    ApiResult ContractSummary := do
  let contract_address ← checked (normalize_contract_address contract_address)
  found (EvmIndexer.contract_summary db chain_id contract_address)

/-- `contract_holders`. -/
def contract_holders (db : Db) (chain_id : Int) (contract_address : String) (limit : Option Int) :
    ApiResult (List HolderBalance) := do
  let contract_address ← checked (normalize_contract_address contract_address)
  let limit ← checked (limit_or_default limit 50)
  found (holders db chain_id contract_address limit)

/-- `contract_minters`. -/
def contract_minters (db : Db) (chain_id : Int) (contract_address : String) (limit : Option Int) :
    ApiResult (List MinterSummary) := do
  let contract_address ← checked (normalize_contract_address contract_address)
  let limit ← checked (limit_or_default limit 50)
  found (minters db chain_id contract_address limit)

/-- `contract_transfers`. -/
def contract_transfers (db : Db) (chain_id : Int) (contract_address : String)
    (query : LedgerPageQuery) : ApiResult (PageResponse LedgerTransfer) := do
  let contract_address ← checked (normalize_contract_address contract_address)
  let query ← checked (query.to_ledger_query 50)
  let page ← found (transfers_page db chain_id contract_address query)
  .ok (PageResponse.from_page page)

/-- `token_path`. -/
def token_path (db : Db) (chain_id : Int) (contract_address token_id : String)
    (query : LedgerPageQuery) : ApiResult (PageResponse LedgerTransfer) := do
  let contract_address ← checked (normalize_contract_address contract_address)
  let query ← checked (query.to_ledger_query 100)
  let page ← found (token_path_page db chain_id contract_address token_id query)
  .ok (PageResponse.from_page page)

/-! ## Following the cursors

The two paged endpoints differ in the direction, in the limit a request gets without asking
for one, and in that the path fixes the token. Once the source is found they are one function
of these (`pages_of`), and its answers are the keyset pages of the rows the filters select.
Unlike the walks of `Pages` these are over one table, so a walk exists from every start and
the number of its pages is known.
-/

/-- A client that sends its query again with the cursor of the last answer, until an answer
has none: the items of each answer. -/
inductive Follows {α : Type} (fetch : LedgerPageQuery → ApiResult (PageResponse α)) :
    LedgerPageQuery → List (List α) → Prop
  | last {query : LedgerPageQuery} {page : PageResponse α} (hpage : fetch query = .ok page)
      (hnone : page.next_cursor = none) : Follows fetch query [page.items]
  | next {query : LedgerPageQuery} {page : PageResponse α} {cursor : String} {pages : List (List α)}
      (hpage : fetch query = .ok page) (hsome : page.next_cursor = some cursor)
      (rest : Follows fetch { query with cursor := some cursor } pages) :
      Follows fetch query (page.items :: pages)

@[simp] theorem checked_eq_ok {α : Type} {r : Result α} {a : α} :
    checked r = .ok a ↔ r = .ok a := by
  unfold checked
  cases r <;> simp

@[simp] theorem found_eq_ok {α : Type} {answer : Option α} {a : α} :
    found answer = .ok a ↔ answer = some a := by
  unfold found
  cases answer <;> simp

theorem bind_eq_ok {α β : Type} {r : ApiResult α} {f : α → ApiResult β} {b : β} :
    r >>= f = .ok b ↔ ∃ a, r = .ok a ∧ f a = .ok b := by
  cases r with
  | ok a => simp only [Except.ok.injEq, exists_eq_left', Bind.bind, Except.bind]
  | error e => simp only [reduceCtorEq, false_and, exists_false, Bind.bind, Except.bind]

/-- A check that passes. -/
theorem checked_ok_bind {α β : Type} (a : α) (f : α → ApiResult β) :
    (checked (.ok a) >>= f) = f a := rfl

/-- The query with a token id in place of its own, where one is given. -/
def of_token (token_id : Option String) (query : LedgerQuery) : LedgerQuery :=
  match token_id with
  | none => query
  | some token_id => { query with token_id := some token_id }

/-- What the paged endpoints do once the source is found. -/
def pages_of (db : Db) (source_id : Uuid) (sort : LedgerSort) (default_limit : Int)
    (token_id : Option String) (query : LedgerPageQuery) :
    ApiResult (PageResponse LedgerTransfer) := do
  let query ← checked (query.to_ledger_query default_limit)
  .ok (PageResponse.from_page (ledger_page_conn db source_id (of_token token_id query) sort))

section Endpoints

variable {db : Db} {chain_id : Int} {contract_address : String} {address : String}
  {source : SourceRow}

theorem contract_transfers_eq (haddress : normalize_contract_address contract_address = .ok address)
    (hsource : source_by_contract db chain_id address = some source) :
    contract_transfers db chain_id contract_address = pages_of db source.id .Desc 50 none := by
  have hpage : ∀ query, transfers_page db chain_id address query
      = some (ledger_page_conn db source.id query .Desc) := by
    intro query
    unfold transfers_page
    rw [hsource]
    rfl
  funext query
  unfold contract_transfers pages_of
  simp only [haddress, checked_ok_bind, hpage]
  rfl

theorem token_path_eq (haddress : normalize_contract_address contract_address = .ok address)
    (hsource : source_by_contract db chain_id address = some source) (token_id : String) :
    token_path db chain_id contract_address token_id
      = pages_of db source.id .Asc 100 (some token_id) := by
  have hpage : ∀ query, token_path_page db chain_id address token_id query
      = some (ledger_page_conn db source.id { query with token_id := some token_id } .Asc) := by
    intro query
    unfold token_path_page
    rw [hsource]
    rfl
  funext query
  unfold token_path pages_of
  simp only [haddress, checked_ok_bind, hpage]
  rfl

end Endpoints

section Follow

variable {db : Db} {source_id : Uuid} {sort : LedgerSort} {default_limit : Int}
  {token_id : Option String} {query : LedgerPageQuery} {ledger_query : LedgerQuery}

theorem of_token_keeps (token_id : Option String) (query : LedgerQuery) :
    (of_token token_id query).limit = query.limit ∧
      (of_token token_id query).cursor = query.cursor := by
  unfold of_token
  cases token_id <;> exact ⟨rfl, rfl⟩

/-- What is selected does not depend on the cursor. -/
theorem selected_of_cursor (db : Db) (source_id : Uuid) (token_id : Option String)
    (query : LedgerQuery) (cursor : Option LedgerCursor) :
    db.selected source_id (of_token token_id { query with cursor })
      = db.selected source_id (of_token token_id query) := by
  unfold of_token
  cases token_id <;> rfl

variable (db source_id sort token_id) in
/-- One answer is a keyset page of what is selected, shown as transfers. -/
theorem pages_of_eq (hquery : query.to_ledger_query default_limit = .ok ledger_query) :
    ∃ page, pages_of db source_id sort default_limit token_id query
        = .ok (PageResponse.from_page page) ∧
      (let keyset := Keyset.page sort.key (clamp_limit ledger_query.limit).toNat
        (ledger_query.cursor.map sort.key_at) (db.selected source_id (of_token token_id ledger_query))
      page.items = keyset.1.map LedgerTransfer.from_row ∧
        page.next_cursor.map sort.key_at = keyset.2 ∧
        ∀ cursor ∈ page.next_cursor, ∃ row ∈ db.ledger_entries.rows,
          cursor = LedgerCursor.from_row row) := by
  obtain ⟨hlimit, hcursor⟩ := of_token_keeps token_id ledger_query
  obtain ⟨hitems, hnext⟩ := ledger_page_rows_eq db source_id (of_token token_id ledger_query) sort
  rw [hlimit, hcursor] at hitems hnext
  refine ⟨ledger_page_conn db source_id (of_token token_id ledger_query) sort, ?_, ?_, hnext, ?_⟩
  · unfold pages_of
    rw [hquery]
    rfl
  · exact congrArg (List.map LedgerTransfer.from_row) hitems
  · intro cursor hsome
    exact exists_row_of_cursor hsome

/-- A client that is answered has sent a query that is accepted. -/
theorem Follows.accepted {pages : List (List LedgerTransfer)}
    (h : Follows (pages_of db source_id sort default_limit token_id) query pages) :
    ∃ ledger_query, query.to_ledger_query default_limit = .ok ledger_query := by
  have hfirst : ∃ page, pages_of db source_id sort default_limit token_id query = .ok page := by
    cases h with
    | last hpage _ => exact ⟨_, hpage⟩
    | next hpage _ _ => exact ⟨_, hpage⟩
  obtain ⟨page, hpage⟩ := hfirst
  unfold pages_of at hpage
  obtain ⟨ledger_query, hquery, -⟩ := bind_eq_ok.1 hpage
  exact ⟨ledger_query, checked_eq_ok.1 hquery⟩

/-- The answers to a client are the pages of a keyset walk over one table. -/
theorem Follows.keyset {pages : List (List LedgerTransfer)}
    (h : Follows (pages_of db source_id sort default_limit token_id) query pages)
    (hquery : query.to_ledger_query default_limit = .ok ledger_query) :
    ∃ tables rows, Keyset.Walk sort.key (clamp_limit ledger_query.limit).toNat
        (ledger_query.cursor.map sort.key_at) tables rows ∧
      (∀ table ∈ tables, table = db.selected source_id (of_token token_id ledger_query)) ∧
      pages = rows.map (·.map LedgerTransfer.from_row) := by
  induction h generalizing ledger_query with
  | @last query answer hpage hnone =>
    obtain ⟨page, hanswer, hitems, hnext, -⟩ := pages_of_eq db source_id sort token_id hquery
    rw [hanswer] at hpage
    cases hpage
    have hlast : page.next_cursor = none := Option.map_eq_none_iff.1 hnone
    rw [hlast, Option.map_none] at hnext
    refine ⟨_, _, Keyset.Walk.last hnext.symm, fun table htable => List.mem_singleton.1 htable, ?_⟩
    exact congrArg (fun items => [items]) hitems
  | @next query answer cursor pages hpage hsome _ ih =>
    obtain ⟨page, hanswer, hitems, hnext, hrow⟩ := pages_of_eq db source_id sort token_id hquery
    rw [hanswer] at hpage
    cases hpage
    obtain ⟨place, hplace, rfl⟩ := Option.map_eq_some_iff.1 hsome
    obtain ⟨row, hmem, rfl⟩ := hrow place hplace
    -- the next query is this one from the place of the last row
    have hlater := to_ledger_query_with_cursor hquery (parse_encode_cursor_of_row hmem)
    obtain ⟨tables, rows, hwalk, hfixed, hpages⟩ := ih hlater
    rw [hplace, Option.map_some] at hnext
    rw [selected_of_cursor] at hfixed
    refine ⟨_, _, Keyset.Walk.next hnext.symm hwalk, List.forall_mem_cons.2 ⟨rfl, hfixed⟩, ?_⟩
    rw [List.map_cons, ← hitems, ← hpages]
    rfl

/-- And every keyset walk over that table is followed by a client. -/
theorem Follows.of_keyset {tables rows : List (List LedgerEntryRow)} {place : Option (ℤ ×ₗ ℤ ×ₗ ℤ)}
    (h : Keyset.Walk sort.key (clamp_limit ledger_query.limit).toNat place tables rows)
    (hplace : place = ledger_query.cursor.map sort.key_at)
    (hfixed : ∀ table ∈ tables, table = db.selected source_id (of_token token_id ledger_query))
    (hquery : query.to_ledger_query default_limit = .ok ledger_query) :
    ∃ pages, Follows (pages_of db source_id sort default_limit token_id) query pages := by
  generalize hlimit : (clamp_limit ledger_query.limit).toNat = limit at h
  induction h generalizing query ledger_query with
  | @last place table hnone =>
    obtain ⟨page, hanswer, -, hnext, -⟩ := pages_of_eq db source_id sort token_id hquery
    rw [hlimit, ← hplace, ← hfixed table (List.mem_cons_self ..), hnone] at hnext
    refine ⟨_, Follows.last hanswer ?_⟩
    exact Option.map_eq_none_iff.2 (Option.map_eq_none_iff.1 hnext)
  | @next place table tables rows c hsome _ ih =>
    obtain ⟨page, hanswer, -, hnext, hrow⟩ := pages_of_eq db source_id sort token_id hquery
    rw [hlimit, ← hplace, ← hfixed table (List.mem_cons_self ..), hsome] at hnext
    obtain ⟨cursor, hcursor, rfl⟩ := Option.map_eq_some_iff.1 hnext
    obtain ⟨row, hmem, rfl⟩ := hrow cursor hcursor
    have hlater := to_ledger_query_with_cursor hquery (parse_encode_cursor_of_row hmem)
    obtain ⟨pages, hpages⟩ := ih rfl (fun t ht => (hfixed t (List.mem_cons_of_mem _ ht)).trans
      (selected_of_cursor db source_id token_id ledger_query _).symm) hlater hlimit
    refine ⟨_, Follows.next hanswer ?_ hpages⟩
    exact congrArg (Option.map encode_cursor) hcursor

theorem past_none (sort : LedgerSort) (rows : List LedgerEntryRow) :
    Keyset.past sort.key none rows = rows.insertionSort sort.row_le := by
  have hle : sort.row_le = fun a b => sort.key a ≤ sort.key b := by
    funext a b
    exact propext row_le_iff
  have hall : rows.filter (fun r => (none : Option (ℤ ×ₗ ℤ ×ₗ ℤ)).all fun c => decide (c < sort.key r))
      = rows := List.filter_eq_self.2 fun _ _ => rfl
  unfold Keyset.past
  rw [hall]
  congr 1
  exact hle.symm

/-- A query that is accepted keeps its limit, and has a cursor only if one was sent. -/
theorem of_to_ledger_query (h : query.to_ledger_query default_limit = .ok ledger_query) :
    clamp_limit ledger_query.limit = ledger_query.limit ∧
      (query.cursor = none → ledger_query.cursor = none) := by
  unfold LedgerPageQuery.to_ledger_query at h
  simp only [EvmIndexer.bind_eq_ok, bail_eq_ok] at h
  obtain ⟨limit, hlimit, -, -, -, cursor, hcursor, holder, -, movement_type, -, h⟩ := h
  cases h
  refine ⟨?_, fun hnone => ?_⟩
  · unfold limit_or_default at hlimit
    simp only [bail_eq_ok, not_not] at hlimit
    obtain ⟨hbounds, hlimit⟩ := hlimit
    cases hlimit
    unfold clamp_limit
    simp only
    omega
  · rw [hnone] at hcursor
    cases hcursor
    rfl

end Follow

/-- A client that follows the cursors comes to an end and has got these rows, in as many
answers as pages of `limit` rows make necessary. -/
structure Delivers (fetch : LedgerPageQuery → ApiResult (PageResponse LedgerTransfer))
    (query : LedgerPageQuery) (rows : List LedgerEntryRow) (limit : Nat) : Prop where
  ends : ∃ pages, Follows fetch query pages
  items : ∀ pages, Follows fetch query pages → pages.flatten = rows.map LedgerTransfer.from_row
  answers : ∀ pages, Follows fetch query pages →
    pages.length = max 1 ((rows.length + limit - 1) / limit)

theorem pages_of_delivers {db : Db} {source_id : Uuid} (hdistinct : DistinctPlaces db source_id)
    (sort : LedgerSort) {default_limit : Int} (token_id : Option String) {query : LedgerPageQuery}
    {ledger_query : LedgerQuery} (hquery : query.to_ledger_query default_limit = .ok ledger_query)
    (hcursor : query.cursor = none) :
    Delivers (pages_of db source_id sort default_limit token_id) query
      ((db.selected source_id (of_token token_id ledger_query)).insertionSort sort.row_le)
      ledger_query.limit.toNat := by
  obtain ⟨hlimit, hnone⟩ := of_to_ledger_query hquery
  have hpositive : 0 < (clamp_limit ledger_query.limit).toNat := by
    unfold clamp_limit
    omega
  have hkeys := selected_keys_nodup hdistinct sort (of_token token_id ledger_query)
  have hstart : ledger_query.cursor.map sort.key_at = none := by
    rw [hnone hcursor]
    rfl
  refine ⟨?_, fun pages hpages => ?_, fun pages hpages => ?_⟩
  · obtain ⟨tables, rows, hwalk, hfixed⟩ := Keyset.exists_walk hpositive hkeys none
    exact Follows.of_keyset hwalk hstart.symm hfixed hquery
  · obtain ⟨tables, rows, hwalk, hfixed, rfl⟩ := hpages.keyset hquery
    rw [hstart] at hwalk
    rw [← List.map_flatten, hwalk.flatten_eq hpositive hkeys hfixed, past_none]
  · obtain ⟨tables, rows, hwalk, hfixed, rfl⟩ := hpages.keyset hquery
    rw [hstart] at hwalk
    rw [List.length_map, hwalk.length_eq hpositive hkeys hfixed, past_none, hlimit]

section Clients

variable {db : Db} {chain_id : Int} {contract_address address : String} {source : SourceRow}

/-- Over a table that stays as it is, with active rows at different places, the cursors of both
paged endpoints lead through the rows that the parameters select, in order and each once, and
to an end. -/
theorem followed_pages_are_the_selection
    (haddress : normalize_contract_address contract_address = .ok address)
    (hsource : source_by_contract db chain_id address = some source)
    (hdistinct : DistinctPlaces db source.id) {query : LedgerPageQuery}
    (hcursor : query.cursor = none) :
    (∀ ledger_query, query.to_ledger_query 50 = .ok ledger_query →
      Delivers (contract_transfers db chain_id contract_address) query
        ((db.selected source.id ledger_query).insertionSort LedgerSort.Desc.row_le)
        ledger_query.limit.toNat) ∧
    ∀ token_id ledger_query, query.to_ledger_query 100 = .ok ledger_query →
      Delivers (token_path db chain_id contract_address token_id) query
        ((db.selected source.id { ledger_query with token_id := some token_id }).insertionSort
          LedgerSort.Asc.row_le)
        ledger_query.limit.toNat := by
  refine ⟨fun ledger_query hquery => ?_, fun token_id ledger_query hquery => ?_⟩
  · rw [contract_transfers_eq haddress hsource]
    exact pages_of_delivers hdistinct .Desc none hquery hcursor
  · rw [token_path_eq haddress hsource]
    exact pages_of_delivers hdistinct .Asc (some token_id) hquery hcursor

/-! ## The statement of an account

The transfers endpoint filters by holder and token, where a row matches if the holder is on
either side of it. What such a row adds to the holder is its amount, received or sent, and
nothing if it was sent to the holder by itself. The rows left out by the filter add nothing
either, so the sum over the pages is the net of the account, and the books balance.
-/

/-- What a transfer adds to an address. -/
def signed (holder : String) (transfer : LedgerTransfer) : Int :=
  (if transfer.to_address = some holder then transfer.amount else 0)
    - if transfer.from_address = some holder then transfer.amount else 0

/-- Where what is left out adds nothing, a selection adds up to the whole. -/
theorem sum_filter_of_zero {f : LedgerEntryRow → Int} {p : LedgerEntryRow → Bool}
    {rows : List LedgerEntryRow} (h : ∀ row ∈ rows, p row = false → f row = 0) :
    ((rows.filter p).map f).sum = (rows.map f).sum := by
  induction rows with
  | nil => rfl
  | cons row rest ih =>
    have hrest := ih fun r hr => h r (List.mem_cons_of_mem _ hr)
    rw [List.filter_cons]
    cases hp : p row with
    | true => simp [hrest]
    | false => simp [hrest, h row (List.mem_cons_self ..) hp]

/-- The selected rows of a holder and a token add up to the net of the account. -/
theorem sum_signed_eq_net {source_id : Uuid} {query : LedgerQuery} {holder token_id : String}
    (hselects : ∀ row, query.selects source_id row = (row.source_id == source_id && !row.orphaned &&
      ((row.from_address == some holder || row.to_address == some holder) &&
        row.token_id == token_id))) :
    ((db.selected source_id query).map fun row => signed holder (LedgerTransfer.from_row row)).sum
      = db.net source_id (holder, token_id) := by
  have hselected : db.selected source_id query = (db.active_entries source_id).filter fun row =>
      (row.from_address == some holder || row.to_address == some holder) &&
        row.token_id == token_id := by
    unfold Db.selected Db.active_entries
    rw [List.filter_filter]
    refine List.filter_congr fun row _ => ?_
    rw [hselects, Bool.and_comm]
  -- on the rows of the token, the sign of a transfer is the effect of its movement
  have heffect : ∀ row : LedgerEntryRow, row.token_id = token_id →
      signed holder (LedgerTransfer.from_row row) = row.movement.effect (holder, token_id) := by
    intro row htoken
    unfold signed Movement.effect LedgerEntryRow.movement LedgerTransfer.from_row
    by_cases hto : row.to_address = some holder <;>
      by_cases hfrom : row.from_address = some holder <;> simp [hto, hfrom, htoken]
  unfold Db.net Bookkeeping.net
  rw [List.map_map, hselected, ← sum_filter_of_zero (f := _ ∘ _)]
  · refine congrArg List.sum (List.map_congr_left fun row hrow => ?_)
    have hrow := (List.mem_filter.1 hrow).2
    rw [Bool.and_eq_true, beq_iff_eq] at hrow
    exact heffect row hrow.2
  · -- a row that is not selected moves something else
    intro row _ hout
    rw [Function.comp_apply]
    by_cases htoken : row.token_id = token_id
    · rw [← heffect row htoken]
      simp only [htoken, beq_self_eq_true, Bool.and_true, Bool.or_eq_false_iff, beq_eq_false_iff_ne,
        ne_eq] at hout
      unfold signed LedgerTransfer.from_row
      simp only
      rw [if_neg hout.2, if_neg hout.1]
      rfl
    · have hend : ∀ party : Option String,
          party.map (fun h => (h, row.token_id)) ≠ some (holder, token_id) := by
        intro party hparty
        obtain ⟨_, -, hsame⟩ := Option.map_eq_some_iff.1 hparty
        exact htoken (Prod.ext_iff.1 hsame).2
      unfold Movement.effect LedgerEntryRow.movement
      rw [if_neg (hend _), if_neg (hend _)]
      rfl

/-- The query for the transfers of a holder in a token. -/
def account_query (limit : Option Int) (holder token_id : String) : LedgerPageQuery :=
  { limit, cursor := none, from_block := none, to_block := none, holder := some holder
    token_id := some token_id, movement_type := none }

/-- It selects the active entries of the token that move from or to the holder. -/
theorem account_query_selects {limit : Option Int} {holder token_id : String} {q : LedgerQuery}
    (hquery : (account_query limit holder token_id).to_ledger_query 50 = .ok q) (source_id : Uuid)
    (row : LedgerEntryRow) :
    q.selects source_id row = (row.source_id == source_id && !row.orphaned &&
      ((row.from_address == some (to_ascii_lowercase holder) ||
        row.to_address == some (to_ascii_lowercase holder)) && row.token_id == token_id)) := by
  unfold LedgerPageQuery.to_ledger_query account_query at hquery
  simp only [EvmIndexer.bind_eq_ok, bail_eq_ok] at hquery
  obtain ⟨_, -, -, -, -, cursor, hcursor, parsed, hparsed, movement_type, hmovement, hq⟩ := hquery
  cases hq
  cases hmovement
  -- the holder that was sent is an address, in lower case
  have hholder : ∃ address, parsed = some address ∧
      to_ascii_lowercase address = to_ascii_lowercase holder := by
    simp only [Option.mapM_some] at hparsed
    obtain ⟨found, hfound, hsome⟩ := map_eq_ok.1 hparsed
    refine ⟨found, hsome.symm, ?_⟩
    unfold normalize_evm_address at hfound
    simp only at hfound
    split at hfound
    · rw [bail_eq_ok] at hfound
      cases hfound.2
      exact to_ascii_lowercase_idem _
    · cases hfound
  obtain ⟨found, rfl, hlower⟩ := hholder
  unfold LedgerQuery.selects
  simp only [Option.all_none, Option.all_some, hlower, Bool.and_true, Bool.and_assoc]

/-- The holders endpoint answers with the first rows of the holders, as many as the limit. -/
theorem contract_holders_eq (haddress : normalize_contract_address contract_address = .ok address)
    (hsource : source_by_contract db chain_id address = some source) {limit : Option Int}
    {items : List HolderBalance}
    (hitems : contract_holders db chain_id contract_address limit = .ok items) :
    items = (top_holders_conn db source.id (limit.getD 50).toNat).map HolderBalance.from_row := by
  unfold contract_holders at hitems
  simp only [bind_eq_ok, checked_eq_ok, found_eq_ok, haddress, Except.ok.injEq,
    exists_eq_left'] at hitems
  obtain ⟨checked_limit, hlimit, hitems⟩ := hitems
  unfold limit_or_default at hlimit
  simp only [bail_eq_ok, not_not] at hlimit
  obtain ⟨hbounds, hlimit⟩ := hlimit
  cases hlimit
  unfold holders at hitems
  rw [hsource] at hitems
  cases hitems
  have hclamp : clamp_limit (limit.getD 50) = limit.getD 50 := by
    unfold clamp_limit
    omega
  rw [hclamp]

/-- What the holders endpoint shows of an account is its balance, and an account that is not
shown though there was room for more has none. -/
theorem contract_holders_show {parseAmount : AmountParser} (h : LedgerReachable parseAmount db)
    (haddress : normalize_contract_address contract_address = .ok address)
    (hsource : source_by_contract db chain_id address = some source) {limit : Option Int}
    {items : List HolderBalance}
    (hitems : contract_holders db chain_id contract_address limit = .ok items) :
    (∀ item ∈ items, 0 < item.balance ∧
      item.balance = db.balance source.id (item.holder_address, item.token_id)) ∧
      ∀ holder token_id, items.length < (limit.getD 50).toNat →
        (∀ item ∈ items, ¬ (item.holder_address = holder ∧ item.token_id = token_id)) →
        db.balance source.id (holder, token_id) = 0 := by
  obtain rfl := contract_holders_eq haddress hsource hitems
  have hlength := length_top_holders db source.id (limit.getD 50).toNat
  refine ⟨fun item hitem => ?_, fun holder token_id hroom hnone => ?_⟩
  · obtain ⟨row, hrow, rfl⟩ := List.mem_map.1 hitem
    obtain ⟨-, hpositive, hnet⟩ := shown_holder h hrow
    rw [← h.balanced] at hnet
    exact ⟨hpositive, hnet⟩
  · rw [List.length_map] at hroom
    by_contra hheld
    have hpositive : db.Holds source.id holder token_id := by
      unfold Db.Holds
      rw [← h.balanced]
      exact lt_of_le_of_ne (balance_nonneg db source.id _) (Ne.symm hheld)
    -- the list is not full, so every positive row is on it
    obtain ⟨row, hrow, haccount⟩ := exists_positive_row h.balanced hpositive
    have hall : (top_holders_conn db source.id (limit.getD 50).toNat).Perm
        (db.token_balances.rows.filter fun r =>
          r.source_id == source.id && decide (0 < r.balance)) := by
      rw [top_holders_eq]
      refine Ranking.top_perm ?_
      have hcount : holder_count_conn db source.id = (db.token_balances.rows.filter fun r =>
        r.source_id == source.id && decide (0 < r.balance)).length := rfl
      omega
    obtain ⟨hholder, htoken⟩ := Prod.ext_iff.1 haccount
    exact hnone _ (List.mem_map_of_mem (hall.mem_iff.2 hrow)) ⟨hholder, htoken⟩

/-- A client that adds up the transfers of a holder in a token, from however many answers, has
the holder's balance: it is what the holders endpoint shows for the account, and zero if it
does not show it while it has room. -/
theorem account_statement {parseAmount : AmountParser} (h : LedgerReachable parseAmount db)
    (haddress : normalize_contract_address contract_address = .ok address)
    (hsource : source_by_contract db chain_id address = some source)
    (hdistinct : DistinctPlaces db source.id) {limit : Option Int} {holder token_id : String}
    {pages : List (List LedgerTransfer)}
    (hpages : Follows (contract_transfers db chain_id contract_address)
      (account_query limit holder token_id) pages) {holders_limit : Option Int}
    {items : List HolderBalance}
    (hitems : contract_holders db chain_id contract_address holders_limit = .ok items) :
    let total := (pages.flatten.map (signed (to_ascii_lowercase holder))).sum
    (∀ item ∈ items, item.holder_address = to_ascii_lowercase holder → item.token_id = token_id →
      item.balance = total) ∧
    (items.length < (holders_limit.getD 50).toNat →
      (∀ item ∈ items, ¬ (item.holder_address = to_ascii_lowercase holder ∧
        item.token_id = token_id)) → total = 0) := by
  intro total
  rw [contract_transfers_eq haddress hsource] at hpages
  obtain ⟨ledger_query, hquery⟩ := hpages.accepted
  have htotal : total = db.balance source.id (to_ascii_lowercase holder, token_id) := by
    have hrows := (pages_of_delivers hdistinct .Desc none hquery rfl).items pages hpages
    have hperm := (List.perm_insertionSort LedgerSort.Desc.row_le
      (db.selected source.id (of_token none ledger_query))).map
        fun row => signed (to_ascii_lowercase holder) (LedgerTransfer.from_row row)
    have hsum : total = _ := congrArg (fun items : List LedgerTransfer =>
      (items.map (signed (to_ascii_lowercase holder))).sum) hrows
    rw [hsum, List.map_map, h.balanced, ← sum_signed_eq_net (account_query_selects hquery source.id)]
    exact hperm.sum_eq
  obtain ⟨hshow, hroom⟩ := contract_holders_show h haddress hsource hitems
  refine ⟨fun item hitem hholder htoken => ?_, fun hless hnone => ?_⟩
  · rw [htotal, (hshow item hitem).2, hholder, htoken]
  · rw [htotal]
    exact hroom _ _ hless hnone

/-! ## The path of a token

The path endpoint shows the rows of a token in the order of the chain. Where they hand on one
unit, each from whom the last gave it to, nobody but the last receiver can have a balance of
the token, and the last has one.
-/

/-- What a transfer moves, and between which accounts. -/
def movement (transfer : LedgerTransfer) : Movement Account :=
  { debited := transfer.from_address.map fun holder => (holder, transfer.token_id)
    credited := transfer.to_address.map fun holder => (holder, transfer.token_id)
    amount := transfer.amount }

/-- The query for all of a token's path. -/
def path_query (limit : Option Int) : LedgerPageQuery :=
  { limit, cursor := none, from_block := none, to_block := none, holder := none, token_id := none
    movement_type := none }

/-- With the token of the path, it selects all active entries of the token. -/
theorem path_query_selected {limit : Option Int} {token_id : String} {q : LedgerQuery}
    (hquery : (path_query limit).to_ledger_query 100 = .ok q) (db : Db) (source_id : Uuid) :
    db.selected source_id (of_token (some token_id) q)
      = (db.active_entries source_id).filter fun row => row.token_id == token_id := by
  unfold LedgerPageQuery.to_ledger_query path_query at hquery
  simp only [EvmIndexer.bind_eq_ok, bail_eq_ok] at hquery
  obtain ⟨_, -, -, -, -, cursor, hcursor, parsed, hholder, movement_type, hmovement, hq⟩ := hquery
  cases hq
  cases hmovement
  cases hholder
  unfold Db.selected Db.active_entries
  rw [List.filter_filter]
  refine List.filter_congr fun row _ => ?_
  unfold LedgerQuery.selects of_token
  simp only [Option.all_none, Option.all_some, Bool.and_true]
  exact Bool.and_comm _ _

/-- Where the path of a token hands one unit on, each transfer from whom the one before went
to, the last to get it is the one holder of the token: the balance is one there and zero
elsewhere, and the holders endpoint shows the token with nobody else. -/
theorem token_path_ends_with_holder {parseAmount : AmountParser}
    (h : LedgerReachable parseAmount db)
    (haddress : normalize_contract_address contract_address = .ok address)
    (hsource : source_by_contract db chain_id address = some source)
    (hdistinct : DistinctPlaces db source.id) {limit : Option Int} {token_id : String}
    {pages : List (List LedgerTransfer)}
    (hpages : Follows (token_path db chain_id contract_address token_id) (path_query limit) pages)
    (hhanded : Handed 1 none (pages.flatten.map movement)) :
    (∀ holder, db.balance source.id (holder, token_id)
      = if pages.flatten.getLast?.bind (·.to_address) = some holder then 1 else 0) ∧
    ∀ holders_limit items, contract_holders db chain_id contract_address holders_limit = .ok items →
      ∀ item ∈ items, item.token_id = token_id →
        pages.flatten.getLast?.bind (·.to_address) = some item.holder_address ∧ item.balance = 1 := by
  rw [token_path_eq haddress hsource] at hpages
  obtain ⟨ledger_query, hquery⟩ := hpages.accepted
  -- the answers show the active entries of the token in the order of the chain
  have hrows := (pages_of_delivers hdistinct .Asc (some token_id) hquery rfl).items pages hpages
  rw [path_query_selected hquery] at hrows
  have hperm := List.perm_insertionSort LedgerSort.Asc.row_le
    ((db.active_entries source.id).filter fun row => row.token_id == token_id)
  have hbalance : ∀ holder, db.balance source.id (holder, token_id)
      = if pages.flatten.getLast?.bind (·.to_address) = some holder then 1 else 0 := by
    intro holder
    rw [hrows, List.map_map] at hhanded
    rw [path_ends_with_holder h hperm hhanded, hrows, List.getLast?_map]
    cases (List.insertionSort LedgerSort.Asc.row_le
      ((db.active_entries source.id).filter fun row => row.token_id == token_id)).getLast? <;> rfl
  refine ⟨hbalance, fun holders_limit items hitems item hitem htoken => ?_⟩
  obtain ⟨hpositive, hshown⟩ := (contract_holders_show h haddress hsource hitems).1 item hitem
  rw [htoken, hbalance] at hshown
  by_cases hlast : pages.flatten.getLast?.bind (·.to_address) = some item.holder_address
  · rw [if_pos hlast] at hshown
    exact ⟨hlast, hshown⟩
  · rw [if_neg hlast] at hshown
    omega

end Clients

/-! ## A small collection -/

/-- The calls that store a token minted to alice and passed on to bob. -/
def passing_on : List LedgerOp :=
  small_ledger (mint_then_transfer.map fun log => (log.1, { log.2 with
    entries := log.2.entries.map fun entry => { entry with token_id := "7", amount := "1" } }))

/-- The token as it is stored. -/
def passed_on : Db := passing_on.foldl (LedgerOp.commit plain_digits) Db.empty

theorem passed_on_reachable : LedgerReachable plain_digits passed_on :=
  LedgerReachable.empty.commits _

theorem passed_on_distinctPlaces : DistinctPlaces passed_on 0 := by
  have hrun : Run (Guarded (LedgerStep plain_digits) fun db op =>
      OneChainStep op ∧ StepInPlace db op ∧ StepUnobstructed db op) Db.empty passing_on passed_on :=
    run_of_allowed (by decide +kernel)
  exact (in_place_run hrun fun _ => List.nodup_nil).1 0

theorem passed_on_address :
    normalize_contract_address small_source.contract_address = .ok small_source.contract_address := by
  decide +kernel

/-- The queries for one row at a time, as the endpoints read them. -/
theorem one_row_queries :
    one_by_one.to_ledger_query 50 = .ok (one_row_from none) ∧
    (account_query (some 1) bob "7").to_ledger_query 50
      = .ok { one_row_from none with holder := some bob, token_id := some "7" } ∧
    (path_query (some 1)).to_ledger_query 100 = .ok (one_row_from none) ∧
    to_ascii_lowercase bob = bob := by
  decide +kernel

/-- What the holders endpoint shows of it. -/
def bob_alone : List HolderBalance :=
  [{ holder_address := bob, token_id := "7", balance := 1, first_received_block := some 2
     last_moved_block := some 2 }]

/-- What it has, evaluated in one go. -/
theorem passed_on_evaluates :
    source_by_contract passed_on 1 small_source.contract_address = some small_source ∧
    contract_holders passed_on 1 small_source.contract_address none = .ok bob_alone ∧
    (passed_on.selected 0 (one_row_from none)).length = 2 ∧
    Handed 1 none (((((passed_on.selected 0 (of_token (some "7") (one_row_from none))).insertionSort
      LedgerSort.Asc.row_le).map LedgerTransfer.from_row).map movement)) := by
  decide +kernel

theorem followed_pages_are_the_selection_passed_on :
    ∃ pages, Follows (contract_transfers passed_on 1 small_source.contract_address)
        one_by_one pages ∧ pages.length = 2 := by
  have hdistinct := passed_on_distinctPlaces
  obtain ⟨hsource, -, hcount, -⟩ := passed_on_evaluates
  have hcursor : one_by_one.cursor = none := rfl
  obtain ⟨htransfers, -⟩ :=
    followed_pages_are_the_selection passed_on_address hsource hdistinct hcursor
  have hdelivers := htransfers (one_row_from none) one_row_queries.1
  obtain ⟨pages, hpages⟩ := hdelivers.ends
  refine ⟨pages, hpages, ?_⟩
  rw [hdelivers.answers pages hpages, List.length_insertionSort,
    show small_source.id = 0 from rfl, hcount]
  rfl

theorem account_statement_passed_on :
    ∃ pages, Follows (contract_transfers passed_on 1 small_source.contract_address)
        (account_query (some 1) bob "7") pages ∧
      (pages.flatten.map (signed bob)).sum = 1 := by
  have hdistinct := passed_on_distinctPlaces
  obtain ⟨hsource, hholders, -⟩ := passed_on_evaluates
  obtain ⟨-, hquery, -, hlower⟩ := one_row_queries
  have hfetch := contract_transfers_eq passed_on_address hsource
  rw [show small_source.id = 0 from rfl] at hfetch
  obtain ⟨pages, hpages⟩ := (pages_of_delivers hdistinct .Desc none hquery rfl).ends
  rw [← hfetch] at hpages
  obtain ⟨hshown, -⟩ := account_statement passed_on_reachable passed_on_address hsource hdistinct
    hpages hholders
  rw [hlower] at hshown
  exact ⟨pages, hpages, (hshown _ (List.mem_singleton.2 rfl) rfl rfl).symm⟩

theorem token_path_ends_with_holder_passed_on :
    ∃ pages, Follows (token_path passed_on 1 small_source.contract_address "7")
        (path_query (some 1)) pages ∧
      pages.flatten.getLast?.bind (·.to_address) = some bob := by
  have hdistinct := passed_on_distinctPlaces
  obtain ⟨hsource, hholders, -, hhanded⟩ := passed_on_evaluates
  obtain ⟨-, -, hquery, -⟩ := one_row_queries
  have hfetch := token_path_eq passed_on_address hsource "7"
  rw [show small_source.id = 0 from rfl] at hfetch
  have hdelivers := pages_of_delivers hdistinct .Asc (some "7") hquery rfl
  obtain ⟨pages, hpages⟩ := hdelivers.ends
  rw [← hdelivers.items pages hpages] at hhanded
  rw [← hfetch] at hpages
  obtain ⟨-, hshown⟩ := token_path_ends_with_holder passed_on_reachable passed_on_address hsource
    hdistinct hpages hhanded
  exact ⟨pages, hpages, (hshown none bob_alone hholders _ (List.mem_singleton.2 rfl) rfl).1⟩

end Api

end EvmIndexer
