/-
The pages of `ledger_page_conn`, and the walk a client makes through them.

A request carries its filters as text and, after the first, the cursor the last
response ended with. `to_ledger_query` checks them and `ledger_page_rows` selects,
sorts and cuts; its cursor comparison is spelled out column by column, once for
each direction (`LedgerCursor.precedes`), and `precedes_iff` says that it is the
order of the places of rows. With that a walk is a walk of the keyset library over
the rows the filters select (`PageWalk.keyset`).

Between two requests any rows may be inserted, orphaned, restored or rewritten, as
long as a row stays at its place (`KeepsPlaces`). However many ingests and replays
commit meanwhile, it does (`run_keepsPlaces`).
-/
import EvmIndexer.Replay
import EvmIndexer.Lib.Keyset
import Mathlib.Data.Prod.Lex

set_option autoImplicit false

namespace EvmIndexer

open Sql Transition

/-! ## Requests

A request is checked parameter by parameter, in the order of the code, and the first that
fails is the error. What is left is a query for the repository, with a limit between 1 and
100 and the cursor as three numbers.
-/

/-- `LedgerCursor`. -/
structure LedgerCursor where
  block_number : Int
  log_index : Int
  batch_index : Int
  deriving DecidableEq, Repr

/-- `LedgerQuery`. -/
structure LedgerQuery where
  limit : Int
  cursor : Option LedgerCursor
  from_block : Option Int
  to_block : Option Int
  holder : Option String
  token_id : Option String
  movement_type : Option String
  deriving DecidableEq, Repr

/-- `LedgerPageQuery`: the parameters of a request. -/
structure LedgerPageQuery where
  limit : Option Int
  cursor : Option String
  from_block : Option Int
  to_block : Option Int
  holder : Option String
  token_id : Option String
  movement_type : Option String
  deriving DecidableEq, Repr

/-- `encode_cursor`. -/
def encode_cursor (cursor : LedgerCursor) : String :=
  toString cursor.block_number ++ ":" ++ toString cursor.log_index ++ ":" ++
    toString cursor.batch_index

/-- `parse_cursor`. -/
def parse_cursor (value : String) : Result LedgerCursor :=
  match value.toList.splitOn ':' with
  | [block_number, log_index, batch_index] =>
    match parse_signed (2 ^ 63) block_number, parse_signed (2 ^ 31) log_index,
        parse_signed (2 ^ 31) batch_index with
    | some block_number, some log_index, some batch_index =>
      if block_number < 0 ∨ log_index < 0 ∨ batch_index < 0 then .error "invalid cursor"
      else .ok { block_number, log_index, batch_index }
    | _, _, _ => .error "invalid cursor"
  | _ => .error "invalid cursor"

/-- `LimitQuery::limit_or_default`. -/
def limit_or_default (limit : Option Int) (default : Int) : Result Int :=
  let limit := limit.getD default
  if ¬ (1 ≤ limit ∧ limit ≤ 100) then .error "limit must be between 1 and 100" else .ok limit

/-- `normalize_evm_address`. -/
def normalize_evm_address (value field : String) : Result String :=
  let normalized := to_ascii_lowercase value
  match normalized.toList with
  | '0' :: 'x' :: digits =>
    if digits.length ≠ 40 ∨ ¬ digits.all (fun c => (hex_digit c).isSome) then
      .error ("invalid EVM " ++ field ++ " address")
    else .ok normalized
  | _ => .error ("invalid EVM " ++ field ++ " address")

/-- `normalize_movement_type`. -/
def normalize_movement_type (value : String) : Result String :=
  let value := to_ascii_lowercase value
  if ¬ (value = "mint" ∨ value = "transfer" ∨ value = "burn") then
    .error "movement_type must be mint, transfer, or burn"
  else .ok value

/-- `LedgerPageQuery::to_ledger_query`. -/
def LedgerPageQuery.to_ledger_query (query : LedgerPageQuery) (default_limit : Int) :
    Result LedgerQuery := do
  let limit ← limit_or_default query.limit default_limit
  if query.from_block.any fun from_block => decide (from_block < 0) then
    .error "from_block cannot be negative"
  else if query.to_block.any fun to_block => decide (to_block < 0) then
    .error "to_block cannot be negative"
  else if query.from_block.any fun from_block =>
      query.to_block.any fun to_block => decide (to_block < from_block) then
    .error "from_block cannot be greater than to_block"
  else
    let cursor ← query.cursor.mapM parse_cursor
    let holder ← query.holder.mapM fun holder => normalize_evm_address holder "holder"
    let movement_type ← query.movement_type.mapM normalize_movement_type
    .ok
      { limit
        cursor
        from_block := query.from_block
        to_block := query.to_block
        holder
        token_id := query.token_id
        movement_type }

/-! ## Pages

The query selects, sorts and loads one row more than the limit. The cursor is made from the
last row that is shown, if one more was loaded.
-/

/-- `LedgerSort`. -/
inductive LedgerSort
  | Asc
  | Desc
  deriving DecidableEq, Repr

/-- `LedgerPage`. -/
structure LedgerPage (α : Type) where
  items : List α
  next_cursor : Option LedgerCursor

/-- `LedgerTransfer`, with the amount as a number. -/
structure LedgerTransfer where
  movement_type : MovementType
  operator_address : Option String
  from_address : Option String
  to_address : Option String
  token_id : String
  amount : Int
  block_number : Int
  block_timestamp : Option Timestamp
  transaction_hash : String
  transaction_index : Option Int
  log_index : Int
  batch_index : Int
  deriving DecidableEq, Repr

/-- `LedgerTransfer::from`. -/
def LedgerTransfer.from_row (row : LedgerEntryRow) : LedgerTransfer :=
  { movement_type := row.movement_type
    operator_address := row.operator_address
    from_address := row.from_address
    to_address := row.to_address
    token_id := row.token_id
    amount := row.amount
    block_number := row.block_number
    block_timestamp := row.block_timestamp
    transaction_hash := row.transaction_hash
    transaction_index := row.transaction_index
    log_index := row.log_index
    batch_index := row.batch_index }

/-- `LedgerCursor::from`. -/
def LedgerCursor.from_row (row : LedgerEntryRow) : LedgerCursor :=
  { block_number := row.block_number, log_index := row.log_index, batch_index := row.batch_index }

/-- `clamp_limit`. -/
def clamp_limit (limit : Int) : Int := max 1 (min limit 100)

/-- The filters of `ledger_page_conn` but for the cursor. A `NULL` address is equal
to no holder. -/
def LedgerQuery.selects (source_id : Uuid) (query : LedgerQuery) (row : LedgerEntryRow) : Bool :=
  row.source_id == source_id && !row.orphaned &&
  query.from_block.all (fun from_block => decide (from_block ≤ row.block_number)) &&
  query.to_block.all (fun to_block => decide (row.block_number ≤ to_block)) &&
  query.holder.all (fun holder => row.from_address == some (to_ascii_lowercase holder) ||
    row.to_address == some (to_ascii_lowercase holder)) &&
  query.token_id.all (fun token_id => row.token_id == token_id) &&
  query.movement_type.all (fun movement_type =>
    row.movement_type.as_str == to_ascii_lowercase movement_type)

/-- The cursor filter of `ledger_page_conn`, for each direction. -/
def LedgerCursor.precedes (sort : LedgerSort) (cursor : LedgerCursor) (row : LedgerEntryRow) : Bool :=
  match sort with
  | .Asc =>
    decide (cursor.block_number < row.block_number) ||
    (row.block_number == cursor.block_number && decide (cursor.log_index < row.log_index)) ||
    (row.block_number == cursor.block_number && row.log_index == cursor.log_index &&
      decide (cursor.batch_index < row.batch_index))
  | .Desc =>
    decide (row.block_number < cursor.block_number) ||
    (row.block_number == cursor.block_number && decide (row.log_index < cursor.log_index)) ||
    (row.block_number == cursor.block_number && row.log_index == cursor.log_index &&
      decide (row.batch_index < cursor.batch_index))

/-- The `ORDER BY` of `ledger_page_conn`, for each direction. -/
def LedgerSort.row_le (sort : LedgerSort) (a b : LedgerEntryRow) : Prop :=
  match sort with
  | .Asc => a.chain_le b
  | .Desc => b.chain_le a

instance (sort : LedgerSort) : DecidableRel sort.row_le := fun a b =>
  match sort with
  | .Asc => inferInstanceAs (Decidable (a.chain_le b))
  | .Desc => inferInstanceAs (Decidable (b.chain_le a))

/-- The rows `ledger_page_conn` loads and keeps, and its cursor. -/
def ledger_page_rows (db : Db) (source_id : Uuid) (query : LedgerQuery) (sort : LedgerSort) :
    LedgerPage LedgerEntryRow :=
  let db_query := db.ledger_entries.rows.filter fun row =>
    query.selects source_id row && query.cursor.all fun cursor => cursor.precedes sort row
  let limit := (clamp_limit query.limit).toNat
  let rows := (db_query.insertionSort sort.row_le).take (limit + 1)
  if limit < rows.length then
    let rows := rows.take limit
    { items := rows, next_cursor := rows.getLast?.map LedgerCursor.from_row }
  else { items := rows, next_cursor := none }

/-- `ledger_page_conn`. -/
def ledger_page_conn (db : Db) (source_id : Uuid) (query : LedgerQuery) (sort : LedgerSort) :
    LedgerPage LedgerTransfer :=
  let page := ledger_page_rows db source_id query sort
  { items := page.items.map LedgerTransfer.from_row, next_cursor := page.next_cursor }

/-! ## The place of a row

The query compares three columns one after the other, in either direction. As a comparison of
triples it is one order, and the descending direction is the ascending one of the negated
columns.
-/

/-- Where a row stands in the chain: block, log and batch index, in this order. -/
def LedgerEntryRow.place (row : LedgerEntryRow) : ℤ ×ₗ ℤ ×ₗ ℤ :=
  toLex (row.block_number, toLex (row.log_index, row.batch_index))

/-- The row comes strictly before another in a direction. -/
def LedgerSort.before (sort : LedgerSort) (a b : LedgerEntryRow) : Prop :=
  match sort with
  | .Asc => a.place < b.place
  | .Desc => b.place < a.place

/-- A place as a key that ascends in the direction of the sort. -/
def LedgerSort.key_at (sort : LedgerSort) (cursor : LedgerCursor) : ℤ ×ₗ ℤ ×ₗ ℤ :=
  match sort with
  | .Asc => toLex (cursor.block_number, toLex (cursor.log_index, cursor.batch_index))
  | .Desc => toLex (-cursor.block_number, toLex (-cursor.log_index, -cursor.batch_index))

/-- The key of a row in the direction of the sort. -/
def LedgerSort.key (sort : LedgerSort) (row : LedgerEntryRow) : ℤ ×ₗ ℤ ×ₗ ℤ :=
  sort.key_at (LedgerCursor.from_row row)

theorem lex_lt_iff {a b c d e f : ℤ} :
    (toLex (a, toLex (b, c)) : ℤ ×ₗ ℤ ×ₗ ℤ) < toLex (d, toLex (e, f)) ↔
      a < d ∨ (a = d ∧ (b < e ∨ (b = e ∧ c < f))) := by
  rw [Prod.Lex.toLex_lt_toLex, Prod.Lex.toLex_lt_toLex]

/-- The comparison the query spells out is the order of the keys. -/
theorem precedes_iff {sort : LedgerSort} {cursor : LedgerCursor} {row : LedgerEntryRow} :
    cursor.precedes sort row = true ↔ sort.key_at cursor < sort.key row := by
  unfold LedgerSort.key
  cases sort with
  | Asc =>
    simp only [LedgerSort.key_at, LedgerCursor.from_row, lex_lt_iff, LedgerCursor.precedes,
      Bool.or_eq_true, Bool.and_eq_true, decide_eq_true_eq, beq_iff_eq]
    omega
  | Desc =>
    simp only [LedgerSort.key_at, LedgerCursor.from_row, lex_lt_iff, LedgerCursor.precedes,
      Bool.or_eq_true, Bool.and_eq_true, decide_eq_true_eq, beq_iff_eq]
    omega

/-- So is the order of the rows. -/
theorem row_le_iff {sort : LedgerSort} {a b : LedgerEntryRow} :
    sort.row_le a b ↔ sort.key a ≤ sort.key b := by
  rw [← not_lt]
  unfold LedgerSort.key
  cases sort with
  | Asc =>
    simp only [LedgerSort.key_at, LedgerCursor.from_row, lex_lt_iff, LedgerSort.row_le,
      LedgerEntryRow.chain_le]
    omega
  | Desc =>
    simp only [LedgerSort.key_at, LedgerCursor.from_row, lex_lt_iff, LedgerSort.row_le,
      LedgerEntryRow.chain_le]
    omega

theorem before_iff {sort : LedgerSort} {a b : LedgerEntryRow} :
    sort.before a b ↔ sort.key a < sort.key b := by
  unfold LedgerSort.key
  cases sort with
  | Asc => exact Iff.rfl
  | Desc =>
    simp only [LedgerSort.before, LedgerEntryRow.place, LedgerSort.key_at, LedgerCursor.from_row,
      lex_lt_iff]
    omega

/-- Rows with one key are at one place. -/
theorem place_eq_of_key {sort : LedgerSort} {a b : LedgerEntryRow} (h : sort.key a = sort.key b) :
    a.place = b.place := by
  unfold LedgerSort.key at h
  cases sort with
  | Asc => exact h
  | Desc =>
    simp only [LedgerSort.key_at, LedgerCursor.from_row, toLex_inj, Prod.mk.injEq, neg_inj] at h
    obtain ⟨hblock, hlog, hbatch⟩ := h
    unfold LedgerEntryRow.place
    rw [hblock, hlog, hbatch]

/-! ## A page is a keyset page

With the order known, the statement of the code and the page of the library are the same
function of the rows that the filters select.
-/

/-- The rows the filters of a query select. -/
def Db.selected (db : Db) (source_id : Uuid) (query : LedgerQuery) : List LedgerEntryRow :=
  db.ledger_entries.rows.filter (query.selects source_id)

/-- `ledger_page_conn` cuts a keyset page from the selected rows. It asks for one row more
than the page has, and a cursor is given just if that row is there. -/
theorem ledger_page_rows_eq (db : Db) (source_id : Uuid) (query : LedgerQuery) (sort : LedgerSort) :
    let page := Keyset.page sort.key (clamp_limit query.limit).toNat (query.cursor.map sort.key_at)
      (db.selected source_id query)
    (ledger_page_rows db source_id query sort).items = page.1 ∧
      (ledger_page_rows db source_id query sort).next_cursor.map sort.key_at = page.2 := by
  -- the query filters and orders by the key, so it selects the rows past the cursor
  have hpast : (db.ledger_entries.rows.filter fun row => query.selects source_id row &&
        query.cursor.all fun cursor => cursor.precedes sort row).insertionSort sort.row_le
      = Keyset.past sort.key (query.cursor.map sort.key_at) (db.selected source_id query) := by
    unfold Keyset.past Db.selected
    rw [List.filter_filter]
    have hfilter : (fun row => query.selects source_id row &&
          query.cursor.all fun cursor => cursor.precedes sort row)
        = fun row => ((query.cursor.map sort.key_at).all fun c => decide (c < sort.key row)) &&
          query.selects source_id row := by
      funext row
      rw [Bool.and_comm]
      cases query.cursor with
      | none => rfl
      | some cursor =>
        rw [Option.all_some, Option.map_some, Option.all_some]
        congr 1
        exact Bool.eq_iff_iff.2 (precedes_iff.trans decide_eq_true_iff.symm)
    rw [hfilter]
    -- the two orders agree
    have hle : sort.row_le = fun a b => sort.key a ≤ sort.key b := by
      funext a b
      exact propext row_le_iff
    congr 1
  unfold ledger_page_rows Keyset.page
  simp only [hpast]
  split
  · refine ⟨rfl, ?_⟩
    rw [Option.map_map]
    rfl
  · exact ⟨rfl, rfl⟩

/-- The cursor of a page is that of a row it read. -/
theorem exists_row_of_cursor {db : Db} {source_id : Uuid} {query : LedgerQuery} {sort : LedgerSort}
    {cursor : LedgerCursor}
    (h : (ledger_page_rows db source_id query sort).next_cursor = some cursor) :
    ∃ row ∈ db.ledger_entries.rows, cursor = LedgerCursor.from_row row := by
  unfold ledger_page_rows at h
  simp only at h
  split at h
  · obtain ⟨row, hrow, hcursor⟩ := Option.map_eq_some_iff.1 h
    have hmem := List.mem_of_mem_take (List.mem_of_mem_take (List.mem_of_getLast? hrow))
    exact ⟨row, (List.mem_filter.1 ((List.mem_insertionSort _).1 hmem)).1, hcursor.symm⟩
  · cases h

/-- A page shows rows of the table. -/
theorem mem_of_page_row {db : Db} {source_id : Uuid} {query : LedgerQuery} {sort : LedgerSort}
    {row : LedgerEntryRow} (h : row ∈ (ledger_page_rows db source_id query sort).items) :
    row ∈ db.ledger_entries.rows := by
  rw [(ledger_page_rows_eq db source_id query sort).1] at h
  exact (List.mem_filter.1 (Keyset.mem_past.1 (Keyset.page_subset h)).1).1

/-! ## The cursor as text

A cursor is written as three decimal numbers with colons between and is read back from them.
The blocks and indexes of stored rows are not negative and fit their columns, so every cursor
the server gives out is one it accepts.
-/

/-- The three numbers of a cursor are read back from its text. -/
theorem parse_encode_cursor {block_number log_index batch_index : ℕ}
    (hblock : block_number < 2 ^ 63) (hlog : log_index < 2 ^ 31) (hbatch : batch_index < 2 ^ 31) :
    parse_cursor (encode_cursor
        { block_number := block_number, log_index := log_index, batch_index := batch_index })
      = .ok { block_number := block_number, log_index := log_index, batch_index := batch_index } := by
  -- the text is three numbers and two colons, and no number has a colon
  have htext : (encode_cursor
        { block_number := block_number, log_index := log_index, batch_index := batch_index }).toList
      = [':'].intercalate [(toString block_number).toList, (toString log_index).toList,
          (toString batch_index).toList] := by
    have hnat : ∀ n : ℕ, toString (n : ℤ) = toString n := fun _ => rfl
    unfold encode_cursor
    simp only [hnat, String.toList_append]
    generalize (toString block_number).toList = b, (toString log_index).toList = l,
      (toString batch_index).toList = i
    simp
  have hsplit : (encode_cursor
        { block_number := block_number, log_index := log_index, batch_index := batch_index }).toList.splitOn ':'
      = [(toString block_number).toList, (toString log_index).toList,
          (toString batch_index).toList] := by
    rw [htext]
    refine List.splitOn_intercalate ':' ?_ (List.cons_ne_nil _ _)
    intro l hl
    simp only [List.mem_cons, List.not_mem_nil, or_false] at hl
    rcases hl with rfl | rfl | rfl <;> exact colon_not_mem_toString _
  unfold parse_cursor
  rw [hsplit]
  simp only [parse_signed_toString hblock, parse_signed_toString hlog, parse_signed_toString hbatch]
  rw [if_neg]
  omega

/-- The cursor of a stored row survives the trip through its text. -/
theorem parse_encode_cursor_of_row {db : Db} {row : LedgerEntryRow}
    (hrow : row ∈ db.ledger_entries.rows) :
    parse_cursor (encode_cursor (LedgerCursor.from_row row)) = .ok (LedgerCursor.from_row row) := by
  have hcheck := db.ledger_entries.checked row hrow
  obtain ⟨-, -, -, hbatch, hblock, hlog, -, -, hblock_lt, hlog_lt, hbatch_lt⟩ := hcheck
  obtain ⟨block_number, hb⟩ := Int.eq_ofNat_of_zero_le hblock
  obtain ⟨log_index, hl⟩ := Int.eq_ofNat_of_zero_le hlog
  obtain ⟨batch_index, hi⟩ := Int.eq_ofNat_of_zero_le hbatch
  unfold LedgerCursor.from_row
  rw [hb, hl, hi]
  rw [hb] at hblock_lt
  rw [hl] at hlog_lt
  rw [hi] at hbatch_lt
  exact parse_encode_cursor (by exact_mod_cast hblock_lt) (by exact_mod_cast hlog_lt)
    (by exact_mod_cast hbatch_lt)

/-- The request that follows a cursor asks for the same rows, past the cursor. -/
theorem to_ledger_query_with_cursor {query : LedgerPageQuery} {default_limit : Int}
    {ledger_query : LedgerQuery} (hquery : query.to_ledger_query default_limit = .ok ledger_query)
    {value : String} {cursor : LedgerCursor} (hcursor : parse_cursor value = .ok cursor) :
    LedgerPageQuery.to_ledger_query { query with cursor := some value } default_limit
      = .ok { ledger_query with cursor := some cursor } := by
  unfold LedgerPageQuery.to_ledger_query at hquery ⊢
  simp only [bind_eq_ok, bail_eq_ok] at hquery ⊢
  obtain ⟨limit, hlimit, hfrom, hto, hrange, _, -, holder, hholder, movement_type, hmovement, hq⟩ :=
    hquery
  have hmap : Option.mapM parse_cursor (some value) = .ok (some cursor) := by
    simp only [Option.mapM_some, hcursor]
    rfl
  refine ⟨limit, hlimit, hfrom, hto, hrange, some cursor, hmap, holder, hholder, movement_type,
    hmovement, ?_⟩
  cases hq
  rfl

/-! ## Between two requests

The server holds nothing between two requests of a client: the cursor is the place of the
last row it was shown, and the next page starts behind that place in whatever the table
has become. Rows that came, went or were restored meanwhile are shown or not, as it falls.
What must not happen is that a row moves past the cursor. The upsert of a persist leaves
the place columns of the row it conflicts with as they are, and an orphaning sets the
flag only. A repair of the metadata does write the block number, so it is no such call.
-/

/-- Rows may come, and rows may change, but a row stays at its place: each row of the
first database is in the second under its id, at the block number, log index and batch
index it had. -/
def KeepsPlaces (db db' : Db) : Prop :=
  ∀ row ∈ db.ledger_entries.rows, ∃ row' ∈ db'.ledger_entries.rows,
    row'.id = row.id ∧ row'.place = row.place

theorem KeepsPlaces.refl (db : Db) : KeepsPlaces db db := fun row hrow => ⟨row, hrow, rfl, rfl⟩

theorem KeepsPlaces.trans {a b c : Db} (h : KeepsPlaces a b) (k : KeepsPlaces b c) :
    KeepsPlaces a c := by
  intro row hrow
  obtain ⟨row', hrow', hid, hplace⟩ := h row hrow
  obtain ⟨row'', hrow'', hid', hplace'⟩ := k row' hrow'
  exact ⟨row'', hrow'', hid'.trans hid, hplace'.trans hplace⟩

/-- A row that is still there is at the place it was. -/
theorem KeepsPlaces.place_eq {db db' : Db} (h : KeepsPlaces db db') {row row' : LedgerEntryRow}
    (hrow : row ∈ db.ledger_entries.rows) (hrow' : row' ∈ db'.ledger_entries.rows)
    (hid : row'.id = row.id) : row'.place = row.place := by
  obtain ⟨kept, hkept, hkept_id, hplace⟩ := h row hrow
  rw [db'.ledger_entries.eq_of_clash hrow' hkept (Or.inl (hid.trans hkept_id.symm))]
  exact hplace

theorem stored_place (options : PersistDecodedLogsOptions) (values old : LedgerEntryRow) :
    (values.stored options old).id = old.id ∧ (values.stored options old).place = old.place := by
  unfold LedgerEntryRow.stored
  split <;> exact ⟨rfl, rfl⟩

/-- Persisting logs inserts rows and rewrites columns of others, but moves none. -/
theorem persist_decoded_logs_keepsPlaces {parseAmount : AmountParser} {db db' : Db}
    {source : SourceRef} {options : PersistDecodedLogsOptions} {logs : List (RpcLog × DecodedLog)}
    {summary : ScanSummary}
    (h : persist_decoded_logs_with_options parseAmount db source logs options
      = .ok (summary, db')) : KeepsPlaces db db' := by
  obtain ⟨vs, -, -, hstored⟩ := persist_decoded_logs_rows h
  intro row hrow
  generalize db.ledger_entries.rows = rows at hstored hrow
  generalize db'.ledger_entries.rows = rows' at hstored
  induction hstored generalizing row with
  | nil => exact ⟨row, hrow, rfl, rfl⟩
  | @cons rows vs rows' values _ _ ih =>
    -- one upsert: the row stays as it is, or is the one the entry rewrites
    obtain ⟨next, hnext, hid, hplace⟩ : ∃ next ∈ store_entry options rows values,
        next.id = row.id ∧ next.place = row.place := by
      unfold store_entry
      cases hfind : rows.find? values.same_entry with
      | none => exact ⟨row, List.mem_append_left _ hrow, rfl, rfl⟩
      | some old =>
        have hold := List.mem_of_find?_eq_some hfind
        by_cases hrow_old : row = old
        · rw [hrow_old]
          exact ⟨_, (mem_replaceRow hold).2 (Or.inl rfl), stored_place options values old⟩
        · exact ⟨row, (mem_replaceRow hold).2 (Or.inr ⟨hrow, hrow_old⟩), rfl, rfl⟩
    obtain ⟨last, hlast, hlast_id, hlast_place⟩ := ih next hnext
    exact ⟨last, hlast, hlast_id.trans hid, hlast_place.trans hplace⟩

/-- Orphaning a range moves no row. -/
theorem orphan_source_range_keepsPlaces {db db' : Db} {source : SourceRow} {from_block to_block : Int}
    {summary : OrphanRangeSummary}
    (h : orphan_source_range db source from_block to_block = .ok (summary, db')) :
    KeepsPlaces db db' := by
  obtain ⟨mid, -, -, hrows, -⟩ := orphan_source_range_spec h
  intro row hrow
  exact ⟨_, hrows ▸ List.mem_map_of_mem hrow,
    Table.setRow_keeps LedgerEntryRow.id _ row,
    Table.setRow_keeps LedgerEntryRow.place _ row⟩

theorem KeepsPlaces.of_sameRows {a b : Db} (h : a.SameRows b) : KeepsPlaces a b :=
  fun row hrow => ⟨row, h.ledger_entries.mem_iff.1 hrow, rfl, rfl⟩

/-- The calls of ingests and replays. What is left is the repair of the metadata, which
may take a row to another block. -/
def LedgerOp.moves_no_row : LedgerOp → Bool
  | .update_log_metadata _ _ => false
  | _ => true

theorem LedgerOp.apply_keepsPlaces {parseAmount : AmountParser} {db db' : Db} {op : LedgerOp}
    (hop : op.moves_no_row = true) (h : op.apply parseAmount db = .ok db') : KeepsPlaces db db' := by
  cases op with
  | ensure_source chain_id name contract_address standard start_block =>
    obtain ⟨row, hrow⟩ := map_snd_eq_ok.1 h
    rw [ensure_source_frame hrow]
    exact KeepsPlaces.refl db
  | persist_decoded_logs_with_options source logs options =>
    obtain ⟨summary, hsummary⟩ := map_snd_eq_ok.1 h
    exact persist_decoded_logs_keepsPlaces hsummary
  | orphan_source_range source from_block to_block =>
    obtain ⟨summary, hsummary⟩ := map_snd_eq_ok.1 h
    exact orphan_source_range_keepsPlaces hsummary
  | update_log_metadata source log => exact absurd hop Bool.false_ne_true

/-- However many ingests and replays commit, or fail and are rolled back, every row stays
at its place. -/
theorem run_keepsPlaces {parseAmount : AmountParser} {ops : List LedgerOp} {db db' : Db}
    (h : Run (Guarded (LedgerStep parseAmount) fun _ op => op.moves_no_row = true) db ops db') :
    KeepsPlaces db db' := by
  refine guarded_ledger_invariant (I := KeepsPlaces db) ?_ ?_ h (KeepsPlaces.refl db)
  · exact fun _ _ _ hs hop hok => hs.trans (LedgerOp.apply_keepsPlaces hop hok)
  · exact fun _ _ hs hsame => hs.trans (KeepsPlaces.of_sameRows hsame)

/-! ## Walks

A walk is what a client makes: it sends its request, takes the cursor of the response into
the next one, and stops when a response has none. Each request may meet another database.
Two facts about the columns carry the walk over to the pages of the keyset library: the
cursor of a response is the place of its last row, and its text is read back as it was
written. That no row is shown twice needs more than strictly ascending places, since a row
could be shown, move ahead of the cursor and be shown again; this is where `KeepsPlaces`
enters.
-/

/-- The active rows of a source are at different places. Two rows at one place would be
one row to the cursor, and the page that ends with the first would hide the second. -/
def DistinctPlaces (db : Db) (source_id : Uuid) : Prop :=
  ((db.active_entries source_id).map (·.place)).Nodup

/-- What the filters select is active, so active rows at different places give it different
keys. -/
theorem selected_keys_nodup {db : Db} {source_id : Uuid} (hdistinct : DistinctPlaces db source_id)
    (sort : LedgerSort) (query : LedgerQuery) :
    ((db.selected source_id query).map sort.key).Nodup := by
  have hactive : ∀ row ∈ db.selected source_id query, row ∈ db.active_entries source_id := by
    intro row hrow
    obtain ⟨hmem, hselects⟩ := List.mem_filter.1 hrow
    unfold LedgerQuery.selects at hselects
    simp only [Bool.and_eq_true] at hselects
    exact List.mem_filter.2 ⟨hmem, Bool.and_eq_true_iff.2 hselects.1.1.1.1.1⟩
  refine List.Nodup.map_on ?_ (db.ledger_entries.nodup.filter _)
  intro a ha b hb hkey
  exact List.inj_on_of_nodup_map hdistinct (hactive a ha) (hactive b hb) (place_eq_of_key hkey)

/-- A client that sends its request again with the cursor of the last response,
until a response has none: the databases it met and the rows it was shown. -/
inductive PageWalk (source_id : Uuid) (sort : LedgerSort) (default_limit : Int) :
    LedgerPageQuery → List Db → List (List LedgerEntryRow) → Prop
  | last {query : LedgerPageQuery} {db : Db} {ledger_query : LedgerQuery}
      (hquery : query.to_ledger_query default_limit = .ok ledger_query)
      (hnone : (ledger_page_rows db source_id ledger_query sort).next_cursor = none) :
      PageWalk source_id sort default_limit query [db]
        [(ledger_page_rows db source_id ledger_query sort).items]
  | next {query : LedgerPageQuery} {db db' : Db} {dbs : List Db} {pages : List (List LedgerEntryRow)}
      {ledger_query : LedgerQuery} {cursor : LedgerCursor}
      (hquery : query.to_ledger_query default_limit = .ok ledger_query)
      (hsome : (ledger_page_rows db source_id ledger_query sort).next_cursor = some cursor)
      (hkeeps : KeepsPlaces db db')
      (rest : PageWalk source_id sort default_limit
        { query with cursor := some (encode_cursor cursor) } (db' :: dbs) pages) :
      PageWalk source_id sort default_limit query (db :: db' :: dbs)
        ((ledger_page_rows db source_id ledger_query sort).items :: pages)

section Walk

variable {source_id : Uuid} {sort : LedgerSort} {default_limit : Int} {query : LedgerPageQuery}
  {dbs : List Db} {pages : List (List LedgerEntryRow)}

/-- A client's walk is a walk of the keyset pages over what its filters select. -/
theorem PageWalk.keyset (h : PageWalk source_id sort default_limit query dbs pages)
    {ledger_query : LedgerQuery} (hquery : query.to_ledger_query default_limit = .ok ledger_query) :
    Keyset.Walk sort.key (clamp_limit ledger_query.limit).toNat
      (ledger_query.cursor.map sort.key_at) (dbs.map fun db => db.selected source_id ledger_query)
      pages := by
  induction h generalizing ledger_query with
  | @last query db lq hquery' hnone =>
    rw [hquery] at hquery'
    cases hquery'
    obtain ⟨hitems, hcursor⟩ := ledger_page_rows_eq db source_id lq sort
    rw [hnone, Option.map_none] at hcursor
    rw [List.map_cons, List.map_nil, hitems]
    exact Keyset.Walk.last hcursor.symm
  | @next query db db' dbs pages lq cursor hquery' hsome _ _ ih =>
    rw [hquery] at hquery'
    cases hquery'
    obtain ⟨row, hrow, rfl⟩ := exists_row_of_cursor hsome
    have hnext := to_ledger_query_with_cursor hquery (parse_encode_cursor_of_row hrow)
    obtain ⟨hitems, hcursor⟩ := ledger_page_rows_eq db source_id lq sort
    rw [hsome, Option.map_some] at hcursor
    rw [List.map_cons, hitems]
    exact Keyset.Walk.next hcursor.symm (ih hnext)

/-- Every row a walk shows is in a database it met, from the first on. -/
theorem PageWalk.mem_db (h : PageWalk source_id sort default_limit query dbs pages)
    {row : LedgerEntryRow} (hrow : row ∈ pages.flatten) :
    ∃ db ∈ dbs, row ∈ db.ledger_entries.rows ∧ ∀ first ∈ dbs.head?, KeepsPlaces first db := by
  induction h with
  | @last query db lq _ _ =>
    rw [List.flatten_cons, List.flatten_nil, List.append_nil] at hrow
    refine ⟨db, List.mem_cons_self .., mem_of_page_row hrow, ?_⟩
    rintro first ⟨⟩
    exact KeepsPlaces.refl db
  | @next query db db' dbs pages lq cursor _ _ hkeeps _ ih =>
    rw [List.flatten_cons, List.mem_append] at hrow
    rcases hrow with hrow | hrow
    · refine ⟨db, List.mem_cons_self .., mem_of_page_row hrow, ?_⟩
      rintro first ⟨⟩
      exact KeepsPlaces.refl db
    · obtain ⟨d, hd, hrow_d, hfirst⟩ := ih hrow
      refine ⟨d, List.mem_cons_of_mem _ hd, hrow_d, ?_⟩
      rintro first ⟨⟩
      exact hkeeps.trans (hfirst db' rfl)

theorem LedgerSort.before_place_ne {a b : LedgerEntryRow} (h : sort.before a b) :
    a.place ≠ b.place := by
  cases sort with
  | Asc => exact ne_of_lt h
  | Desc => exact (ne_of_lt h).symm

/-- Rows of one database in strict order have different ids. -/
theorem ids_nodup_of_before {db : Db} {rows : List LedgerEntryRow}
    (hmem : ∀ row ∈ rows, row ∈ db.ledger_entries.rows) (h : rows.Pairwise sort.before) :
    (rows.map (·.id)).Nodup := by
  refine List.pairwise_map.2 (List.Pairwise.imp_of_mem ?_ h)
  intro a b ha hb hab hid
  have hsame := (KeepsPlaces.refl db).place_eq (hmem b hb) (hmem a ha) hid
  exact LedgerSort.before_place_ne hab hsame

/-- Rows shown in strict order have different ids, whenever they were shown. -/
theorem PageWalk.ids_nodup (h : PageWalk source_id sort default_limit query dbs pages)
    (hascending : pages.flatten.Pairwise sort.before) : (pages.flatten.map (·.id)).Nodup := by
  induction h with
  | last hquery hnone =>
    rw [List.flatten_cons, List.flatten_nil, List.append_nil] at hascending ⊢
    exact ids_nodup_of_before (fun _ => mem_of_page_row) hascending
  | @next query db db' dbs pages lq cursor hquery hsome hkeeps rest ih =>
    rw [List.flatten_cons, List.pairwise_append] at hascending
    obtain ⟨hpage, hrest, hcross⟩ := hascending
    rw [List.flatten_cons, List.map_append, List.nodup_append]
    refine ⟨ids_nodup_of_before (fun _ => mem_of_page_row) hpage, ih hrest, ?_⟩
    intro i hi j hj hij
    obtain ⟨a, ha, rfl⟩ := List.mem_map.1 hi
    obtain ⟨b, hb, rfl⟩ := List.mem_map.1 hj
    -- a later page read a database in which the row is still at its place
    obtain ⟨d, -, hrow_d, hfirst⟩ := rest.mem_db hb
    have hsame := (hkeeps.trans (hfirst db' rfl)).place_eq (mem_of_page_row ha) hrow_d hij.symm
    exact LedgerSort.before_place_ne (hcross a ha b hb) hsame.symm

/-- Following the cursors through all pages shows rows in strict order and no row
twice, shows once every row that was selected and unchanged throughout, and every
cursor is accepted by the next request. -/
theorem cursor_walks_are_complete (h : PageWalk source_id sort default_limit query dbs pages)
    (hfirst : query.cursor = none) (hdistinct : ∀ db ∈ dbs, DistinctPlaces db source_id) :
    pages.flatten.Pairwise sort.before ∧ (pages.flatten.map (·.id)).Nodup ∧
      (∀ ledger_query, query.to_ledger_query default_limit = .ok ledger_query →
        ∀ row, (∀ db ∈ dbs, row ∈ db.ledger_entries.rows) →
          ledger_query.selects source_id row = true → pages.flatten.count row = 1) ∧
      ∀ (db : Db) (q : LedgerPageQuery) (ledger_query : LedgerQuery) (cursor : LedgerCursor),
        q.to_ledger_query default_limit = .ok ledger_query →
        (ledger_page_rows db source_id ledger_query sort).next_cursor = some cursor →
        LedgerPageQuery.to_ledger_query { q with cursor := some (encode_cursor cursor) } default_limit
          = .ok { ledger_query with cursor := some cursor } := by
  obtain ⟨ledger_query, hquery⟩ : ∃ lq, query.to_ledger_query default_limit = .ok lq := by
    cases h with
    | last hquery _ => exact ⟨_, hquery⟩
    | next hquery _ _ _ => exact ⟨_, hquery⟩
  have hwalk := h.keyset hquery
  have hcursor : ledger_query.cursor = none := by
    unfold LedgerPageQuery.to_ledger_query at hquery
    simp only [bind_eq_ok, bail_eq_ok, hfirst] at hquery
    obtain ⟨limit, -, -, -, -, cursor, hnone, holder, -, movement_type, -, hq⟩ := hquery
    cases hnone
    cases hq
    rfl
  have hlimit : 0 < (clamp_limit ledger_query.limit).toNat := by
    unfold clamp_limit
    omega
  have hkeys : ∀ rows ∈ dbs.map (fun db => db.selected source_id ledger_query),
      (rows.map sort.key).Nodup := by
    intro rows hrows
    obtain ⟨db, hdb, rfl⟩ := List.mem_map.1 hrows
    exact selected_keys_nodup (hdistinct db hdb) sort ledger_query
  have hascending : pages.flatten.Pairwise sort.before :=
    (hwalk.ascending hkeys).imp before_iff.2
  refine ⟨hascending, h.ids_nodup hascending, ?_, ?_⟩
  · intro lq hlq row hstays hselects
    rw [hquery] at hlq
    cases hlq
    have hmem : row ∈ pages.flatten := by
      refine hwalk.mem_of_stays hlimit hkeys ?_ ?_
      · intro rows hrows
        obtain ⟨db, hdb, rfl⟩ := List.mem_map.1 hrows
        exact List.mem_filter.2 ⟨hstays db hdb, hselects⟩
      · rw [hcursor]
        rintro c ⟨⟩
    have hnodup : pages.flatten.Nodup := List.Nodup.of_map _ (h.ids_nodup hascending)
    exact List.count_eq_one_of_mem hnodup hmem
  · intro db q lq cursor hq hsome
    obtain ⟨row, hrow, rfl⟩ := exists_row_of_cursor hsome
    exact to_ledger_query_with_cursor hq (parse_encode_cursor_of_row hrow)

end Walk

/-! ## Pages of one row -/

/-- A request for pages of one row. -/
def one_by_one : LedgerPageQuery :=
  { limit := some 1, cursor := none, from_block := none, to_block := none, holder := none
    token_id := none, movement_type := none }

/-- What `one_by_one` asks the ledger for, from a cursor. -/
def one_row_from (cursor : Option LedgerCursor) : LedgerQuery :=
  { limit := 1, cursor, from_block := none, to_block := none, holder := none, token_id := none
    movement_type := none }

/-- The tokens that bob was sent in block 2 sent back, and the transfer persisted. -/
def sent_back : List LedgerOp :=
  [.persist_decoded_logs_with_options small_source.from_source
    [erc20_transfer "0x3" "0xb3" "0xd3" bob alice] { restore_orphaned_conflicts := false }]

/-- The third page shows a row that was persisted after the first was answered. -/
theorem cursor_walks_are_complete_mint_then_transfer :
    let db := (small_ledger mint_then_transfer).foldl (LedgerOp.commit plain_digits) Db.empty
    let db' := sent_back.foldl (LedgerOp.commit plain_digits) db
    ∃ pages, PageWalk 0 .Asc 100 one_by_one [db, db', db'] pages ∧
      pages.map (·.map (·.block_number)) = [[1], [2], [3]] ∧
      pages.flatten.Pairwise LedgerSort.Asc.before ∧ (pages.flatten.map (·.id)).Nodup := by
  intro db db'
  have hkeeps : KeepsPlaces db db' :=
    run_keepsPlaces ((run_of_commits db sent_back).guarded (by decide))
  have hlast : PageWalk 0 .Asc 100 { one_by_one with cursor := some (encode_cursor
      { block_number := 2, log_index := 0, batch_index := 0 }) } [db']
      [(ledger_page_rows db' 0 (one_row_from (some { block_number := 2, log_index := 0, batch_index := 0 }))
        .Asc).items] :=
    PageWalk.last (by decide +kernel) (by decide +kernel)
  have hthen : LedgerPageQuery.to_ledger_query { one_by_one with cursor := some (encode_cursor
      { block_number := 1, log_index := 0, batch_index := 0 }) } 100
      = .ok (one_row_from (some { block_number := 1, log_index := 0, batch_index := 0 })) := by
    decide +kernel
  have hsecond : PageWalk 0 .Asc 100 { one_by_one with cursor := some (encode_cursor
      { block_number := 1, log_index := 0, batch_index := 0 }) } [db', db'] _ :=
    PageWalk.next hthen (by decide +kernel) (KeepsPlaces.refl db') hlast
  have hquery : one_by_one.to_ledger_query 100 = .ok (one_row_from none) := by decide +kernel
  have hwalk : PageWalk 0 .Asc 100 one_by_one [db, db', db'] _ :=
    PageWalk.next hquery (by decide +kernel) hkeeps hsecond
  have hdistinct : DistinctPlaces db 0 ∧ DistinctPlaces db' 0 := by
    unfold DistinctPlaces
    decide +kernel
  obtain ⟨hascending, hids, -⟩ := cursor_walks_are_complete hwalk rfl (by
    intro d hd
    simp only [List.mem_cons, List.not_mem_nil, or_false, or_self] at hd
    rcases hd with rfl | rfl
    · exact hdistinct.1
    · exact hdistinct.2)
  exact ⟨_, hwalk, by decide +kernel, hascending, hids⟩

end EvmIndexer
