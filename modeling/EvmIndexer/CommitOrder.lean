/-
Ranges committed in another order than that of the chain.

Workers take the ranges of a history independently, and commit them in any order. What a
log is stored as does not depend on when, and what the entries of all ranges net to does
not depend on their order, so the ranges that commit leave what ingesting the history in
order leaves. Whether they commit does depend on the order: every entry is checked
against the balances committed so far, and a transfer committed before the mint it
spends is refused. The ranges all commit exactly where the entries, in the order of the
commits, never take an account to a balance a row cannot hold (`any_order_iff`).
-/
import EvmIndexer.Reingest
import EvmIndexer.Backfill

set_option autoImplicit false

namespace EvmIndexer

open Sql Bookkeeping

/-! ## Ranges of a history

The ranges are chunks of a split or any others that follow each other. A log belongs to the
range its block is in, so the ranges part the history, up to the order inside a block that
they share.
-/

/-- The ranges follow each other without a gap, from `first` to `last`, and none is empty. It
is what `split_inclusive_range` makes of a range. -/
def Consecutive : Nat → Nat → List BackfillChunk → Prop
  | first, last, [] => first = last + 1
  | first, last, range :: rest =>
    range.«from» = first ∧ range.«from» ≤ range.«to» ∧ Consecutive (range.«to» + 1) last rest

/-- The block of the log is in the range. -/
def in_range (range : BackfillChunk) (log : RpcLog × DecodedLog) : Bool :=
  match parse_hex_u64 log.1.block_number with
  | .ok n => decide (range.«from» ≤ n ∧ n ≤ range.«to»)
  | .error _ => false

/-- The blocks of the history are `first` to `last`, so every log of it is in one of the
ranges. -/
def BlocksWithin (first last : Nat) (history : List (RpcLog × DecodedLog)) : Prop :=
  ∀ log ∈ history, ∃ n, parse_hex_u64 log.1.block_number = .ok n ∧ first ≤ n ∧ n ≤ last

/-- The logs of a range. -/
def logs_in (history : List (RpcLog × DecodedLog)) (range : BackfillChunk) :
    List (RpcLog × DecodedLog) := history.filter (in_range range)

theorem Consecutive.le_from {first last : Nat} {ranges : List BackfillChunk}
    (h : Consecutive first last ranges) : ∀ range ∈ ranges, first ≤ range.«from» := by
  induction ranges generalizing first with
  | nil => exact fun range hrange => absurd hrange List.not_mem_nil
  | cons range rest ih =>
    obtain ⟨hfrom, hto, hrest⟩ := h
    intro other hother
    rcases List.mem_cons.1 hother with rfl | hother
    · exact hfrom.ge
    · have hlater := ih hrest other hother
      omega

/-- The logs of consecutive ranges, one range after the other, are those of the history. -/
theorem flatMap_logs_in_perm {first last : Nat} {ranges : List BackfillChunk}
    {history : List (RpcLog × DecodedLog)} (hranges : Consecutive first last ranges)
    (hblocks : BlocksWithin first last history) :
    (ranges.flatMap (logs_in history)).Perm history := by
  induction ranges generalizing first history with
  | nil =>
    have hnone : history = [] := by
      refine List.eq_nil_iff_forall_not_mem.2 fun log hlog => ?_
      obtain ⟨n, -, hfirst, hlast⟩ := hblocks log hlog
      have hranges : first = last + 1 := hranges
      omega
    rw [hnone]
    exact List.Perm.refl []
  | cons range rest ih =>
    obtain ⟨hfrom, hto, hrest⟩ := hranges
    -- what is not in the first range comes after it
    have hlater : BlocksWithin (range.«to» + 1) last
        (history.filter fun log => !in_range range log) := by
      intro log hlog
      obtain ⟨hmem, hout⟩ := List.mem_filter.1 hlog
      obtain ⟨n, hn, hfirst, hlast⟩ := hblocks log hmem
      refine ⟨n, hn, ?_, hlast⟩
      unfold in_range at hout
      rw [hn, Bool.not_eq_true', decide_eq_false_iff_not] at hout
      omega
    have hothers : ∀ other ∈ rest, logs_in (history.filter fun log => !in_range range log) other
        = logs_in history other := by
      intro other hother
      have hafter := hrest.le_from other hother
      unfold logs_in
      rw [List.filter_filter]
      refine List.filter_congr fun log _ => ?_
      unfold in_range
      cases parse_hex_u64 log.1.block_number with
      | error e => rfl
      | ok n =>
        have hapart : other.«from» ≤ n ∧ n ≤ other.«to» → ¬ (range.«from» ≤ n ∧ n ≤ range.«to») := by
          omega
        by_cases hin : other.«from» ≤ n ∧ n ≤ other.«to»
        · simp [hin, hapart hin]
        · simp [hin]
    have hperm := ih hrest hlater
    rw [List.flatMap_congr hothers] at hperm
    rw [List.flatMap_cons]
    exact (hperm.append_left (logs_in history range)).trans
      (List.filter_append_perm (in_range range) history)

/-! ## Adding rows under new keys

`AddsRows` says of a step both when it goes through and what it leaves. That is what makes
the comparison work: two orders of the same rows leave the same if they go through, and
whether they do is a condition on the order that the steps hand on to each other.
-/

/-- The rows went into the ledger of a source: balances moved by what they net to, and
nothing else is found under other keys than before. -/
structure Added (source_id : Uuid) (rows : List LedgerEntryRow) (db db' : Db) : Prop where
  row_ids : FreshRowIds db'
  balance_ids : FreshBalanceIds db'
  balance : ∀ a, db'.balance source_id a
    = db.balance source_id a + net (rows.map (·.movement)) a
  find : ∀ w : LedgerEntryRow, (∀ v ∈ rows, ¬ v.same_entry w = true) →
    db'.ledger_entries.rows.find? w.same_entry = db.ledger_entries.rows.find? w.same_entry

theorem Added.trans {source_id : Uuid} {vs ws : List LedgerEntryRow} {a b c : Db}
    (h : Added source_id vs a b) (k : Added source_id ws b c) : Added source_id (vs ++ ws) a c := by
  refine ⟨k.row_ids, k.balance_ids, fun account => ?_, fun w hw => ?_⟩
  · rw [k.balance, h.balance, List.map_append, net_append, add_assoc]
  · rw [k.find w fun v hv => hw v (List.mem_append_right _ hv),
      h.find w fun v hv => hw v (List.mem_append_left _ hv)]

/-- A step adds the rows, and goes through exactly where none of them takes an account to
a balance a row cannot hold. -/
structure AddsRows (source_id : Uuid) (rows : List LedgerEntryRow) (db : Db) (result : Result Db) :
    Prop where
  commits : (∃ db', result = .ok db') ↔
    AppliesWithin BalanceFits (db.balance source_id) (rows.map (·.movement))
  leaves : ∀ db', result = .ok db' → Added source_id rows db db'

theorem AddsRows.nil (source_id : Uuid) {db : Db} (hrows : FreshRowIds db)
    (hbalances : FreshBalanceIds db) : AddsRows source_id [] db (.ok db) := by
  refine ⟨⟨fun _ => trivial, fun _ => ⟨db, rfl⟩⟩, fun db' h => ?_⟩
  cases h
  exact ⟨hrows, hbalances, fun a => (add_zero _).symm, fun w _ => rfl⟩

/-- Two steps in a row add the rows of both. -/
theorem AddsRows.bind {source_id : Uuid} {vs ws : List LedgerEntryRow} {db : Db} {first : Result Db}
    {second : Db → Result Db} (h : AddsRows source_id vs db first)
    (k : ∀ mid, Added source_id vs db mid → AddsRows source_id ws mid (second mid)) :
    AddsRows source_id (vs ++ ws) db (first >>= second) := by
  have hbase : ∀ {mid : Db}, Added source_id vs db mid →
      (fun a => db.balance source_id a + net (vs.map (·.movement)) a) = mid.balance source_id :=
    fun hmid => funext fun a => (hmid.balance a).symm
  refine ⟨?_, fun db' hdb' => ?_⟩
  · rw [List.map_append, AppliesWithin.append, ← h.commits]
    constructor
    · rintro ⟨db', hdb'⟩
      obtain ⟨mid, hmid, hsecond⟩ := bind_eq_ok.1 hdb'
      have hadded := h.leaves mid hmid
      rw [hbase hadded]
      exact ⟨⟨mid, hmid⟩, (k mid hadded).commits.1 ⟨db', hsecond⟩⟩
    · rintro ⟨⟨mid, hmid⟩, hrest⟩
      have hadded := h.leaves mid hmid
      rw [hbase hadded] at hrest
      obtain ⟨db', hsecond⟩ := (k mid hadded).commits.2 hrest
      exact ⟨db', bind_eq_ok.2 ⟨mid, hmid, hsecond⟩⟩
  · obtain ⟨mid, hmid, hsecond⟩ := bind_eq_ok.1 hdb'
    have hadded := h.leaves mid hmid
    exact hadded.trans ((k mid hadded).leaves db' hsecond)

/-- A write to the other tables before the step makes no difference. -/
theorem AddsRows.of_frame {source_id : Uuid} {rows : List LedgerEntryRow} {db mid : Db}
    {result : Result Db} (hentries : mid.ledger_entries = db.ledger_entries)
    (hbalances : mid.token_balances = db.token_balances) (h : AddsRows source_id rows mid result) :
    AddsRows source_id rows db result := by
  have hbalance : mid.balance source_id = db.balance source_id :=
    funext fun a => balance_congr hbalances source_id a
  refine ⟨hbalance ▸ h.commits, fun db' hdb' => ?_⟩
  obtain ⟨hrow_ids, hbalance_ids, hbalance', hfind⟩ := h.leaves db' hdb'
  exact ⟨hrow_ids, hbalance_ids, fun a => hbalance ▸ hbalance' a, fun w hw => hentries ▸ hfind w hw⟩

/-! ## Persisting adds rows

A log whose keys are new appends the rows it is decoded to. They are what a fresh index would
store, so they depend on the log and the source and on nothing that was committed before. A
balance that would become negative is the only other thing that stops the loop.
-/

section Persist

variable {parseAmount : AmountParser} {source : SourceRef} {options : PersistDecodedLogsOptions}

/-- Persisting an entry under a new key adds its row. -/
theorem persist_entry_adds (hstandard : source.token_standard ≠ .Auto) {db : Db}
    (hrows : FreshRowIds db) (hbalances : FreshBalanceIds db) {log : RpcLog} {event_id : Uuid}
    {entry : DecodedLedgerEntry} {values : LedgerEntryRow}
    (hvalues : new_ledger_entry_row parseAmount 0 source log 0 entry = .ok values)
    (hcheck : Schema.Check values) (hnew : db.ledger_entries.rows.find? values.same_entry = none) :
    AddsRows source.id [values] db (persist_entry parseAmount source log event_id options db entry) := by
  have hgiven := new_ledger_entry_row_ids db.next_uuid event_id hvalues
  have hlock := (lock_existing_of_values db hgiven).trans (congrArg Except.ok hnew)
  have hactive : values.orphaned = false := (new_ledger_entry_row_key hvalues).2.1
  -- the row goes in, and its movement into the balances
  have hspec : ∀ {row : LedgerEntryRow} {mid : Db},
      upsert_ledger_entry parseAmount db source log event_id entry options = .ok (row, mid) →
        row = { values with id := db.next_uuid, event_id } ∧
          mid = { db with next_uuid := db.next_uuid + 1, ledger_entries := mid.ledger_entries } ∧
          mid.ledger_entries.rows = db.ledger_entries.rows ++ [row] := by
    intro row mid hupsert
    obtain ⟨given, ledger_entries, hgiven', -, hmid, -, hcases⟩ := upsert_ledger_entry_spec hlock hupsert
    rw [hgiven] at hgiven'
    cases hgiven'
    rcases hcases with ⟨-, hrow, hentries⟩ | ⟨old, hold, -⟩
    · exact ⟨hrow, by rw [hmid], by rw [hmid, hrow]; exact hentries⟩
    · cases hold
  have hadds : ∀ db', persist_entry parseAmount source log event_id options db entry = .ok db' →
      Added source.id [values] db db' := by
    intro db' h
    obtain ⟨previous, current, mid, hprevious, -, hupsert, happly⟩ := persist_entry_spec h
    rw [hlock] at hprevious
    cases hprevious
    obtain ⟨hrow, hmid, hentries⟩ := hspec hupsert
    obtain ⟨hframe, hbalance⟩ := apply_balance_delta_spec happly
    refine ⟨persist_entry_freshRowIds h hrows, persist_entry_keepsFresh h hbalances, fun a => ?_,
      fun w hw => ?_⟩
    · have hcontribution : current.contribution a = values.movement.effect a := by
        rw [hrow]
        exact contribution_of_active hactive a
      have hsame : mid.balance source.id a = db.balance source.id a :=
        balance_congr (by rw [hmid]) source.id a
      rw [hbalance, if_pos rfl, hcontribution, hsame]
      simp
    · have hother : ¬ w.same_entry current = true := by
        rw [hrow]
        exact fun h => hw values (List.mem_singleton_self values) (same_entry_symm h)
      rw [hframe.ledger_entries, hentries, List.find?_append]
      simp [hother]
  refine ⟨⟨?_, fun hfits => ?_⟩, hadds⟩
  · rintro ⟨db', h⟩
    refine ⟨fun a => ?_, trivial⟩
    have hbalance := (hadds db' h).balance a
    rw [List.map_singleton, net_cons, net_nil, add_zero] at hbalance
    rw [← hbalance]
    exact balance_fits db' source.id a
  · obtain ⟨row, mid, hupsert⟩ := upsert_ledger_entry_succeeds options hgiven hcheck
      fun _ r hr => (hrows.entries r hr).ne
    obtain ⟨hrow, hmid, -⟩ := hspec hupsert
    have hmid_fresh : FreshBalanceIds mid := by
      intro r hr
      rw [hmid] at hr ⊢
      exact Nat.lt_succ_of_lt (hbalances r hr)
    have hblock : row.orphaned = false → 0 ≤ row.block_number := by
      intro _
      rw [hrow]
      exact hcheck.2.2.2.2.1
    have hleft : ∀ a, BalanceFits (mid.balance source.id a
        + (row.contribution a - ((none : Option LedgerEntryRow).map (·.contribution a)).getD 0)) := by
      intro a
      have hcontribution : row.contribution a = values.movement.effect a := by
        rw [hrow]
        exact contribution_of_active hactive a
      have hsame : mid.balance source.id a = db.balance source.id a :=
        balance_congr (by rw [hmid]) source.id a
      rw [hcontribution, hsame, Option.map_none, Option.getD_none, sub_zero]
      exact hfits.1 a
    obtain ⟨db', happly⟩ := apply_balance_delta_succeeds hstandard hmid_fresh hblock hleft
    refine ⟨db', ?_⟩
    unfold persist_entry
    rw [bind_eq_ok]
    refine ⟨none, hlock, ?_⟩
    rw [bail_eq_ok, bind_eq_ok]
    exact ⟨by simp, (row, mid), hupsert, happly⟩

theorem persist_entries_add (hstandard : source.token_standard ≠ .Auto) {log : RpcLog}
    {event_id : Uuid} {entries : List DecodedLedgerEntry} {vs : List LedgerEntryRow}
    (hvalues : (entries.map fun entry => (log, entry)).mapM (fun entry =>
      new_ledger_entry_row parseAmount 0 source entry.1 0 entry.2) = .ok vs)
    (hcheck : ∀ v ∈ vs, Schema.Check v) (hdistinct : DistinctKeys vs) {db : Db}
    (hrows : FreshRowIds db) (hbalances : FreshBalanceIds db)
    (hnew : ∀ v ∈ vs, db.ledger_entries.rows.find? v.same_entry = none) :
    AddsRows source.id vs db
      (entries.foldlM (persist_entry parseAmount source log event_id options) db) := by
  induction entries generalizing vs db with
  | nil =>
    cases hvalues
    exact AddsRows.nil source.id hrows hbalances
  | cons entry rest ih =>
    simp only [List.map_cons, List.mapM_cons, bind_eq_ok, pure_eq_ok] at hvalues
    obtain ⟨v, hv, ws, hws, rfl⟩ := hvalues
    obtain ⟨hapart, hrest⟩ := List.pairwise_cons.1 hdistinct
    rw [List.foldlM_cons]
    refine (persist_entry_adds hstandard hrows hbalances hv (hcheck v (List.mem_cons_self ..))
      (hnew v (List.mem_cons_self ..))).bind fun mid hadded => ?_
    refine ih hws (fun w hw => hcheck w (List.mem_cons_of_mem _ hw)) hrest hadded.row_ids
      hadded.balance_ids fun w hw => ?_
    -- the first entry has taken another key than the others
    rw [hadded.find w fun u hu => List.mem_singleton.1 hu ▸ hapart w hw]
    exact hnew w (List.mem_cons_of_mem _ hw)

/-- The rows of the logs pass their checks, and are under new keys of their own. -/
structure Ingestible (parseAmount : AmountParser) (source : SourceRef) (db : Db)
    (logs : List (RpcLog × DecodedLog)) (vs : List LedgerEntryRow) : Prop where
  events : ∃ es, fresh_events source logs = .ok es ∧ ∀ e ∈ es, Schema.Check e
  rows : fresh_rows parseAmount source logs = .ok vs
  checked : ∀ v ∈ vs, Schema.Check v
  distinct : DistinctKeys vs
  new_keys : ∀ v ∈ vs, db.ledger_entries.rows.find? v.same_entry = none

/-- Persisting such logs adds their rows, and is refused just where a balance would leave its
bounds on the way. The induction is on the logs, and each turn leaves the keys of the rest
free. -/
theorem persist_logs_add (hstandard : source.token_standard ≠ .Auto)
    {logs : List (RpcLog × DecodedLog)} {vs : List LedgerEntryRow} {db : Db}
    (hrows : FreshRowIds db) (hbalances : FreshBalanceIds db)
    (h : Ingestible parseAmount source db logs vs) :
    AddsRows source.id vs db (logs.foldlM (persist_log parseAmount source options) db) := by
  induction logs generalizing vs db with
  | nil =>
    have hnone : vs = [] := (Except.ok.inj h.rows).symm
    rw [hnone]
    exact AddsRows.nil source.id hrows hbalances
  | cons log rest ih =>
    obtain ⟨⟨es, hevents, hes⟩, hvs, hcheck, hdistinct, hnew⟩ := h
    unfold fresh_events at hevents
    simp only [List.mapM_cons, bind_eq_ok, pure_eq_ok] at hevents
    obtain ⟨e, he, es, hevents, rfl⟩ := hevents
    unfold fresh_rows log_entries at hvs
    rw [List.flatMap_cons, List.mapM_append] at hvs
    simp only [bind_eq_ok, pure_eq_ok] at hvs
    obtain ⟨ws, hws, us, hus, rfl⟩ := hvs
    obtain ⟨hws_distinct, hus_distinct, hapart⟩ := List.pairwise_append.1 hdistinct
    -- the event goes in first, and leaves the entries and the balances as they are
    obtain ⟨event_id, mid, hupsert⟩ := upsert_event_succeeds options
      (new_event_row_id db.next_uuid he) (hes e (List.mem_cons_self ..))
      fun _ r hr => (hrows.events r hr).ne
    have hframe := upsert_event_frame hupsert
    have hentries : mid.ledger_entries = db.ledger_entries := by rw [hframe]
    have htoken_balances : mid.token_balances = db.token_balances := by rw [hframe]
    have hmid_balances : FreshBalanceIds mid := by
      intro r hr
      rw [hframe] at hr ⊢
      exact Nat.lt_succ_of_lt (hbalances r hr)
    have hlog : persist_log parseAmount source options db log
        = log.2.entries.foldlM (persist_entry parseAmount source log.1 event_id options) mid := by
      unfold persist_log
      rw [hupsert]
      rfl
    rw [List.foldlM_cons, hlog]
    refine (AddsRows.of_frame hentries htoken_balances ?_).bind fun added hadded => ?_
    · exact persist_entries_add hstandard hws (fun v hv => hcheck v (List.mem_append_left _ hv))
        hws_distinct (upsert_event_freshRowIds hupsert hrows) hmid_balances
        fun v hv => hentries ▸ hnew v (List.mem_append_left _ hv)
    · refine ih hadded.row_ids hadded.balance_ids
        { events := ⟨es, hevents, fun e he => hes e (List.mem_cons_of_mem _ he)⟩
          rows := hus
          checked := fun v hv => hcheck v (List.mem_append_right _ hv)
          distinct := hus_distinct
          new_keys := fun u hu => ?_ }
      rw [hadded.find u fun w hw => hapart w hw u hu]
      exact hnew u (List.mem_append_right _ hu)

/-- Logs that can be ingested can be ingested in any order. -/
theorem Ingestible.perm {db : Db} {logs logs' : List (RpcLog × DecodedLog)}
    {vs : List LedgerEntryRow} (h : Ingestible parseAmount source db logs vs)
    (hperm : logs.Perm logs') :
    ∃ vs', vs'.Perm vs ∧ Ingestible parseAmount source db logs' vs' := by
  obtain ⟨⟨es, hevents, hes⟩, hvs, hcheck, hdistinct, hnew⟩ := h
  obtain ⟨es', hevents', hes_perm⟩ := mapM_perm hperm hevents
  obtain ⟨vs', hvs', hvs_perm⟩ := mapM_perm (hperm.flatMap_right _) hvs
  refine ⟨vs', hvs_perm,
    { events := ⟨es', hevents', fun e he => hes e (hes_perm.mem_iff.1 he)⟩
      rows := hvs'
      checked := fun v hv => hcheck v (hvs_perm.mem_iff.1 hv)
      distinct := ?_
      new_keys := fun v hv => hnew v (hvs_perm.mem_iff.1 hv) }⟩
  exact hdistinct.perm hvs_perm.symm fun {a b} hab hba => hab (same_entry_symm hba)

/-- A row found under the key of a stored entry is of the source. -/
theorem StoredAs.find_mine {source_id : Uuid} {rows vs rows' : List LedgerEntryRow}
    (h : StoredAs options source_id rows vs rows') (hdistinct : DistinctKeys vs) :
    ∀ v ∈ vs, ∀ old, rows.find? v.same_entry = some old → old.source_id = source_id := by
  induction h with
  | nil => exact fun v hv => absurd hv List.not_mem_nil
  | cons hmine hrest ih =>
    obtain ⟨hapart, hdistinct⟩ := List.pairwise_cons.1 hdistinct
    intro v hv old hold
    rcases List.mem_cons.1 hv with rfl | hv
    · exact hmine old hold
    · refine ih hdistinct v hv old ?_
      rw [find?_store_entry_of_other (hapart v hv)]
      exact hold

/-- Rows under new keys are appended. -/
theorem StoredAs.eq_append {source_id : Uuid} {rows vs rows' : List LedgerEntryRow}
    (h : StoredAs options source_id rows vs rows') (hdistinct : DistinctKeys vs)
    (hnew : ∀ v ∈ vs, rows.find? v.same_entry = none) : rows' = rows ++ vs := by
  induction h with
  | nil => rw [List.append_nil]
  | @cons rows vs rows' values hmine hrest ih =>
    obtain ⟨hapart, hdistinct⟩ := List.pairwise_cons.1 hdistinct
    have happend : store_entry options rows values = rows ++ [values] := by
      unfold store_entry
      rw [hnew values (List.mem_cons_self ..)]
    rw [ih hdistinct fun v hv => ?_, happend, List.append_assoc, List.singleton_append]
    rw [find?_store_entry_of_other (hapart v hv)]
    exact hnew v (List.mem_cons_of_mem _ hv)

/-- A history that a source without entries has taken in could be ingested. -/
theorem ingestible_of_persisted {db final : Db} {history : List (RpcLog × DecodedLog)}
    {summary : ScanSummary} (hempty : ∀ r ∈ db.ledger_entries.rows, r.source_id ≠ source.id)
    (hdistinct : DistinctStored history)
    (h : persist_decoded_logs_with_options parseAmount db source history options
      = .ok (summary, final)) :
    ∃ vs, Ingestible parseAmount source db history vs := by
  obtain ⟨⟨es, hes, hevents, -⟩, vs, hvs, hrows, hstored⟩ := persist_decoded_logs_stores h
  have hkeys : DistinctKeys vs := fresh_rows_distinct hdistinct hrows
  refine ⟨vs.map LedgerEntryRow.forget_ids,
    { events := ⟨es.map EventRow.forget_id, hevents, fun e he => ?_⟩
      rows := hrows
      checked := fun v hv => ?_
      distinct := List.pairwise_map.2 hkeys
      new_keys := fun v hv => ?_ }⟩
  · obtain ⟨old, hold, rfl⟩ := List.mem_map.1 he
    exact (hes old hold).1
  · -- each row was stored once, so it has passed its checks
    obtain ⟨entry, hentry, hrow⟩ := exists_of_mapM_eq_ok hrows hv
    obtain ⟨log, hlog, hentry⟩ := List.mem_flatMap.1 hentry
    obtain ⟨decoded, hdecoded, rfl⟩ := List.mem_map.1 hentry
    obtain ⟨values, hvalues, hcheck⟩ := persist_decoded_logs_checked h hlog hdecoded
    rw [hvalues] at hrow
    cases hrow
    exact hcheck
  · -- a conflicting row would be one of the source, which has none
    obtain ⟨old, hold, rfl⟩ := List.mem_map.1 hv
    refine Option.eq_none_iff_forall_ne_some.2 fun found hfound => ?_
    have hmem := List.mem_of_find?_eq_some hfound
    exact hempty found hmem (hstored.find_mine hkeys old hold found hfound)

theorem active_entries_eq_nil {source_id : Uuid} {db : Db}
    (hempty : ∀ r ∈ db.ledger_entries.rows, r.source_id ≠ source_id) :
    db.active_entries source_id = [] := by
  refine List.filter_eq_nil_iff.2 fun r hr hactive => hempty r hr ?_
  rw [Bool.and_eq_true, beq_iff_eq] at hactive
  exact hactive.1

/-- What a source without entries has once logs are ingested: their rows. -/
theorem Ingestible.active_entries {db db' : Db} {logs : List (RpcLog × DecodedLog)}
    {vs : List LedgerEntryRow} (h : Ingestible parseAmount source db logs vs)
    (hempty : ∀ r ∈ db.ledger_entries.rows, r.source_id ≠ source.id)
    (hlogs : logs.foldlM (persist_log parseAmount source options) db = .ok db') :
    (db'.active_entries source.id).map LedgerEntryRow.forget_ids = vs := by
  obtain ⟨us, hus, hrows, hstored⟩ := foldlM_stores
    (fun log : RpcLog × DecodedLog => log.2.entries.map fun entry => (log.1, entry))
    (fun _ _ _ => persist_log_stores) hlogs
  have hvs : us.map LedgerEntryRow.forget_ids = vs := Except.ok.inj (hrows.symm.trans h.rows)
  have hdistinct := h.distinct
  unfold DistinctKeys at hdistinct
  rw [← hvs, List.pairwise_map] at hdistinct
  have happend := hstored.eq_append hdistinct fun u hu =>
    h.new_keys u.forget_ids (hvs ▸ List.mem_map_of_mem hu)
  have hbefore := active_entries_eq_nil hempty
  have hadded : us.filter (fun r => r.source_id == source.id && !r.orphaned) = us := by
    refine List.filter_eq_self.2 fun u hu => ?_
    obtain ⟨hsource, -, hactive⟩ := hus u hu
    simp [hsource, hactive]
  unfold Db.active_entries at hbefore ⊢
  rw [happend, List.filter_append, hbefore, List.nil_append, hadded, hvs]

end Persist

/-! ## The ranges, in the order of their commits

Each range is one transaction, and one loop over all their logs in that order does the same
as long as none is refused. The rows are the history's rows permuted. Along the permutation
an account may go below zero that does not along the history, and that is exactly when a
range is refused.
-/

section Commit

variable {parseAmount : AmountParser} {source : SourceRow} {options : PersistDecodedLogsOptions}

variable (parseAmount source options) in
/-- The logs of the ranges are persisted one range after the other. -/
def commit_ranges (history : List (RpcLog × DecodedLog)) (order : List BackfillChunk) (db : Db) :
    Result Db :=
  order.foldlM (fun db range => do
    let (_, db) ← persist_decoded_logs_with_options parseAmount db source.from_source
      (logs_in history range) options
    .ok db) db

variable (parseAmount source) in
/-- Along the entries of the logs, in this order, no account gets a balance a row cannot
hold. -/
def FitsInOrder (logs : List (RpcLog × DecodedLog)) : Prop :=
  ∃ rows, fresh_rows parseAmount source.from_source logs = .ok rows ∧
    ∀ done, done <+: rows → ∀ a, BalanceFits (net (done.map (·.movement)) a)

/-- A source has the same entries, identifiers apart, and the same balances. The identifiers
are drawn as rows are inserted, so they depend on the order of the calls, and they say
nothing of the chain. -/
structure SameIngested (source_id : Uuid) (db db' : Db) : Prop where
  entries : ((db'.active_entries source_id).map LedgerEntryRow.forget_ids).Perm
    ((db.active_entries source_id).map LedgerEntryRow.forget_ids)
  balances : ∀ a, db'.balance source_id a = db.balance source_id a

/-- The transactions of the ranges are one loop over their logs. -/
theorem commit_ranges_iff {history : List (RpcLog × DecodedLog)} {order : List BackfillChunk}
    {db db' : Db} (hsource : source ∈ db.sources.rows) :
    commit_ranges parseAmount source options history order db = .ok db' ↔
      (order.flatMap (logs_in history)).foldlM (persist_log parseAmount source.from_source options) db
        = .ok db' := by
  induction order generalizing db with
  | nil => rfl
  | cons range rest ih =>
    unfold commit_ranges at ih ⊢
    rw [List.foldlM_cons, List.flatMap_cons, List.foldlM_append, bind_eq_ok, bind_eq_ok]
    refine exists_congr fun mid => ?_
    -- a transaction commits just if the loop over its logs does: the source stays stored
    have hturn : (do
        let (_, db) ← persist_decoded_logs_with_options parseAmount db source.from_source
          (logs_in history range) options
        .ok db : Result Db) = .ok mid ↔
          (logs_in history range).foldlM (persist_log parseAmount source.from_source options) db
            = .ok mid := by
      rw [bind_eq_ok]
      constructor
      · rintro ⟨⟨summary, left⟩, hpersist, hleft⟩
        cases hleft
        exact (persist_decoded_logs_iff.1 ⟨summary, hpersist⟩).2
      · intro hlogs
        obtain ⟨summary, hpersist⟩ := persist_decoded_logs_iff.2 ⟨⟨source, hsource, rfl⟩, hlogs⟩
        exact ⟨(summary, mid), hpersist, rfl⟩
    refine (and_congr_left fun _ => hturn).trans (and_congr_right fun hlogs => ?_)
    obtain ⟨summary, hpersist⟩ := persist_decoded_logs_iff.2 ⟨⟨source, hsource, rfl⟩, hlogs⟩
    exact ih (persist_decoded_logs_sources hpersist ▸ hsource)

/-- A history that ingests in order into a source without entries, committed range by
range in any order: the ranges all commit exactly where no account, along the entries in
that order, gets a balance a row cannot hold; and then they leave what ingesting in order
leaves. -/
theorem any_order_iff {db final : Db} (h : LedgerReachable parseAmount db)
    (hsource : source ∈ db.sources.rows)
    (hempty : ∀ r ∈ db.ledger_entries.rows, r.source_id ≠ source.id)
    {history : List (RpcLog × DecodedLog)} (hdistinct : DistinctStored history) {first last : Nat}
    (hblocks : BlocksWithin first last history) {summary : ScanSummary}
    (hinorder : persist_decoded_logs_with_options parseAmount db source.from_source history options
      = .ok (summary, final)) {ranges order : List BackfillChunk}
    (hranges : Consecutive first last ranges) (horder : order.Perm ranges) :
    ((∃ db', commit_ranges parseAmount source options history order db = .ok db') ↔
        FitsInOrder parseAmount source (order.flatMap (logs_in history))) ∧
      ∀ db', commit_ranges parseAmount source options history order db = .ok db' →
        SameIngested source.id final db' := by
  have hstandard : source.from_source.token_standard ≠ .Auto := (db.sources.checked source hsource).1
  have hlogs := (persist_decoded_logs_iff.1 ⟨summary, hinorder⟩).2
  -- the history persists in its own order, so its rows exist
  have hcould : ∃ vs, Ingestible parseAmount source.from_source db history vs :=
    ingestible_of_persisted hempty hdistinct hinorder
  obtain ⟨vs, hingestible⟩ := hcould
  -- the ranges in any order hold the same logs
  have hperm : history.Perm (order.flatMap (logs_in history)) :=
    ((horder.flatMap_right _).trans (flatMap_logs_in_perm hranges hblocks)).symm
  obtain ⟨ws, hws, hany⟩ := hingestible.perm hperm
  have hadds : AddsRows source.id ws db ((order.flatMap (logs_in history)).foldlM
      (persist_log parseAmount source.from_source options) db) :=
    persist_logs_add hstandard h.freshRowIds h.freshBalanceIds hany
  -- the source has no rows yet, so each account starts at zero
  have hzero : ∀ a, db.balance source.id a = 0 := by
    intro a
    rw [h.balanced source.id a, Db.net, active_entries_eq_nil hempty]
    rfl
  refine ⟨?_, fun db' hcommit => ⟨?_, fun a => ?_⟩⟩
  · calc (∃ db', commit_ranges parseAmount source options history order db = .ok db')
        ↔ ∃ db', (order.flatMap (logs_in history)).foldlM
            (persist_log parseAmount source.from_source options) db = .ok db' :=
          exists_congr fun db' => commit_ranges_iff hsource
      _ ↔ AppliesWithin BalanceFits (db.balance source.id) (ws.map LedgerEntryRow.movement) :=
          hadds.commits
      _ ↔ ∀ done, done <+: ws.map LedgerEntryRow.movement →
            ∀ a, BalanceFits (db.balance source.id a + net done a) :=
          AppliesWithin.of_prefix fun a => balance_fits db source.id a
      _ ↔ FitsInOrder parseAmount source (order.flatMap (logs_in history)) := by
          constructor
          · intro hfits
            refine ⟨ws, hany.rows, fun done hdone a => ?_⟩
            have hdone_fits := hfits _ (hdone.map (·.movement)) a
            rwa [hzero, zero_add] at hdone_fits
          · rintro ⟨rows, hrows, hfits⟩ done hdone a
            obtain ⟨front, hfront, rfl⟩ := List.prefix_map_iff.1 hdone
            rw [hany.rows] at hrows
            cases hrows
            rw [hzero, zero_add]
            exact hfits front hfront a
  · -- both orders leave the same active rows, up to their ids
    have hcommitted := (commit_ranges_iff hsource).1 hcommit
    have hentries : (db'.active_entries source.id).map LedgerEntryRow.forget_ids = ws :=
      hany.active_entries hempty hcommitted
    have hinorder_entries : (final.active_entries source.id).map LedgerEntryRow.forget_ids = vs :=
      hingestible.active_entries hempty hlogs
    rw [hentries, hinorder_entries]
    exact hws
  · -- and the same balances: the net of the movements does not depend on their order
    have hcommitted := (commit_ranges_iff hsource).1 hcommit
    have hinorder_adds : AddsRows source.id vs db (history.foldlM
        (persist_log parseAmount source.from_source options) db) :=
      persist_logs_add hstandard h.freshRowIds h.freshBalanceIds hingestible
    rw [(hadds.leaves db' hcommitted).balance a, (hinorder_adds.leaves final hlogs).balance a,
      net_perm (hws.map _) a]

variable (parseAmount) in
/-- The order of the commits does not matter: a history that ingests in order ingests
range by range in any order, to the same effect. -/
def OrderDoesNotMatter : Prop :=
  ∀ (db : Db), LedgerReachable parseAmount db → ∀ source ∈ db.sources.rows,
    (∀ r ∈ db.ledger_entries.rows, r.source_id ≠ source.id) →
    ∀ (options : PersistDecodedLogsOptions) (history : List (RpcLog × DecodedLog)),
      DistinctStored history → ∀ first last, BlocksWithin first last history →
      ∀ summary final, persist_decoded_logs_with_options parseAmount db source.from_source history
        options = .ok (summary, final) →
      ∀ ranges order, Consecutive first last ranges → order.Perm ranges →
        ∃ db', commit_ranges parseAmount source options history order db = .ok db' ∧
          SameIngested source.id final db'

end Commit

/-! ## A transfer committed before the mint it spends -/

/-- Block 1 and block 2, each a range of its own. -/
def two_ranges : List BackfillChunk := [{ «from» := 1, «to» := 1 }, { «from» := 2, «to» := 2 }]

theorem two_ranges_consecutive : Consecutive 1 2 two_ranges :=
  ⟨rfl, le_refl 1, rfl, le_refl 2, rfl⟩

/-- The mint and the transfer ingest in order. -/
theorem mint_then_transfer_ingests :
    ∃ summary final, persist_decoded_logs_with_options plain_digits
      ((small_ledger []).foldl (LedgerOp.commit plain_digits) Db.empty) small_source.from_source
      mint_then_transfer { restore_orphaned_conflicts := false } = .ok (summary, final) := by
  obtain ⟨⟨summary, final⟩, hpersist⟩ := exists_ok_of_isOk
    (r := persist_decoded_logs_with_options plain_digits
      ((small_ledger []).foldl (LedgerOp.commit plain_digits) Db.empty) small_source.from_source
      mint_then_transfer { restore_orphaned_conflicts := false }) (by decide +kernel)
  exact ⟨summary, final, hpersist⟩

theorem mint_then_transfer_blocks : BlocksWithin 1 2 mint_then_transfer := by
  have hmint : parse_hex_u64 "0x1" = .ok 1 := by decide +kernel
  have htransfer : parse_hex_u64 "0x2" = .ok 2 := by decide +kernel
  intro log hlog
  rcases List.mem_cons.1 hlog with rfl | hlog
  · exact ⟨1, hmint, by decide, by decide⟩
  · rw [List.mem_singleton.1 hlog]
    exact ⟨2, htransfer, by decide, by decide⟩

theorem any_order_iff_mint_then_transfer :
    ∃ final,
      ((∃ db', commit_ranges plain_digits small_source { restore_orphaned_conflicts := false }
          mint_then_transfer two_ranges
          ((small_ledger []).foldl (LedgerOp.commit plain_digits) Db.empty) = .ok db') ↔
        FitsInOrder plain_digits small_source (two_ranges.flatMap (logs_in mint_then_transfer))) ∧
      ∀ db', commit_ranges plain_digits small_source { restore_orphaned_conflicts := false }
          mint_then_transfer two_ranges
          ((small_ledger []).foldl (LedgerOp.commit plain_digits) Db.empty) = .ok db' →
        SameIngested small_source.id final db' := by
  obtain ⟨summary, final, hinorder⟩ := mint_then_transfer_ingests
  exact ⟨final, any_order_iff (LedgerReachable.empty.commits _) (by decide +kernel)
    (by decide +kernel) ⟨by decide +kernel, by decide +kernel⟩ mint_then_transfer_blocks hinorder
    two_ranges_consecutive (List.Perm.refl two_ranges)⟩

/-- Block 2 is refused where it is committed before block 1. -/
theorem commit_order_matters : ¬ OrderDoesNotMatter plain_digits := by
  intro h
  obtain ⟨summary, final, hinorder⟩ := mint_then_transfer_ingests
  obtain ⟨db', hcommit, -⟩ := h _ (LedgerReachable.empty.commits (small_ledger [])) small_source
    (by decide +kernel) (by decide +kernel) _ mint_then_transfer
    ⟨by decide +kernel, by decide +kernel⟩ 1 2 mint_then_transfer_blocks summary final hinorder
    two_ranges two_ranges.reverse two_ranges_consecutive two_ranges.reverse_perm
  have hrefused : (commit_ranges plain_digits small_source { restore_orphaned_conflicts := false }
      mint_then_transfer two_ranges.reverse
      ((small_ledger []).foldl (LedgerOp.commit plain_digits) Db.empty)).isOk = false := by
    decide +kernel
  rw [hcommit] at hrefused
  cases hrefused

end EvmIndexer
