/-
When `orphan_source_range` is refused.

Orphaning a range reverses its active rows one at a time, in ascending chain
order, and every reversal checks that the balance it writes is not negative.
What decides the call is therefore every balance on the way, not only the last
one: before the last row is reversed, a balance is the net outside the range
plus the net of the rows still to reverse.

That is exactly when it is refused (`orphan_source_range_commits_iff`). Reversing
a mint before the transfer that spends it takes the minter below zero, so a range
holding both is refused although what would remain is zero everywhere.
-/
import EvmIndexer.Ledger

set_option autoImplicit false

namespace EvmIndexer

open Sql Bookkeeping

/-! ## What lies outside the range

The rows the call reverses and the rest of the source part the active entries. So the net is
a sum of two, and what the reversal should leave is the net of the rest.
-/

/-- A row in the range `[from_block, to_block]`. -/
def LedgerEntryRow.in_range (from_block to_block : Int) (row : LedgerEntryRow) : Bool :=
  decide (from_block ≤ row.block_number) && decide (row.block_number ≤ to_block)

/-- The net of a source's active rows outside a range: what orphaning the range
should leave. -/
def Db.net_outside (db : Db) (source_id : Uuid) (from_block to_block : Int) (a : Account) : Int :=
  Bookkeeping.net (((db.active_entries source_id).filter fun r =>
    !r.in_range from_block to_block).map (·.movement)) a

/-- The active rows of the range are the active rows of the source it selects. -/
theorem active_rows_in_perm (db : Db) (source_id : Uuid) (from_block to_block : Int) :
    (active_rows_in db source_id from_block to_block).Perm
      ((db.active_entries source_id).filter (LedgerEntryRow.in_range from_block to_block)) := by
  unfold active_rows_in
  refine (List.perm_insertionSort _ _).trans ?_
  unfold Db.active_entries
  rw [List.filter_filter]
  refine List.Perm.of_eq (List.filter_congr fun r _ => ?_)
  unfold LedgerEntryRow.active_in LedgerEntryRow.in_range
  cases r.source_id == source_id <;> cases decide (from_block ≤ r.block_number) <;>
    cases decide (r.block_number ≤ to_block) <;> cases r.orphaned <;> rfl

/-- A net is the net outside a range plus the net of the range. -/
theorem net_eq_outside_add_inside (db : Db) (source_id : Uuid) (from_block to_block : Int)
    (a : Account) :
    db.net source_id a = db.net_outside source_id from_block to_block a
      + Bookkeeping.net ((active_rows_in db source_id from_block to_block).map (·.movement)) a := by
  rw [net_perm ((active_rows_in_perm db source_id from_block to_block).map _)]
  unfold Db.net Db.net_outside
  rw [add_comm, ← net_append, ← List.map_append]
  exact (net_perm ((List.filter_append_perm _ _).map _) a).symm

/-! ## Balances a row can hold

The column is a number of 78 digits that may not be negative. A reversal can fail at either
end: a burn that is taken back raises a balance.
-/

/-- The balances a `token_balances` row can hold. -/
def BalanceFits (balance : Int) : Prop := 0 ≤ balance ∧ fits_numeric_78_0 balance

/-- Whatever a database stores as a balance, a row can hold. -/
theorem balance_fits (db : Db) (source_id : Uuid) (a : Account) :
    BalanceFits (db.balance source_id a) := by
  unfold Db.balance
  cases hfind : db.token_balances.rows.find? (TokenBalanceRow.of_holder source_id a.1 a.2) with
  | none =>
    have hzero : BalanceFits 0 := ⟨by decide, by decide, by decide⟩
    exact hzero
  | some row =>
    have hcheck := db.token_balances.checked row (List.mem_of_find?_eq_some hfind)
    exact ⟨hcheck.2.1, hcheck.2.2.1⟩

/-! ## Identifiers are fresh

A balance that is missing is inserted under an identifier drawn for it. That the insert does
not clash with a stored row, except on the account, needs the generator to be ahead of the
table.
-/

/-- The next uuid is not the id of a balance row. -/
def FreshBalanceIds (db : Db) : Prop := ∀ r ∈ db.token_balances.rows, r.id < db.next_uuid

/-- Draws uuids without touching the balances, or keeps their ids fresh. -/
def KeepsFresh (db db' : Db) : Prop := FreshBalanceIds db → FreshBalanceIds db'

theorem KeepsFresh.refl (db : Db) : KeepsFresh db db := id

theorem KeepsFresh.trans {a b c : Db} (h : KeepsFresh a b) (k : KeepsFresh b c) : KeepsFresh a c :=
  fun ha => k (h ha)

/-- A call that leaves `token_balances` alone only draws uuids. -/
theorem KeepsFresh.of_eq {db db' : Db} (hbalances : db'.token_balances = db.token_balances)
    (huuid : db.next_uuid ≤ db'.next_uuid) : KeepsFresh db db' := by
  intro h r hr
  rw [hbalances] at hr
  exact lt_of_lt_of_le (h r hr) huuid

theorem apply_holder_balance_delta_keepsFresh {db db' : Db} {source : SourceRef}
    {holder token_id : String} {delta : BalanceDelta}
    (h : apply_holder_balance_delta db source holder token_id delta = .ok db') :
    KeepsFresh db db' := by
  intro hfresh
  unfold apply_holder_balance_delta at h
  simp only [bail_eq_ok] at h
  obtain ⟨-, h⟩ := h
  split at h
  · -- an update keeps the id
    simp only [bind_eq_ok, db_result_eq_ok] at h
    obtain ⟨token_balances, hupdate, hdb⟩ := h
    cases hdb
    intro r hr
    rw [(Table.update_eq_some.1 hupdate).2] at hr
    obtain ⟨old, hold, rfl⟩ := List.mem_map.1 hr
    exact lt_of_eq_of_lt (Table.setRow_keeps TokenBalanceRow.id _ old) (hfresh old hold)
  · split at h
    · cases h
      exact hfresh
    · simp only [bind_eq_ok, db_result_eq_ok] at h
      -- an insert draws the id, which leaves the counter above it
      obtain ⟨token_balances, hinsert, hdb⟩ := h
      cases hdb
      intro r hr
      rw [(Table.insert_eq_some.1 hinsert).2, List.mem_append, List.mem_singleton] at hr
      rcases hr with hr | rfl
      · have hlt := hfresh r hr
        exact Nat.lt_succ_of_lt hlt
      · exact Nat.lt_succ_self _

theorem apply_balance_delta_keepsFresh {db db' : Db} {source : SourceRef}
    {previous : Option LedgerEntryRow} {current : LedgerEntryRow}
    (h : apply_balance_delta db source previous current = .ok db') : KeepsFresh db db' :=
  foldlM_relates KeepsFresh.refl KeepsFresh.trans
    (fun _ _ _ _ => apply_holder_balance_delta_keepsFresh) h

/-! ## When deltas go through

The other direction of `apply_balance_delta_spec`: if every balance the map leaves can be
held, every statement succeeds. Each account has one statement, so what one leaves is no
matter to the next.
-/

/-- A delta whose block bounds are ones a balance row can hold. -/
def BalanceDelta.BlocksFit (delta : BalanceDelta) : Prop :=
  NullOrNonneg delta.first_received_block ∧ NullOrNonneg delta.last_moved_block

theorem nullOrNonneg_min {a b : Option Int} (ha : NullOrNonneg a) (hb : NullOrNonneg b) :
    NullOrNonneg (min_optional_block a b) := by
  cases a with
  | none => cases b <;> exact hb
  | some a =>
    cases b with
    | none => exact ha
    | some b => exact le_min (α := Int) ha hb

theorem nullOrNonneg_max {a b : Option Int} (ha : NullOrNonneg a) (hb : NullOrNonneg b) :
    NullOrNonneg (max_optional_block a b) := by
  cases a with
  | none => cases b <;> exact hb
  | some a =>
    cases b with
    | none => exact ha
    | some b => exact le_trans ha (le_max_left a b)

/-- A delta is applied exactly where the balance it leaves is one a row can hold. -/
theorem apply_holder_balance_delta_succeeds {db : Db} {source : SourceRef} {key : Account}
    {delta : BalanceDelta} (hfresh : FreshBalanceIds db) (hstandard : source.token_standard ≠ .Auto)
    (hblocks : delta.BlocksFit)
    (hfits : BalanceFits (db.balance source.id key + delta.balance_delta)) :
    ∃ db', apply_holder_balance_delta db source key.1 key.2 delta = .ok db' := by
  unfold Db.balance at hfits
  unfold apply_holder_balance_delta
  simp only [bail_eq_ok]
  cases hfind : db.token_balances.rows.find? (TokenBalanceRow.of_holder source.id key.1 key.2) with
  -- an update keeps the checks of the row: the balance fits, and the blocks stay in range
  | some old =>
    rw [hfind] at hfits
    have hold := db.token_balances.checked old (List.mem_of_find?_eq_some hfind)
    obtain ⟨token_balances, hupdate⟩ : ∃ token_balances, db.token_balances.update
        (fun r => r.id == old.id)
        (fun r => { r with
          balance := old.balance + delta.balance_delta
          first_received_block := min_optional_block old.first_received_block
            delta.first_received_block
          last_moved_block := max_optional_block old.last_moved_block delta.last_moved_block })
        (fun _ _ => Iff.rfl) = some token_balances :=
      Table.exists_update fun r hr _ =>
        ⟨(db.token_balances.checked r hr).1, hfits.1, hfits.2,
          nullOrNonneg_min hold.2.2.2.1 hblocks.1, nullOrNonneg_max hold.2.2.2.2 hblocks.2⟩
    refine ⟨{ db with token_balances }, not_lt.2 hfits.1, ?_⟩
    simp only [Option.map_some, Option.getD_some, Option.bind_some, hupdate]
    rfl
  | none =>
    rw [hfind] at hfits
    by_cases hzero : delta.balance_delta = 0
    · exact ⟨db, not_lt.2 hfits.1, by simp [hzero]⟩
    · -- an insert needs a fresh identifier and a holder without a row
      simp only [Option.map_none, Option.getD_none, zero_add] at hfits
      have hfirst : min_optional_block none delta.first_received_block
          = delta.first_received_block := by cases delta.first_received_block <;> rfl
      have hlast : max_optional_block none delta.last_moved_block = delta.last_moved_block := by
        cases delta.last_moved_block <;> rfl
      obtain ⟨token_balances, hinsert⟩ := Table.exists_insert (t := db.token_balances)
        (r := { id := db.next_uuid, source_id := source.id, chain_id := source.chain_id
                contract_address := source.contract_address, token_standard := source.token_standard
                holder_address := key.1, token_id := key.2, balance := delta.balance_delta
                first_received_block := delta.first_received_block
                last_moved_block := delta.last_moved_block })
        ⟨hstandard, hfits.1, hfits.2, hblocks.1, hblocks.2⟩
        (by
          rintro x hx (hid | ⟨h1, h2, h3⟩)
          · exact absurd hid (Nat.ne_of_lt (hfresh x hx))
          · exact List.find?_eq_none.1 hfind x hx (of_holder_iff.2 ⟨h1, h2, h3⟩))
      refine ⟨{ db with next_uuid := db.next_uuid + 1, token_balances }, ?_, ?_⟩
      · simpa using hfits.1
      · simp only [Option.map_none, Option.getD_none, Option.bind_none, zero_add, hzero, if_false,
          hfirst, hlast, hinsert]
        rfl

/-- A map that holds each account once is worth, on a stored account, its delta. -/
theorem worth_of_mem {deltas : BalanceDeltas} (hkeys : (deltas.map (·.1)).Nodup)
    {d : Account × BalanceDelta} (hd : d ∈ deltas) : worth deltas d.1 = d.2.balance_delta := by
  unfold worth
  induction deltas with
  | nil => cases hd
  | cons x rest ih =>
    rw [List.map_cons, List.nodup_cons] at hkeys
    obtain ⟨hx, hrest⟩ := hkeys
    rw [List.map_cons, List.sum_cons]
    rcases List.mem_cons.1 hd with rfl | hd
    · have hzero : (rest.map fun e => if e.1 = d.1 then e.2.balance_delta else 0).sum = 0 := by
        refine List.sum_eq_zero fun m hm => ?_
        obtain ⟨e, he, rfl⟩ := List.mem_map.1 hm
        rw [if_neg]
        intro heq
        exact hx (heq ▸ List.mem_map_of_mem he)
      rw [if_pos rfl, hzero, add_zero]
    · rw [if_neg, zero_add, ih hrest hd]
      intro heq
      exact hx (heq ▸ List.mem_map_of_mem hd)

/-- Deltas of different accounts do not see one another: they are all applied
where each leaves a balance a row can hold. -/
theorem apply_deltas_succeeds {source : SourceRef} (hstandard : source.token_standard ≠ .Auto)
    {deltas : BalanceDeltas} (hkeys : (deltas.map (·.1)).Nodup)
    (hblocks : ∀ d ∈ deltas, d.2.BlocksFit) {db : Db} (hfresh : FreshBalanceIds db)
    (hfits : ∀ d ∈ deltas, BalanceFits (db.balance source.id d.1 + d.2.balance_delta)) :
    ∃ db', deltas.foldlM (fun db delta =>
      apply_holder_balance_delta db source delta.1.1 delta.1.2 delta.2) db = .ok db' := by
  induction deltas generalizing db with
  | nil => exact ⟨db, rfl⟩
  | cons d rest ih =>
    rw [List.map_cons, List.nodup_cons] at hkeys
    obtain ⟨hd, hrest⟩ := hkeys
    obtain ⟨mid, hmid⟩ := apply_holder_balance_delta_succeeds hfresh hstandard
      (hblocks d (List.mem_cons_self ..)) (hfits d (List.mem_cons_self ..))
    obtain ⟨-, hbal⟩ := apply_holder_balance_delta_spec hmid
    -- the other deltas are of other accounts, whose balances stay
    have hrest_fits : ∀ e ∈ rest,
        BalanceFits (mid.balance source.id e.1 + e.2.balance_delta) := by
      intro e he
      have hne : d.1 ≠ e.1 := fun heq => hd (heq ▸ List.mem_map_of_mem he)
      rw [hbal, if_neg (fun hc => hne hc.2), add_zero]
      exact hfits e (List.mem_cons_of_mem _ he)
    obtain ⟨db', hdb'⟩ := ih hrest (fun e he => hblocks e (List.mem_cons_of_mem _ he))
      (apply_holder_balance_delta_keepsFresh hmid hfresh) hrest_fits
    refine ⟨db', ?_⟩
    rw [List.foldlM_cons, bind_eq_ok]
    exact ⟨mid, hmid, hdb'⟩

/-! ## The deltas of a reversal

A map collected from one row or two has each account once, though an entry to oneself touches
it twice, and the blocks in it are blocks of rows.
-/

theorem mem_entry_or_default {deltas : BalanceDeltas} {key : Account}
    {f : BalanceDelta → BalanceDelta} {d : Account × BalanceDelta}
    (h : d ∈ entry_or_default deltas key f) :
    d ∈ deltas ∨ (d.1 = key ∧ ∃ e, ((key, e) ∈ deltas ∨ e = BalanceDelta.default) ∧ d.2 = f e) := by
  induction deltas with
  | nil =>
    rw [entry_or_default, List.mem_singleton] at h
    subst h
    exact Or.inr ⟨rfl, _, Or.inr rfl, rfl⟩
  | cons x rest ih =>
    obtain ⟨k, delta⟩ := x
    by_cases hk : k = key
    · subst hk
      rw [entry_or_default, if_pos rfl] at h
      rcases List.mem_cons.1 h with rfl | h
      · exact Or.inr ⟨rfl, delta, Or.inl (List.mem_cons_self ..), rfl⟩
      · exact Or.inl (List.mem_cons_of_mem _ h)
    · rw [entry_or_default, if_neg hk] at h
      rcases List.mem_cons.1 h with rfl | h
      · exact Or.inl (List.mem_cons_self ..)
      · rcases ih h with h | ⟨hd, e, he, hf⟩
        · exact Or.inl (List.mem_cons_of_mem _ h)
        · exact Or.inr ⟨hd, e, he.imp (List.mem_cons_of_mem _) id, hf⟩

theorem entry_or_default_keys_nodup {deltas : BalanceDeltas} {key : Account}
    {f : BalanceDelta → BalanceDelta} (h : (deltas.map (·.1)).Nodup) :
    ((entry_or_default deltas key f).map (·.1)).Nodup := by
  induction deltas with
  | nil => exact List.nodup_singleton key
  | cons x rest ih =>
    obtain ⟨k, delta⟩ := x
    rw [List.map_cons, List.nodup_cons] at h
    by_cases hk : k = key
    · subst hk
      rw [entry_or_default, if_pos rfl, List.map_cons, List.nodup_cons]
      exact h
    · rw [entry_or_default, if_neg hk, List.map_cons, List.nodup_cons]
      refine ⟨?_, ih h.2⟩
      intro hmem
      obtain ⟨d, hd, hdk⟩ := List.mem_map.1 hmem
      rcases mem_entry_or_default hd with hd | ⟨hd, -⟩
      · exact h.1 (hdk ▸ List.mem_map_of_mem hd)
      · exact hk (hdk.symm.trans hd)

theorem collect_party_keys_nodup {deltas : BalanceDeltas} {party : Option String}
    {token_id : String} {f : BalanceDelta → BalanceDelta} (h : (deltas.map (·.1)).Nodup) :
    ((collect_party deltas party token_id f).map (·.1)).Nodup := by
  cases party with
  | none => exact h
  | some holder => exact entry_or_default_keys_nodup h

theorem collect_party_blocksFit {deltas : BalanceDeltas} {party : Option String}
    {token_id : String} {f : BalanceDelta → BalanceDelta}
    (hf : ∀ d : BalanceDelta, d.BlocksFit → (f d).BlocksFit) (h : ∀ d ∈ deltas, d.2.BlocksFit) :
    ∀ d ∈ collect_party deltas party token_id f, d.2.BlocksFit := by
  cases party with
  | none => exact h
  | some holder =>
    intro d hd
    rcases mem_entry_or_default hd with hd | ⟨-, e, he, hde⟩
    · exact h d hd
    · rw [hde]
      rcases he with he | rfl
      · exact hf e (h _ he)
      · exact hf _ ⟨trivial, trivial⟩

theorem collect_balance_delta_keys_nodup {deltas : BalanceDeltas} {row : LedgerEntryRow}
    {reverse : Bool} (h : (deltas.map (·.1)).Nodup) :
    ((collect_balance_delta deltas row reverse).map (·.1)).Nodup :=
  collect_party_keys_nodup (collect_party_keys_nodup h)

/-- Only a row that is collected forwards brings its block along. -/
theorem collect_balance_delta_blocksFit {deltas : BalanceDeltas} {row : LedgerEntryRow}
    {reverse : Bool} (hblock : reverse = false → 0 ≤ row.block_number)
    (h : ∀ d ∈ deltas, d.2.BlocksFit) :
    ∀ d ∈ collect_balance_delta deltas row reverse, d.2.BlocksFit := by
  unfold collect_balance_delta
  cases reverse with
  | true => exact collect_party_blocksFit (fun d hd => hd) (collect_party_blocksFit (fun d hd => hd) h)
  | false =>
    have hrow : NullOrNonneg (some row.block_number) := hblock rfl
    refine collect_party_blocksFit (fun d hd => ?_) (collect_party_blocksFit (fun d hd => ?_) h)
    · exact ⟨nullOrNonneg_min hd.1 hrow, nullOrNonneg_max hd.2 hrow⟩
    · exact ⟨hd.1, nullOrNonneg_max hd.2 hrow⟩

/-- The deltas of a replacement touch each account once, with blocks a balance row
can hold. -/
theorem balance_deltas_fit (previous : Option LedgerEntryRow) {current : LedgerEntryRow}
    (hblock : current.orphaned = false → 0 ≤ current.block_number) :
    ((balance_deltas previous current).map (·.1)).Nodup ∧
      ∀ d ∈ balance_deltas previous current, d.2.BlocksFit := by
  have hempty : (([] : BalanceDeltas).map (·.1)).Nodup ∧ ∀ d ∈ ([] : BalanceDeltas), d.2.BlocksFit :=
    ⟨List.nodup_nil, fun d hd => absurd hd List.not_mem_nil⟩
  -- what the replaced row has left, the current row is collected on top of
  have hcurrent : ∀ deltas : BalanceDeltas,
      (deltas.map (·.1)).Nodup ∧ (∀ d ∈ deltas, d.2.BlocksFit) →
      ((if current.orphaned then deltas else collect_balance_delta deltas current false).map
        (·.1)).Nodup ∧
      ∀ d ∈ (if current.orphaned then deltas else collect_balance_delta deltas current false),
        d.2.BlocksFit := by
    rintro deltas ⟨hkeys, hfit⟩
    by_cases hc : current.orphaned = true
    · simp only [if_pos hc]
      exact ⟨hkeys, hfit⟩
    · simp only [if_neg hc]
      exact ⟨collect_balance_delta_keys_nodup hkeys,
        collect_balance_delta_blocksFit (fun _ => hblock (by simpa using hc)) hfit⟩
  unfold balance_deltas
  cases previous with
  | none => exact hcurrent [] hempty
  | some row =>
    by_cases ho : row.orphaned = true
    · simp only [if_pos ho]
      exact hcurrent [] hempty
    · simp only [if_neg ho]
      exact hcurrent _ ⟨collect_balance_delta_keys_nodup hempty.1,
        collect_balance_delta_blocksFit (fun h => by cases h) hempty.2⟩

/-- A replacement goes through where every balance it leaves is one a row can hold. -/
theorem apply_balance_delta_succeeds {source : SourceRef} (hstandard : source.token_standard ≠ .Auto)
    {db : Db} (hfresh : FreshBalanceIds db) {previous : Option LedgerEntryRow}
    {current : LedgerEntryRow} (hblock : current.orphaned = false → 0 ≤ current.block_number)
    (hfits : ∀ a, BalanceFits (db.balance source.id a + (current.contribution a
      - (previous.map (·.contribution a)).getD 0))) :
    ∃ db', apply_balance_delta db source previous current = .ok db' := by
  obtain ⟨hkeys, hblocks⟩ := balance_deltas_fit previous hblock
  have hperm := List.perm_insertionSort holder_token_le (balance_deltas previous current)
  have hnodup := (hperm.map (·.1)).nodup_iff.2 hkeys
  refine apply_deltas_succeeds hstandard hnodup (fun d hd => hblocks d (hperm.mem_iff.1 hd)) hfresh ?_
  intro d hd
  rw [← worth_of_mem hnodup hd, worth_perm hperm, balance_deltas_worth]
  exact hfits d.1

/-! ## The reversal loop

The rows are taken back one by one, and each reversal looks at the balances the last one
left. The loop goes through exactly if none of these is one a row cannot hold, and that is a
condition on the suffixes of the list.
-/

theorem contribution_of_active {row : LedgerEntryRow} (h : row.orphaned = false) (a : Account) :
    row.contribution a = row.movement.effect a := by
  simp [LedgerEntryRow.contribution, h]

/-- One reversal goes through where every balance it leaves is one a row can
hold. -/
theorem reverse_entry_succeeds {source : SourceRef} (hstandard : source.token_standard ≠ .Auto)
    {db : Db} (hfresh : FreshBalanceIds db) {row : LedgerEntryRow}
    (hfits : ∀ a, BalanceFits (db.balance source.id a - row.contribution a)) :
    ∃ db', reverse_entry source db row = .ok db' := by
  refine apply_balance_delta_succeeds hstandard hfresh ?_ fun a => ?_
  · intro hactive
    cases hactive
  · rw [contribution_set_orphaned, Option.map_some, Option.getD_some, zero_sub, ← sub_eq_add_neg]
    exact hfits a

/-- The loop goes through exactly where its reversals never take a balance to
one a row cannot hold. -/
theorem reverse_entries_iff {source : SourceRef} (hstandard : source.token_standard ≠ .Auto)
    {base : Account → Int} {rows : List LedgerEntryRow} (hactive : ∀ r ∈ rows, r.orphaned = false)
    {db : Db} (hfresh : FreshBalanceIds db)
    (hbal : ∀ a, db.balance source.id a
      = base a + Bookkeeping.net (rows.map (·.movement)) a) :
    (∃ db', rows.foldlM (reverse_entry source) db = .ok db') ↔
      UnwindsWithin BalanceFits base (rows.map (·.movement)) := by
  induction rows generalizing db with
  | nil => exact ⟨fun _ => trivial, fun _ => ⟨db, rfl⟩⟩
  | cons row rest ih =>
    have hrow : row.orphaned = false := hactive row (List.mem_cons_self ..)
    have hrest : ∀ r ∈ rest, r.orphaned = false := fun r hr => hactive r (List.mem_cons_of_mem _ hr)
    -- what the balances are once `row` is reversed
    have hleft : ∀ a, db.balance source.id a - row.contribution a
        = base a + Bookkeeping.net (rest.map (·.movement)) a := by
      intro a
      rw [hbal a, contribution_of_active hrow, List.map_cons, net_cons]
      omega
    have hmid : ∀ {mid : Db}, reverse_entry source db row = .ok mid →
        FreshBalanceIds mid ∧ ∀ a, mid.balance source.id a
          = base a + Bookkeeping.net (rest.map (·.movement)) a := by
      intro mid h
      refine ⟨apply_balance_delta_keepsFresh h hfresh, fun a => ?_⟩
      obtain ⟨-, hspec⟩ := apply_balance_delta_spec h
      rw [hspec, if_pos rfl, contribution_set_orphaned, ← hleft]
      simp only [Option.map_some, Option.getD_some]
      omega
    rw [List.map_cons, UnwindsWithin]
    constructor
    · rintro ⟨db', h⟩
      rw [List.foldlM_cons, bind_eq_ok] at h
      obtain ⟨mid, hstep, hloop⟩ := h
      obtain ⟨hfresh', hbal'⟩ := hmid hstep
      exact ⟨fun a => hbal' a ▸ balance_fits mid source.id a,
        (ih hrest hfresh' hbal').1 ⟨db', hloop⟩⟩
    · rintro ⟨hfits, hunwinds⟩
      obtain ⟨mid, hstep⟩ := reverse_entry_succeeds hstandard hfresh
        (fun a => (hleft a).symm ▸ hfits a)
      obtain ⟨hfresh', hbal'⟩ := hmid hstep
      obtain ⟨db', hloop⟩ := (ih hrest hfresh' hbal').2 hunwinds
      refine ⟨db', ?_⟩
      rw [List.foldlM_cons, bind_eq_ok]
      exact ⟨mid, hstep, hloop⟩

/-! ## Fresh identifiers in every ledger

Every call that writes balances draws the identifiers it uses, so the generator stays ahead.
-/

section Reachable

variable {parseAmount : AmountParser}

theorem persist_entry_keepsFresh {db db' : Db} {source : SourceRef} {log : RpcLog}
    {event_id : Uuid} {options : PersistDecodedLogsOptions} {entry : DecodedLedgerEntry}
    (h : persist_entry parseAmount source log event_id options db entry = .ok db') :
    KeepsFresh db db' := by
  obtain ⟨previous, current, mid, hprev, -, hupsert, happly⟩ := persist_entry_spec h
  obtain ⟨-, ledger_entries, -, -, hmid, -, -⟩ := upsert_ledger_entry_spec hprev hupsert
  have hfirst : KeepsFresh db mid :=
    KeepsFresh.of_eq (by rw [hmid]) (by rw [hmid]; exact Nat.le_succ _)
  exact hfirst.trans (apply_balance_delta_keepsFresh happly)

theorem persist_decoded_logs_keepsFresh {db db' : Db} {source : SourceRef}
    {logs : List (RpcLog × DecodedLog)} {options : PersistDecodedLogsOptions}
    {summary : ScanSummary}
    (h : persist_decoded_logs_with_options parseAmount db source logs options
      = .ok (summary, db')) : KeepsFresh db db' :=
  persist_decoded_logs_relates KeepsFresh.refl KeepsFresh.trans
    (fun _ _ => KeepsFresh.of_eq rfl (Nat.le_succ _)) persist_entry_keepsFresh h

theorem orphan_source_range_keepsFresh {db db' : Db} {source : SourceRow} {from_block to_block : Int}
    {summary : OrphanRangeSummary}
    (h : orphan_source_range db source from_block to_block = .ok (summary, db')) :
    KeepsFresh db db' := by
  obtain ⟨mid, hmid, hdb, -, -⟩ := orphan_source_range_spec h
  have hloop : KeepsFresh db mid := foldlM_relates KeepsFresh.refl KeepsFresh.trans
    (fun _ _ _ _ => apply_balance_delta_keepsFresh) hmid
  exact hloop.trans (KeepsFresh.of_eq (by rw [hdb]) (by rw [hdb]))

theorem LedgerOp.apply_keepsFresh {db db' : Db} {op : LedgerOp}
    (h : op.apply parseAmount db = .ok db') : KeepsFresh db db' := by
  cases op with
  | ensure_source chain_id name contract_address standard start_block =>
    obtain ⟨row, hrow⟩ := map_snd_eq_ok.1 h
    have hframe := ensure_source_frame hrow
    exact KeepsFresh.of_eq (by rw [hframe]) (by rw [hframe]; exact Nat.le_succ _)
  | persist_decoded_logs_with_options source logs options =>
    obtain ⟨summary, hsummary⟩ := map_snd_eq_ok.1 h
    exact persist_decoded_logs_keepsFresh hsummary
  | orphan_source_range source from_block to_block =>
    obtain ⟨summary, hsummary⟩ := map_snd_eq_ok.1 h
    exact orphan_source_range_keepsFresh hsummary
  | update_log_metadata source log =>
    obtain ⟨summary, hsummary⟩ := map_snd_eq_ok.1 h
    unfold EvmIndexer.update_log_metadata at hsummary
    simp only [bind_eq_ok, db_result_eq_ok] at hsummary
    obtain ⟨_, -, _, -, _, -, events, -, ledger_entries, -, hdb⟩ := hsummary
    cases hdb
    exact KeepsFresh.of_eq rfl (le_refl _)

theorem LedgerReachable.freshBalanceIds {db : Db} (h : LedgerReachable parseAmount db) :
    FreshBalanceIds db := by
  refine ledger_invariant (I := FreshBalanceIds) (fun r hr => nomatch hr) ?_ ?_ h
  · intro db op db' hdb hop
    exact LedgerOp.apply_keepsFresh hop hdb
  · intro db db' hdb hsame r hr
    rw [hsame.next_uuid]
    exact hdb r (hsame.token_balances.mem_iff.2 hr)

/-! ## When a range can be orphaned

The loop is the only part of the call that depends on balances. Marking the rows breaks no
constraint, and a range of a known source can be locked, so the call commits exactly if the
loop goes through.
-/

/-- Orphaning the range commits, marks exactly the active rows of the range, and
leaves every balance at the net outside it. -/
def Orphans (db : Db) (source : SourceRow) (from_block to_block : Int) : Prop :=
  ∃ summary db', orphan_source_range db source from_block to_block = .ok (summary, db') ∧
    db'.ledger_entries.rows = db.ledger_entries.rows.map (Table.setRow
      (LedgerEntryRow.active_in source.id from_block to_block) (LedgerEntryRow.set_orphaned true)) ∧
    db'.events.rows = db.events.rows.map (Table.setRow
      (EventRow.active_in source.id from_block to_block) (EventRow.set_orphaned true)) ∧
    ∀ a, db'.balance source.id a = db.net_outside source.id from_block to_block a

/-- At every row of the range, what the rest of the range and the rows outside
it net is a balance a row can hold. -/
def UnwindsForwards (db : Db) (source_id : Uuid) (from_block to_block : Int) : Prop :=
  ∀ before row rest, active_rows_in db source_id from_block to_block = before ++ row :: rest →
    ∀ a, BalanceFits (db.net_outside source_id from_block to_block a
      + Bookkeeping.net (rest.map (·.movement)) a)

theorem unwindsForwards_iff {db : Db} {source_id : Uuid} {from_block to_block : Int} :
    UnwindsForwards db source_id from_block to_block ↔
      UnwindsWithin BalanceFits (db.net_outside source_id from_block to_block)
        ((active_rows_in db source_id from_block to_block).map (·.movement)) := by
  rw [UnwindsWithin.of_suffix]
  constructor
  · intro h pre m post hsplit a
    obtain ⟨before, tail, hrows, rfl, htail⟩ := List.map_eq_append_iff.1 hsplit
    obtain ⟨row, rest, rfl, rfl, rfl⟩ := List.map_eq_cons_iff.1 htail
    exact h before row rest hrows a
  · intro h before row rest hrows a
    exact h (before.map (·.movement)) row.movement (rest.map (·.movement))
      (by rw [hrows, List.map_append, List.map_cons]) a

theorem lock_source_of_mem {db : Db} {source : SourceRow} (hsource : source ∈ db.sources.rows) :
    lock_source_for_write_conn db source.from_source = .ok () := by
  have hfind : db.sources.rows.find? (fun r => r.id == source.from_source.id) = some source := by
    refine (db.sources.find?_eq_some_iff ?_).2 ⟨hsource, beq_self_eq_true _⟩
    intro a _ b _ ha hb
    exact Or.inl ((beq_iff_eq.1 ha).trans (beq_iff_eq.1 hb).symm)
  unfold lock_source_for_write_conn
  rw [hfind]

/-- Active rows contribute their movements. -/
theorem sum_contribution_eq_net {rows : List LedgerEntryRow}
    (hactive : ∀ r ∈ rows, r.orphaned = false) (a : Account) :
    (rows.map (·.contribution a)).sum = Bookkeeping.net (rows.map (·.movement)) a := by
  unfold Bookkeeping.net
  rw [List.map_map]
  exact congrArg List.sum
    (List.map_congr_left fun r hr => contribution_of_active (hactive r hr) a)

/-- Marking rows orphaned breaks no constraint. -/
theorem exists_mark_orphaned (db : Db) (source_id : Uuid) (from_block to_block : Int) :
    (∃ t, db.ledger_entries.update (LedgerEntryRow.active_in source_id from_block to_block)
        (LedgerEntryRow.set_orphaned true) (LedgerEntryRow.set_orphaned_keeps_keys true) = some t) ∧
      ∃ t, db.events.update (EventRow.active_in source_id from_block to_block)
        (EventRow.set_orphaned true) (EventRow.set_orphaned_keeps_keys true) = some t :=
  ⟨Table.exists_update fun r hr _ => db.ledger_entries.checked r hr,
    Table.exists_update fun r hr _ => db.events.checked r hr⟩

/-- Orphaning a range leaves no active event in it. -/
theorem events_orphaned {db db' : Db} {source : SourceRow} {from_block to_block : Int}
    {summary : OrphanRangeSummary}
    (h : orphan_source_range db source from_block to_block = .ok (summary, db')) :
    ∀ e ∈ db'.events.rows, ¬ e.active_in source.id from_block to_block = true := by
  obtain ⟨-, -, -, -, hrows⟩ := orphan_source_range_spec h
  intro e he hactive
  rw [hrows] at he
  refine ((Table.mem_filter_map_setRow fun old => ?_).1 (List.mem_filter.2 ⟨he, hactive⟩)).2 hactive
  simp [EventRow.active_in, EventRow.set_orphaned]

/-- A range of a known source is orphaned exactly where its rows, taken back in
ascending order, never leave a balance a row cannot hold. -/
theorem orphan_source_range_commits_iff {db : Db} (h : LedgerReachable parseAmount db)
    {source : SourceRow} (hsource : source ∈ db.sources.rows) {from_block to_block : Int}
    (hfrom : 0 ≤ from_block) (hrange : from_block ≤ to_block) :
    Orphans db source from_block to_block ↔ UnwindsForwards db source.id from_block to_block := by
  have hstandard : source.from_source.token_standard ≠ .Auto := (db.sources.checked source hsource).1
  have hactive : ∀ r ∈ active_rows_in db source.id from_block to_block, r.orphaned = false := by
    intro r hr
    have hmem := (List.mem_insertionSort _).1 hr
    exact (active_in_iff.1 (List.mem_filter.1 hmem).2).2.2.2
  have hbal : ∀ a, db.balance source.id a = db.net_outside source.id from_block to_block a
      + Bookkeeping.net ((active_rows_in db source.id from_block to_block).map (·.movement)) a :=
    fun a => (h.balanced source.id a).trans (net_eq_outside_add_inside db source.id _ _ a)
  -- the loop over the entries is what can fail
  have hloop := reverse_entries_iff hstandard hactive h.freshBalanceIds hbal
  rw [unwindsForwards_iff, ← hloop]
  constructor
  · rintro ⟨summary, db', horphan, -⟩
    obtain ⟨mid, hmid, -⟩ := orphan_source_range_spec horphan
    exact ⟨mid, hmid⟩
  · rintro ⟨mid, hmid⟩
    obtain ⟨hframe, hspec⟩ := reverse_entries_spec hmid
    -- past the loop the two updates cannot fail
    obtain ⟨⟨ledger_entries, hentries⟩, events, hevents⟩ :=
      exists_mark_orphaned mid source.id from_block to_block
    have hlock := lock_source_of_mem hsource
    have hentries' : ledger_entries.rows = _ := (Table.update_eq_some.1 hentries).2
    have hevents' : events.rows = _ := (Table.update_eq_some.1 hevents).2
    -- the loop has written balances only
    rw [hframe.ledger_entries] at hentries'
    rw [hframe.events] at hevents'
    let summary : OrphanRangeSummary :=
      { events_orphaned := (mid.events.rows.filter
          (EventRow.active_in source.id from_block to_block)).length
        ledger_entries_orphaned := (mid.ledger_entries.rows.filter
          (LedgerEntryRow.active_in source.id from_block to_block)).length }
    refine ⟨summary, { mid with ledger_entries, events }, ?_, hentries', hevents', fun a => ?_⟩
    · unfold orphan_source_range
      simp only [bail_eq_ok, context_eq_ok, bind_eq_ok, db_result_eq_ok]
      exact ⟨by omega, by omega, (), hlock, mid, hmid, ledger_entries, hentries, events, hevents, rfl⟩
    · -- what is left of a balance is what the blocks outside the range gave
      have hmid_balance := hspec source.id a
      have hid : source.id = source.from_source.id := rfl
      rw [if_pos hid, sum_contribution_eq_net hactive, hbal a] at hmid_balance
      have hframe_balance : Db.balance { mid with ledger_entries, events } source.id a
          = mid.balance source.id a := rfl
      rw [hframe_balance, hmid_balance]
      omega

end Reachable

theorem orphan_source_range_commits_iff_mint_then_transfer :
    let db := (small_ledger mint_then_transfer).foldl (LedgerOp.commit plain_digits) Db.empty
    Orphans db small_source 1 2 ↔ UnwindsForwards db small_source.id 1 2 :=
  orphan_source_range_commits_iff (LedgerReachable.empty.commits _) (by decide +kernel)
    (by decide) (by decide)

/-- After a mint in block 1 and its transfer in block 2 nothing would remain
outside blocks 1 to 2, yet they cannot be orphaned: the mint is taken back first. -/
theorem orphan_refuses_mint_then_transfer :
    ¬ ∀ (parseAmount : AmountParser) (db : Db), LedgerReachable parseAmount db →
      ∀ source ∈ db.sources.rows, ∀ from_block to_block : Int, 0 ≤ from_block →
        from_block ≤ to_block → (∀ a, 0 ≤ db.net_outside source.id from_block to_block a) →
        Orphans db source from_block to_block := by
  intro h
  have hreach : LedgerReachable plain_digits _ :=
    LedgerReachable.empty.commits (small_ledger mint_then_transfer)
  obtain ⟨summary, db', horphan, -⟩ := h plain_digits _ hreach small_source (by decide +kernel) 1 2
    (by decide) (by decide) (by
      intro a
      have hnone : ((Db.active_entries ((small_ledger mint_then_transfer).foldl
          (LedgerOp.commit plain_digits) Db.empty) small_source.id).filter fun r =>
            !r.in_range 1 2) = [] := by decide +kernel
      unfold Db.net_outside
      rw [hnone]
      exact le_refl _)
  have hrefused : (orphan_source_range ((small_ledger mint_then_transfer).foldl
      (LedgerOp.commit plain_digits) Db.empty) small_source 1 2).isOk = false := by decide +kernel
  rw [horphan] at hrefused
  cases hrefused

end EvmIndexer
