/-
`application/reorg.rs`: what verification finds, and the ranges it records it in.

The hashes a source stores for a range of blocks are those of its non-orphaned events
and that of its checkpoint. Verification asks the chain for the hash of every block
that has one, and reports the stored hashes that are not the chain's, in the order of
their blocks and, within a block, of the hashes. `record_reorg_ranges` cuts the report
where the next mismatch is not of the next block: it is `List.splitBy`, so nothing is
lost and every range is a run of consecutive blocks.

A block with two stored hashes that are both not the chain's has two mismatches, and the
cut falls between them. The ranges are then not disjoint.
-/
import EvmIndexer.Reorg
import Mathlib.Data.List.SplitBy
import Mathlib.Data.String.Basic

set_option autoImplicit false

namespace EvmIndexer

open Sql Program

/-! ## The hashes of a range

The set is ordered by block and then by hash. So two hashes of one block are neighbours in
it, and that is where the cut into ranges comes from.
-/

/-- The order of `IndexedBlockHash.le`, strict. -/
def IndexedBlockHash.lt (a b : IndexedBlockHash) : Prop :=
  a.block_number < b.block_number ∨ (a.block_number = b.block_number ∧ a.block_hash < b.block_hash)

theorem indexed_le_total (a b : IndexedBlockHash) : a.le b ∨ b.le a := by
  unfold IndexedBlockHash.le
  rcases lt_trichotomy a.block_number b.block_number with hlt | heq | hgt
  · exact Or.inl (Or.inl hlt)
  · rcases le_total a.block_hash b.block_hash with hle | hle
    · exact Or.inl (Or.inr ⟨heq, hle⟩)
    · exact Or.inr (Or.inr ⟨heq.symm, hle⟩)
  · exact Or.inr (Or.inl hgt)

theorem indexed_le_trans {a b c : IndexedBlockHash} (hab : a.le b) (hbc : b.le c) : a.le c := by
  rcases hab with hab | ⟨hab, hhash⟩
  · rcases hbc with hbc | ⟨hbc, -⟩
    · exact Or.inl (by omega)
    · exact Or.inl (by omega)
  · rcases hbc with hbc | ⟨hbc, hhash'⟩
    · exact Or.inl (by omega)
    · exact Or.inr ⟨by omega, le_trans hhash hhash'⟩

theorem indexed_lt_of_le {a b : IndexedBlockHash} (hle : a.le b) (hne : a ≠ b) : a.lt b := by
  rcases hle with hlt | ⟨heq, hhash⟩
  · exact Or.inl hlt
  · refine Or.inr ⟨heq, lt_of_le_of_ne hhash fun hsame => hne ?_⟩
    cases a
    cases b
    simp_all only

/-- The set verification walks is ascending, without repetitions. -/
theorem expected_ascending (db : Db) (source_id : Uuid) (from_block to_block : Int) :
    (expected_block_hashes db source_id from_block to_block).Pairwise IndexedBlockHash.lt := by
  have : Std.Total IndexedBlockHash.le := ⟨indexed_le_total⟩
  have : IsTrans IndexedBlockHash IndexedBlockHash.le := ⟨fun _ _ _ => indexed_le_trans⟩
  have hsorted : (expected_block_hashes db source_id from_block to_block).Pairwise
      IndexedBlockHash.le := by
    unfold expected_block_hashes btree_set
    exact List.pairwise_insertionSort IndexedBlockHash.le _
  have hnodup := expected_nodup db source_id from_block to_block
  refine (hsorted.and hnodup).imp ?_
  rintro a b ⟨hle, hne⟩
  exact indexed_lt_of_le hle hne

/-- The source stores the hash for a block of the range: as that of a non-orphaned event,
or as that of its checkpoint. -/
def StoresHash (db : Db) (source_id : Uuid) (from_block to_block : Int)
    (indexed : IndexedBlockHash) : Prop :=
  (∃ e ∈ db.events.rows, e.active_in source_id from_block to_block = true ∧
      indexed = { block_number := e.block_number, block_hash := e.block_hash }) ∨
    ∃ c ∈ db.checkpoints.rows, c.source_id = source_id ∧
      (from_block ≤ c.processed_block ∧ c.processed_block ≤ to_block) ∧
      indexed = { block_number := c.processed_block, block_hash := c.processed_block_hash }

theorem mem_expected_iff {db : Db} {source_id : Uuid} {from_block to_block : Int}
    {indexed : IndexedBlockHash} :
    indexed ∈ expected_block_hashes db source_id from_block to_block ↔
      StoresHash db source_id from_block to_block indexed := by
  unfold expected_block_hashes indexed_block_hashes StoresHash
  rw [mem_btree_set, List.mem_append, mem_btree_set, List.mem_map, Option.mem_toList]
  -- the hashes of the active events, and the hash of the checkpoint
  refine or_congr ?_ ?_
  · constructor
    · rintro ⟨e, he, rfl⟩
      obtain ⟨hmem, hactive⟩ := List.mem_filter.1 he
      exact ⟨e, hmem, hactive, rfl⟩
    · rintro ⟨e, hmem, hactive, rfl⟩
      exact ⟨e, List.mem_filter.2 ⟨hmem, hactive⟩, rfl⟩
  · unfold checkpoint_block_hash
    rw [Option.bind_eq_some_iff]
    constructor
    · rintro ⟨c, hc, hin⟩
      obtain ⟨hmem, hsource⟩ := checkpoint_for_source_eq_some.1 hc
      by_cases hrange : from_block ≤ c.processed_block ∧ c.processed_block ≤ to_block
      · rw [if_pos hrange] at hin
        exact ⟨c, hmem, hsource, hrange, (Option.some_inj.1 hin).symm⟩
      · rw [if_neg hrange] at hin
        cases hin
    · rintro ⟨c, hmem, hsource, hrange, rfl⟩
      refine ⟨c, checkpoint_for_source_eq_some.2 ⟨hmem, hsource⟩, ?_⟩
      rw [if_pos hrange]

/-! ## The mismatches

Each stored hash is compared with the answer for its block, up to letter case. The loop drops
those that agree and stops at the first request that fails.
-/

/-- The chain answered with another hash than the stored one. -/
def Mismatched (rpc : ChainRpc) (indexed : IndexedBlockHash) : Prop :=
  ∃ actual, rpc.block_hash indexed.block_number.toNat = .ok actual ∧
    to_ascii_lowercase indexed.block_hash ≠ to_ascii_lowercase actual

/-- What verification notes about a stored hash. -/
def hash_mismatch (rpc : ChainRpc) (indexed : IndexedBlockHash) : Option ReorgMismatch :=
  match rpc.block_hash indexed.block_number.toNat with
  | .ok actual =>
    if to_ascii_lowercase indexed.block_hash ≠ to_ascii_lowercase actual then
      some (indexed.mismatch actual)
    else none
  | .error _ => none

section Mismatches

variable {rpc : ChainRpc}

theorem hash_mismatch_eq_some {indexed : IndexedBlockHash} {mismatch : ReorgMismatch} :
    hash_mismatch rpc indexed = some mismatch ↔
      ∃ actual, rpc.block_hash indexed.block_number.toNat = .ok actual ∧
        to_ascii_lowercase indexed.block_hash ≠ to_ascii_lowercase actual ∧
        mismatch = indexed.mismatch actual := by
  unfold hash_mismatch
  cases rpc.block_hash indexed.block_number.toNat with
  | error e =>
    constructor
    · intro h
      cases h
    · rintro ⟨actual, h, -⟩
      cases h
  | ok actual =>
    by_cases hother : to_ascii_lowercase indexed.block_hash ≠ to_ascii_lowercase actual
    · simp only [if_pos hother, Option.some_inj]
      constructor
      · rintro rfl
        exact ⟨actual, rfl, hother, rfl⟩
      · rintro ⟨answer, hanswer, -, rfl⟩
        rw [Except.ok.inj hanswer]
    · simp only [if_neg hother]
      constructor
      · intro h
        cases h
      · rintro ⟨answer, hanswer, hne, -⟩
        rw [← Except.ok.inj hanswer] at hne
        exact absurd hne hother

/-- A noted mismatch is of the block of the hash it is about. -/
theorem hash_mismatch_block {indexed : IndexedBlockHash} {mismatch : ReorgMismatch}
    (h : hash_mismatch rpc indexed = some mismatch) :
    mismatch.block_number = indexed.block_number ∧ Mismatched rpc indexed := by
  obtain ⟨actual, hactual, hother, rfl⟩ := hash_mismatch_eq_some.1 h
  exact ⟨rfl, actual, hactual, hother⟩

theorem hash_mismatch_of_mismatched {indexed : IndexedBlockHash} (h : Mismatched rpc indexed) :
    ∃ mismatch, hash_mismatch rpc indexed = some mismatch ∧
      mismatch.block_number = indexed.block_number := by
  obtain ⟨actual, hactual, hother⟩ := h
  exact ⟨indexed.mismatch actual, hash_mismatch_eq_some.2 ⟨actual, hactual, hother, rfl⟩, rfl⟩

/-- The loop returns what it notes about each hash, when every call answers. -/
theorem block_mismatches_eq_ok {expected : List IndexedBlockHash} {mismatches : List ReorgMismatch} :
    block_mismatches rpc expected = .ok mismatches ↔
      (∀ indexed ∈ expected, ∃ actual, rpc.block_hash indexed.block_number.toNat = .ok actual) ∧
        mismatches = expected.filterMap (hash_mismatch rpc) := by
  induction expected generalizing mismatches with
  | nil =>
    unfold block_mismatches
    rw [Except.ok.injEq, List.filterMap_nil]
    constructor
    · intro h
      exact ⟨fun indexed hindexed => absurd hindexed List.not_mem_nil, h.symm⟩
    · intro h
      exact h.2.symm
  | cons indexed rest ih =>
    unfold block_mismatches
    simp only [EvmIndexer.bind_eq_ok, context_eq_ok]
    rw [List.forall_mem_cons]
    constructor
    · rintro ⟨actual, hactual, others, hothers, h⟩
      obtain ⟨hanswers, rfl⟩ := ih.1 hothers
      refine ⟨⟨⟨actual, hactual⟩, hanswers⟩, ?_⟩
      -- the hashes are compared in lower case, and only a different one is noted
      by_cases hother : to_ascii_lowercase indexed.block_hash ≠ to_ascii_lowercase actual
      · rw [if_pos hother] at h
        have hnoted := hash_mismatch_eq_some.2 ⟨actual, hactual, hother, rfl⟩
        rw [List.filterMap_cons_some hnoted, Except.ok.inj h]
      · rw [if_neg hother] at h
        have hnone : hash_mismatch rpc indexed = none := by
          unfold hash_mismatch
          rw [hactual]
          exact if_neg hother
        rw [List.filterMap_cons_none hnone, Except.ok.inj h]
    · rintro ⟨⟨⟨actual, hactual⟩, hanswers⟩, rfl⟩
      refine ⟨actual, hactual, _, ih.2 ⟨hanswers, rfl⟩, ?_⟩
      by_cases hother : to_ascii_lowercase indexed.block_hash ≠ to_ascii_lowercase actual
      · have hnoted := hash_mismatch_eq_some.2 ⟨actual, hactual, hother, rfl⟩
        rw [if_pos hother, List.filterMap_cons_some hnoted]
      · have hnone : hash_mismatch rpc indexed = none := by
          unfold hash_mismatch
          rw [hactual]
          exact if_neg hother
        rw [if_neg hother, List.filterMap_cons_none hnone]

theorem block_try_from_eq {argument : String} {block : Nat} {fits : Int}
    (h : block_try_from argument block = .ok fits) : fits = block := by
  unfold block_try_from at h
  by_cases hlarge : 2 ^ 63 ≤ block
  · rw [if_pos hlarge] at h
    cases h
  · rw [if_neg hlarge] at h
    exact (Except.ok.inj h).symm

/-- What verification took, when it returned. -/
theorem verify_source_reorgs_eq_ok {source : SourceRef} {from_block to_block : Nat} {s t : Service}
    {verification : ReorgVerification}
    (h : verify_source_reorgs rpc source from_block to_block s = .ok verification t) :
    (∀ indexed ∈ expected_block_hashes s.db source.id from_block to_block,
        ∃ actual, rpc.block_hash indexed.block_number.toNat = .ok actual) ∧
      verification.mismatches
        = (expected_block_hashes s.db source.id from_block to_block).filterMap (hash_mismatch rpc) ∧
      record_reorg_ranges source verification.mismatches s = .ok () t := by
  unfold verify_source_reorgs at h
  by_cases hordered : to_block < from_block
  · rw [if_pos hordered] at h
    cases h
  · rw [if_neg hordered] at h
    simp only [Program.bind_eq_ok, ask_eq_ok, get_eq_ok, Program.pure_eq_ok] at h
    obtain ⟨from_fits, _, ⟨hfrom, rfl⟩, to_fits, _, ⟨hto, rfl⟩, service, _, ⟨rfl, rfl⟩,
      mismatches, _, ⟨hmismatches, rfl⟩, _, _, hrecord, rfl, rfl⟩ := h
    rw [block_try_from_eq hfrom, block_try_from_eq hto] at hmismatches
    obtain ⟨hanswers, heq⟩ := block_mismatches_eq_ok.1 hmismatches
    exact ⟨hanswers, heq, hrecord⟩

/-- A call that fails ends the verification before it has recorded anything. -/
theorem verify_source_reorgs_of_error {source : SourceRef} {from_block to_block : Nat} {s : Service}
    {indexed : IndexedBlockHash} {error : String}
    (hindexed : indexed ∈ expected_block_hashes s.db source.id from_block to_block)
    (herror : rpc.block_hash indexed.block_number.toNat = .error error) :
    ∃ e, verify_source_reorgs rpc source from_block to_block s = .error e s := by
  cases hresult : verify_source_reorgs rpc source from_block to_block s with
  | ok verification t =>
    obtain ⟨actual, hactual⟩ := (verify_source_reorgs_eq_ok hresult).1 indexed hindexed
    rw [herror] at hactual
    cases hactual
  | error e t =>
    suffices hsame : s = t by rw [hsame]; exact ⟨e, rfl⟩
    unfold verify_source_reorgs at hresult
    by_cases hordered : to_block < from_block
    · rw [if_pos hordered] at hresult
      exact (EStateM.Result.error.inj hresult).2
    · rw [if_neg hordered] at hresult
      simp only [Program.bind_eq_error, ask_eq_error, ask_eq_ok] at hresult
      rcases hresult with ⟨-, hs⟩ | ⟨from_fits, _, ⟨hfrom, rfl⟩, ⟨-, hs⟩ | ⟨to_fits, _, ⟨hto, rfl⟩,
        hresult⟩⟩
      · exact hs
      · exact hs
      · -- the loop is behind the last question, so it did not return
        simp only [get_eq_ok] at hresult
        rcases hresult with hget | ⟨service, _, ⟨rfl, rfl⟩, ⟨-, hs⟩ | ⟨mismatches, _, ⟨hreturned, -⟩,
          -⟩⟩
        · cases hget
        · exact hs
        · rw [block_try_from_eq hfrom, block_try_from_eq hto] at hreturned
          obtain ⟨actual, hactual⟩ := (block_mismatches_eq_ok.1 hreturned).1 indexed hindexed
          rw [herror] at hactual
          cases hactual

end Mismatches

/-! ## The ranges

The loop compares each mismatch with the one before it. A range goes on for the next block,
and ends for any other, the same block included.
-/

/-- The second mismatch is of the block after the first: the test of
`record_reorg_ranges`. Blocks are below `i64::MAX`, so its `+ 1` does not overflow. -/
def next_block (previous mismatch : ReorgMismatch) : Bool :=
  mismatch.block_number == previous.block_number + 1

/-- The loop of `record_reorg_ranges` is the loop of `List.splitBy`, which keeps the range
it is building in reverse and the finished ones in front. -/
theorem splitBy_loop_eq (rest : List ReorgMismatch) (previous : ReorgMismatch)
    (built : List ReorgMismatch) (finished : List (List ReorgMismatch)) :
    List.splitBy.loop next_block rest previous built finished
      = finished.reverse ++ reorg_ranges (built.reverse ++ [previous]) previous rest := by
  induction rest generalizing previous built finished with
  | nil =>
    unfold List.splitBy.loop reorg_ranges
    rw [List.reverse_cons, List.reverse_cons]
  | cons mismatch rest ih =>
    unfold List.splitBy.loop reorg_ranges
    by_cases hnext : mismatch.block_number = previous.block_number + 1
    · have hsame : next_block previous mismatch = true := beq_iff_eq.2 hnext
      rw [if_pos hnext, hsame]
      simp only
      rw [ih, List.reverse_cons]
    · have hcut : next_block previous mismatch = false := beq_eq_false_iff_ne.2 hnext
      rw [if_neg hnext, hcut]
      simp only
      rw [ih, List.reverse_cons, List.reverse_cons, List.append_assoc]
      rfl

/-- `record_reorg_ranges` cuts the mismatches where the next one is not of the next block. -/
theorem reorg_ranges_eq_splitBy (first : ReorgMismatch) (rest : List ReorgMismatch) :
    reorg_ranges [first] first rest = (first :: rest).splitBy next_block := by
  exact (splitBy_loop_eq rest first [] []).symm

/-- The row a range is recorded as. -/
def RecordedAs (source : SourceRef) (range : List ReorgMismatch) (event : ReorgEventInsert) : Prop :=
  ∃ first last, range.head? = some first ∧ range.getLast? = some last ∧
    event = (reorg_event source first last range).row

/-- Recording a range adds its row. -/
theorem record_reorg_range_eq_ok {source : SourceRef} {range : List ReorgMismatch} {s t : Service}
    (h : record_reorg_range source range s = .ok () t) :
    ∃ event, RecordedAs source range event ∧
      t = { s with reorg_events := s.reorg_events ++ [event] } := by
  unfold record_reorg_range at h
  cases hfirst : range.head? with
  | none =>
    rw [hfirst] at h
    cases h
  | some first =>
    cases hlast : range.getLast? with
    | none =>
      rw [hfirst, hlast] at h
      cases h
    | some last =>
      rw [hfirst, hlast] at h
      simp only [transaction_eq_ok, context_eq_ok] at h
      unfold record_reorg_event at h
      rw [bail_eq_ok] at h
      have hrow := (Prod.mk.inj (Except.ok.inj h.2)).2
      exact ⟨_, ⟨first, last, hfirst, hlast, rfl⟩, hrow.symm⟩

theorem record_each_eq_ok {source : SourceRef} {ranges : List (List ReorgMismatch)} {s t : Service}
    (h : record_each source ranges s = .ok () t) :
    ∃ recorded, List.Forall₂ (RecordedAs source) ranges recorded ∧
      t = { s with reorg_events := s.reorg_events ++ recorded } := by
  induction ranges generalizing s with
  | nil =>
    unfold record_each at h
    obtain ⟨-, rfl⟩ := Program.pure_eq_ok.1 h
    exact ⟨[], List.Forall₂.nil, by rw [List.append_nil]⟩
  | cons range rest ih =>
    unfold record_each at h
    rw [Program.bind_eq_ok] at h
    obtain ⟨_, mid, hrange, hrest⟩ := h
    obtain ⟨recorded, hrecorded, rfl⟩ := ih hrest
    obtain ⟨event, hevent, rfl⟩ := record_reorg_range_eq_ok hrange
    exact ⟨event :: recorded, List.Forall₂.cons hevent hrecorded, by rw [List.append_assoc]; rfl⟩

/-- What recording the mismatches of a verification adds to `reorg_events`. -/
theorem record_reorg_ranges_eq_ok {source : SourceRef} {mismatches : List ReorgMismatch}
    {s t : Service} (h : record_reorg_ranges source mismatches s = .ok () t) :
    ∃ recorded, List.Forall₂ (RecordedAs source) (mismatches.splitBy next_block) recorded ∧
      t = { s with reorg_events := s.reorg_events ++ recorded } := by
  cases mismatches with
  | nil =>
    unfold record_reorg_ranges at h
    obtain ⟨-, rfl⟩ := Program.pure_eq_ok.1 h
    exact ⟨[], List.Forall₂.nil, by rw [List.append_nil]⟩
  | cons first rest =>
    have hcut : record_reorg_ranges source (first :: rest)
        = record_each source ((first :: rest).splitBy next_block) := by
      rw [← reorg_ranges_eq_splitBy]
      rfl
    rw [hcut] at h
    exact record_each_eq_ok h

section Recorded

variable {source : SourceRef} {recorded : List ReorgEventInsert}

/-- The details of the recorded events are the ranges. -/
theorem recorded_mismatches {ranges : List (List ReorgMismatch)}
    (h : List.Forall₂ (RecordedAs source) ranges recorded) : recorded.map (·.mismatches) = ranges := by
  induction h with
  | nil => rfl
  | cons hevent _ ih =>
    obtain ⟨first, last, -, -, rfl⟩ := hevent
    rw [List.map_cons, ih]
    rfl

/-- Every recorded event is the row of one of the ranges. -/
theorem recorded_range {ranges : List (List ReorgMismatch)}
    (h : List.Forall₂ (RecordedAs source) ranges recorded) {event : ReorgEventInsert}
    (hevent : event ∈ recorded) : ∃ range ∈ ranges, RecordedAs source range event := by
  induction h with
  | nil => exact absurd hevent List.not_mem_nil
  | cons hfirst _ ih =>
    rcases List.mem_cons.1 hevent with rfl | hrest
    · exact ⟨_, List.mem_cons_self .., hfirst⟩
    · obtain ⟨range, hrange, hrecorded⟩ := ih hrest
      exact ⟨range, List.mem_cons_of_mem _ hrange, hrecorded⟩

/-- A recorded event is of the blocks of its details, which follow each other. -/
structure SpansDetails (event : ReorgEventInsert) : Prop where
  from_block : ∃ first, event.mismatches.head? = some first ∧ event.from_block = first.block_number
  to_block : ∃ last, event.mismatches.getLast? = some last ∧ event.to_block = last.block_number
  consecutive : event.mismatches.IsChain fun previous mismatch =>
    mismatch.block_number = previous.block_number + 1

theorem recorded_spans {mismatches : List ReorgMismatch}
    (h : List.Forall₂ (RecordedAs source) (mismatches.splitBy next_block) recorded) :
    ∀ event ∈ recorded, SpansDetails event := by
  intro event hevent
  obtain ⟨range, hrange, first, last, hfirst, hlast, rfl⟩ := recorded_range h hevent
  refine ⟨⟨first, hfirst, rfl⟩, ⟨last, hlast, rfl⟩, ?_⟩
  exact (List.isChain_of_mem_splitBy hrange).imp fun _ _ hnext => beq_iff_eq.1 hnext

end Recorded

/-! ## Verification is exact

Exactness is about the report and about the table. The report has every stored hash that the
chain contradicts, in order; the details of the recorded events, read one after the other,
are the report; and nothing is recorded where a request fails.
-/

/-- What a verification that returned reports and records: the stored hashes of the range
that are not the chain's, in the order of their blocks, each once, and what it adds to the
reorg events covers exactly these. -/
structure Detected (rpc : ChainRpc) (source : SourceRef) (from_block to_block : Int) (s : Service)
    (verification : ReorgVerification) (t : Service) : Prop where
  ascending : (verification.mismatches.map fun mismatch =>
    { block_number := mismatch.block_number
      block_hash := mismatch.expected_block_hash : IndexedBlockHash }).Pairwise IndexedBlockHash.lt
  exact : ∀ mismatch, mismatch ∈ verification.mismatches ↔
    ∃ indexed actual, StoresHash s.db source.id from_block to_block indexed ∧
      rpc.block_hash indexed.block_number.toNat = .ok actual ∧
      indexed.block_hash ≠ to_ascii_lowercase actual ∧
      mismatch =
        { block_number := indexed.block_number
          expected_block_hash := indexed.block_hash
          actual_block_hash := to_ascii_lowercase actual }
  recorded : ∃ recorded, t = { s with reorg_events := s.reorg_events ++ recorded } ∧
    (recorded.map (·.mismatches)).flatten = verification.mismatches ∧
    ∀ event ∈ recorded, SpansDetails event

/-- Verification finds exactly the stored hashes that are not the chain's, and loses none
on the way into `reorg_events`; where a call fails it records nothing. -/
theorem verification_is_exact (rpc : ChainRpc) (source : SourceRef) (from_block to_block : Nat)
    (s : Service) (hlower : ∀ indexed, StoresHash s.db source.id from_block to_block indexed →
      to_ascii_lowercase indexed.block_hash = indexed.block_hash) :
    (∀ verification t, verify_source_reorgs rpc source from_block to_block s = .ok verification t →
      Detected rpc source from_block to_block s verification t) ∧
    ∀ indexed error, StoresHash s.db source.id from_block to_block indexed →
      rpc.block_hash indexed.block_number.toNat = .error error →
      ∃ e, verify_source_reorgs rpc source from_block to_block s = .error e s := by
  constructor
  · intro verification t h
    obtain ⟨-, hmismatches, hrecord⟩ := verify_source_reorgs_eq_ok h
    obtain ⟨recorded, hrecorded, ht⟩ := record_reorg_ranges_eq_ok hrecord
    -- a stored hash is in lower case, so a mismatch shows it as it is stored
    have hshows : ∀ indexed ∈ expected_block_hashes s.db source.id from_block to_block,
        ∀ mismatch, hash_mismatch rpc indexed = some mismatch →
          mismatch.expected_block_hash = indexed.block_hash := by
      intro indexed hindexed mismatch hnoted
      obtain ⟨actual, -, -, rfl⟩ := hash_mismatch_eq_some.1 hnoted
      exact hlower indexed (mem_expected_iff.1 hindexed)
    refine ⟨?_, ?_, recorded, ht, ?_, recorded_spans hrecorded⟩
    · rw [hmismatches, List.pairwise_map, List.pairwise_filterMap]
      refine (expected_ascending s.db source.id from_block to_block).imp_of_mem ?_
      intro a b ha hb hlt mismatch hmismatch mismatch' hmismatch'
      have hblock := (hash_mismatch_block hmismatch).1
      have hblock' := (hash_mismatch_block hmismatch').1
      have hhash := hshows a ha mismatch hmismatch
      have hhash' := hshows b hb mismatch' hmismatch'
      unfold IndexedBlockHash.lt at hlt ⊢
      rw [hblock, hblock', hhash, hhash']
      exact hlt
    · intro mismatch
      rw [hmismatches, List.mem_filterMap]
      constructor
      · rintro ⟨indexed, hindexed, hnoted⟩
        have hstored := mem_expected_iff.1 hindexed
        obtain ⟨actual, hactual, hother, rfl⟩ := hash_mismatch_eq_some.1 hnoted
        rw [hlower indexed hstored] at hother
        refine ⟨indexed, actual, hstored, hactual, hother, ?_⟩
        unfold IndexedBlockHash.mismatch
        rw [hlower indexed hstored]
      · rintro ⟨indexed, actual, hstored, hactual, hother, rfl⟩
        refine ⟨indexed, mem_expected_iff.2 hstored, hash_mismatch_eq_some.2 ⟨actual, hactual, ?_, ?_⟩⟩
        · rw [hlower indexed hstored]
          exact hother
        · unfold IndexedBlockHash.mismatch
          rw [hlower indexed hstored]
    · rw [recorded_mismatches hrecorded, List.flatten_splitBy]
  · intro indexed error hstored herror
    exact verify_source_reorgs_of_error (mem_expected_iff.2 hstored) herror

/-- The fork has replaced block 1, whose mint is stored: verification reports the block. -/
theorem verification_is_exact_forked :
    ∃ verification t,
      verify_source_reorgs forked_rpc small_source.from_source 0 10
          (Indexer.after plain_digits replaying).service = .ok verification t ∧
        verification.mismatches ≠ [] ∧
        Detected forked_rpc small_source.from_source 0 10
          (Indexer.after plain_digits replaying).service verification t := by
  have hlower : ∀ indexed ∈ expected_block_hashes (Indexer.after plain_digits replaying).db 0 0 10,
      to_ascii_lowercase indexed.block_hash = indexed.block_hash := by decide +kernel
  have hreports : (returned (verify_source_reorgs forked_rpc small_source.from_source 0 10
      (Indexer.after plain_digits replaying).service)).any
        (fun result => !result.1.mismatches.isEmpty) = true := by decide +kernel
  obtain ⟨⟨verification, t⟩, hreturned, hsome⟩ := Option.any_eq_true _ _ |>.1 hreports
  have hverify := returned_eq_some.1 hreturned
  refine ⟨verification, t, hverify, fun hempty => ?_, ?_⟩
  · simp [hempty] at hsome
  · exact (verification_is_exact forked_rpc small_source.from_source 0 10 _ fun indexed hstored =>
      hlower indexed (mem_expected_iff.2 hstored)).1 verification t hverify

/-! ## Ranges that are disjoint

The spans of the recorded events are the mismatched blocks, whatever the mismatches. That
they are apart needs the blocks of the mismatches to ascend strictly, which they do if no
block has two.
-/

/-- The block is in the range of the event. -/
def ReorgEventInsert.spans (event : ReorgEventInsert) (n : Int) : Prop :=
  event.from_block ≤ n ∧ n ≤ event.to_block

instance (event : ReorgEventInsert) (n : Int) : Decidable (event.spans n) :=
  inferInstanceAs (Decidable (_ ∧ _))

/-- The ranges of two events have no block in common, and no block of one is next to one
of the other. -/
def Separated (a b : ReorgEventInsert) : Prop :=
  a.to_block + 1 < b.from_block ∨ b.to_block + 1 < a.from_block

/-- The range of the first event ends before that of the second, with a block between. -/
def EndsBefore (a b : ReorgEventInsert) : Prop :=
  a.to_block + 1 < b.from_block ∧ b.from_block ≤ b.to_block

instance : IsTrans ReorgEventInsert EndsBefore where
  trans a b c hab hbc := by
    unfold EndsBefore at *
    omega

/-- The events coalesce the blocks: their ranges are apart, together they are the blocks,
and every block is in one. -/
structure Coalesced (blocks : Int → Prop) (recorded : List ReorgEventInsert) : Prop where
  separated : recorded.Pairwise Separated
  union : ∀ n, (∃ event ∈ recorded, event.spans n) ↔ blocks n
  one : ∀ n, blocks n → (recorded.filter fun event => event.spans n).length = 1

/-- The blocks of a run of consecutive mismatches are those from its first to its last. -/
theorem consecutive_blocks {range : List ReorgMismatch} {first last : ReorgMismatch}
    (hchain : range.IsChain fun previous mismatch =>
      mismatch.block_number = previous.block_number + 1)
    (hfirst : range.head? = some first) (hlast : range.getLast? = some last) (n : Int) :
    (∃ mismatch ∈ range, mismatch.block_number = n) ↔
      first.block_number ≤ n ∧ n ≤ last.block_number := by
  induction range generalizing first n with
  | nil => cases hfirst
  | cons mismatch rest ih =>
    have hfirst : mismatch = first := Option.some_inj.1 hfirst
    subst hfirst
    cases rest with
    | nil =>
      have hlast : mismatch = last := Option.some_inj.1 hlast
      subst hlast
      constructor
      · rintro ⟨other, hother, rfl⟩
        rw [List.mem_singleton.1 hother]
        exact ⟨le_refl _, le_refl _⟩
      · intro hn
        exact ⟨mismatch, List.mem_singleton_self mismatch, by omega⟩
    | cons second others =>
      rw [List.isChain_cons_cons] at hchain
      obtain ⟨hnext, hrest⟩ := hchain
      have hlast : (second :: others).getLast? = some last := by
        rw [← hlast]
        rfl
      have htail := ih hrest rfl hlast
      -- the run ends no earlier than its second block, so no earlier than its first
      have hsecond := (htail second.block_number).1 ⟨second, List.mem_cons_self .., rfl⟩
      constructor
      · rintro ⟨other, hother, rfl⟩
        rcases List.mem_cons.1 hother with rfl | hother
        · omega
        · have hin := (htail other.block_number).1 ⟨other, hother, rfl⟩
          omega
      · intro hn
        by_cases hfirst : n = mismatch.block_number
        · exact ⟨mismatch, List.mem_cons_self .., hfirst.symm⟩
        · obtain ⟨other, hother, hblock⟩ := (htail n).2 (by omega)
          exact ⟨other, List.mem_cons_of_mem _ hother, hblock⟩

/-- A recorded event spans the blocks of its details. -/
theorem SpansDetails.spans_iff {event : ReorgEventInsert} (h : SpansDetails event) (n : Int) :
    event.spans n ↔ ∃ mismatch ∈ event.mismatches, mismatch.block_number = n := by
  obtain ⟨first, hfirst, hfrom⟩ := h.from_block
  obtain ⟨last, hlast, hto⟩ := h.to_block
  unfold ReorgEventInsert.spans
  rw [consecutive_blocks h.consecutive hfirst hlast, hfrom, hto]

theorem SpansDetails.from_le_to {event : ReorgEventInsert} (h : SpansDetails event) :
    event.from_block ≤ event.to_block := by
  obtain ⟨first, hfirst, hfrom⟩ := h.from_block
  have hmem : first ∈ event.mismatches := List.mem_of_head? hfirst
  have hspans := (h.spans_iff first.block_number).2 ⟨first, hmem, rfl⟩
  unfold ReorgEventInsert.spans at hspans
  omega

section Coalesced

variable {mismatches : List ReorgMismatch} {recorded : List ReorgEventInsert}

/-- Whatever the mismatches, the recorded ranges together are their blocks. -/
theorem recorded_union (hspans : ∀ event ∈ recorded, SpansDetails event)
    (hdetails : (recorded.map (·.mismatches)).flatten = mismatches) (n : Int) :
    (∃ event ∈ recorded, event.spans n) ↔ ∃ mismatch ∈ mismatches, mismatch.block_number = n := by
  rw [← hdetails]
  constructor
  · rintro ⟨event, hevent, hn⟩
    obtain ⟨mismatch, hmismatch, hblock⟩ := ((hspans event hevent).spans_iff n).1 hn
    exact ⟨mismatch, List.mem_flatten.2 ⟨_, List.mem_map_of_mem hevent, hmismatch⟩, hblock⟩
  · rintro ⟨mismatch, hmismatch, hblock⟩
    obtain ⟨details, hdetails', hmismatch⟩ := List.mem_flatten.1 hmismatch
    obtain ⟨event, hevent, rfl⟩ := List.mem_map.1 hdetails'
    exact ⟨event, hevent, ((hspans event hevent).spans_iff n).2 ⟨mismatch, hmismatch, hblock⟩⟩

/-- Of ranges that are apart, one spans a block: two that both did would not be apart. This
is where a second mismatch of the same block would do harm. -/
theorem one_spans (hseparated : recorded.Pairwise Separated) {n : Int}
    (h : ∃ event ∈ recorded, event.spans n) :
    (recorded.filter fun event => event.spans n).length = 1 := by
  obtain ⟨event, hevent, hn⟩ := h
  have hmem : event ∈ recorded.filter fun event => event.spans n :=
    List.mem_filter.2 ⟨hevent, decide_eq_true hn⟩
  have hall : ∀ other ∈ recorded.filter fun event => event.spans n, other.spans n :=
    fun other hother => of_decide_eq_true (List.mem_filter.1 hother).2
  have hapart := hseparated.filter fun event => event.spans n
  cases hfilter : recorded.filter fun event => event.spans n with
  | nil =>
    rw [hfilter] at hmem
    cases hmem
  | cons first rest =>
    cases rest with
    | nil => rfl
    | cons second others =>
      -- two ranges that span the block are not apart
      rw [hfilter] at hall hapart
      have hfirst := hall first (List.mem_cons_self ..)
      have hsecond := hall second (List.mem_cons_of_mem _ (List.mem_cons_self ..))
      have hseparate := (List.pairwise_cons.1 hapart).1 second (List.mem_cons_self ..)
      unfold ReorgEventInsert.spans at hfirst hsecond
      unfold Separated at hseparate
      omega

/-- The ranges of mismatches with ascending blocks are apart. A new range begins where the
next block is not the following one, so it begins past the end of the last. -/
theorem separated_of_ascending (hspans : ∀ event ∈ recorded, SpansDetails event)
    (hranges : recorded.map (·.mismatches) = mismatches.splitBy next_block)
    (hascending : mismatches.Pairwise fun a b => a.block_number < b.block_number) :
    recorded.Pairwise Separated := by
  -- where the list was cut, the next mismatch is not of the next block
  have hcuts := List.isChain_getLast_head_splitBy next_block mismatches
  have hflatten : (recorded.map (·.mismatches)).flatten = mismatches := by
    rw [hranges, List.flatten_splitBy]
  rw [← hflatten, List.pairwise_flatten, List.pairwise_map] at hascending
  rw [← hranges, List.isChain_map] at hcuts
  have hbefore : recorded.IsChain EndsBefore := by
    rw [List.isChain_iff_getElem] at hcuts ⊢
    intro i hi
    have hlt := List.pairwise_iff_getElem.1 hascending.2 i (i + 1) (by omega) hi (by omega)
    obtain ⟨hleft, hright, hcut⟩ := hcuts i hi
    obtain ⟨last, hlast, hto⟩ := (hspans recorded[i] (List.getElem_mem _)).to_block
    obtain ⟨first, hfirst, hfrom⟩ := (hspans recorded[i + 1] (List.getElem_mem _)).from_block
    have hlast_eq : recorded[i].mismatches.getLast hleft = last :=
      Option.some_inj.1 ((List.getLast?_eq_some_getLast hleft).symm.trans hlast)
    have hfirst_eq : recorded[i + 1].mismatches.head hright = first :=
      Option.some_inj.1 ((List.head?_eq_some_head hright).symm.trans hfirst)
    rw [hlast_eq, hfirst_eq] at hcut
    have hcut := beq_eq_false_iff_ne.1 hcut
    have hordered := hlt last (List.mem_of_getLast? hlast) first (List.mem_of_head? hfirst)
    refine ⟨?_, (hspans recorded[i + 1] (List.getElem_mem _)).from_le_to⟩
    omega
  exact hbefore.pairwise.imp fun h => Or.inl h.1

/-- Ranges that are apart are of mismatches of different blocks. -/
theorem blocks_differ_of_separated (hspans : ∀ event ∈ recorded, SpansDetails event)
    (hdetails : (recorded.map (·.mismatches)).flatten = mismatches)
    (hseparated : recorded.Pairwise Separated) :
    mismatches.Pairwise fun a b => a.block_number ≠ b.block_number := by
  rw [← hdetails, List.pairwise_flatten, List.pairwise_map]
  constructor
  · intro details hmem
    obtain ⟨event, hevent, rfl⟩ := List.mem_map.1 hmem
    -- within a range the blocks ascend
    have hascending : event.mismatches.IsChain fun a b => a.block_number < b.block_number :=
      (hspans event hevent).consecutive.imp fun a b hnext => by omega
    have : IsTrans ReorgMismatch fun a b => a.block_number < b.block_number :=
      ⟨fun _ _ _ => lt_trans⟩
    exact hascending.pairwise.imp fun h => ne_of_lt h
  · refine hseparated.imp_of_mem ?_
    intro a b ha hb hseparate x hx y hy hsame
    have hin := ((hspans a ha).spans_iff x.block_number).2 ⟨x, hx, rfl⟩
    have hin' := ((hspans b hb).spans_iff x.block_number).2 ⟨y, hy, hsame.symm⟩
    unfold ReorgEventInsert.spans at hin hin'
    unfold Separated at hseparate
    omega

end Coalesced

/-- No block of the range has two stored hashes that the chain answered with another. -/
def OneMismatchEach (rpc : ChainRpc) (db : Db) (source_id : Uuid) (from_block to_block : Int) : Prop :=
  ∀ a b, StoresHash db source_id from_block to_block a → StoresHash db source_id from_block to_block b →
    Mismatched rpc a → Mismatched rpc b → a.block_number = b.block_number → a = b

/-- The block has a stored hash that the chain answered with another. -/
def MismatchedBlock (rpc : ChainRpc) (db : Db) (source_id : Uuid) (from_block to_block n : Int) :
    Prop :=
  ∃ indexed, StoresHash db source_id from_block to_block indexed ∧ Mismatched rpc indexed ∧
    indexed.block_number = n

/-- The recorded ranges coalesce the mismatched blocks exactly when no block has two
mismatches. -/
theorem ranges_coalesce_iff {rpc : ChainRpc} {source : SourceRef} {from_block to_block : Nat}
    {s t : Service} {verification : ReorgVerification}
    (h : verify_source_reorgs rpc source from_block to_block s = .ok verification t) :
    ∃ recorded, t = { s with reorg_events := s.reorg_events ++ recorded } ∧
      (Coalesced (MismatchedBlock rpc s.db source.id from_block to_block) recorded ↔
        OneMismatchEach rpc s.db source.id from_block to_block) := by
  obtain ⟨-, hmismatches, hrecord⟩ := verify_source_reorgs_eq_ok h
  obtain ⟨recorded, hrecorded, ht⟩ := record_reorg_ranges_eq_ok hrecord
  have hspans := recorded_spans hrecorded
  have hranges := recorded_mismatches hrecorded
  have hdetails : (recorded.map (·.mismatches)).flatten = verification.mismatches := by
    rw [hranges, List.flatten_splitBy]
  -- the blocks of the mismatches are those with a stored hash the chain does not have
  have hblocks : ∀ n, (∃ mismatch ∈ verification.mismatches, mismatch.block_number = n) ↔
      MismatchedBlock rpc s.db source.id from_block to_block n := by
    intro n
    rw [hmismatches]
    constructor
    · rintro ⟨mismatch, hmem, rfl⟩
      obtain ⟨indexed, hindexed, hnoted⟩ := List.mem_filterMap.1 hmem
      obtain ⟨hblock, hmismatched⟩ := hash_mismatch_block hnoted
      exact ⟨indexed, mem_expected_iff.1 hindexed, hmismatched, hblock.symm⟩
    · rintro ⟨indexed, hstored, hmismatched, rfl⟩
      obtain ⟨mismatch, hnoted, hblock⟩ := hash_mismatch_of_mismatched hmismatched
      exact ⟨mismatch, List.mem_filterMap.2 ⟨indexed, mem_expected_iff.2 hstored, hnoted⟩, hblock⟩
  refine ⟨recorded, ht, ?_⟩
  constructor
  · rintro ⟨hseparated, -, -⟩ a b ha hb ha_mismatched hb_mismatched hblock
    have hdiffer := blocks_differ_of_separated hspans hdetails hseparated
    rw [hmismatches, List.pairwise_filterMap] at hdiffer
    by_contra hne
    obtain ⟨mismatch, hnoted, hof⟩ := hash_mismatch_of_mismatched ha_mismatched
    obtain ⟨mismatch', hnoted', hof'⟩ := hash_mismatch_of_mismatched hb_mismatched
    have : Std.Symm fun x y : IndexedBlockHash => ∀ c, hash_mismatch rpc x = some c →
        ∀ d, hash_mismatch rpc y = some d → c.block_number ≠ d.block_number :=
      ⟨fun x y hxy c hc d hd => (hxy d hd c hc).symm⟩
    have hpair := hdiffer.forall (mem_expected_iff.2 ha) (mem_expected_iff.2 hb) hne
    exact hpair mismatch hnoted mismatch' hnoted' (by rw [hof, hof', hblock])
  · intro hone
    have hascending : verification.mismatches.Pairwise fun a b => a.block_number < b.block_number := by
      rw [hmismatches, List.pairwise_filterMap]
      refine (expected_ascending s.db source.id from_block to_block).imp_of_mem ?_
      intro a b ha hb hlt mismatch hnoted mismatch' hnoted'
      obtain ⟨hof, ha_mismatched⟩ := hash_mismatch_block hnoted
      obtain ⟨hof', hb_mismatched⟩ := hash_mismatch_block hnoted'
      rw [hof, hof']
      rcases hlt with hlt | ⟨hblock, hhash⟩
      · exact hlt
      · have hsame := hone a b (mem_expected_iff.1 ha) (mem_expected_iff.1 hb) ha_mismatched
          hb_mismatched hblock
        rw [hsame] at hhash
        exact absurd hhash (lt_irrefl _)
    have hseparated := separated_of_ascending hspans hranges hascending
    have hunion : ∀ n, (∃ event ∈ recorded, event.spans n) ↔
        MismatchedBlock rpc s.db source.id from_block to_block n :=
      fun n => (recorded_union hspans hdetails n).trans (hblocks n)
    exact ⟨hseparated, hunion, fun n hn => one_spans hseparated ((hunion n).2 hn)⟩

/-- On the fork one hash of block 1 is stored, and the recorded ranges coalesce it. -/
theorem ranges_coalesce_iff_forked :
    ∃ verification t,
      verify_source_reorgs forked_rpc small_source.from_source 0 10
          (Indexer.after plain_digits replaying).service = .ok verification t ∧
        ∃ recorded, t = { (Indexer.after plain_digits replaying).service with
            reorg_events :=
              (Indexer.after plain_digits replaying).service.reorg_events ++ recorded } ∧
          (Coalesced (MismatchedBlock forked_rpc (Indexer.after plain_digits replaying).db 0 0 10)
              recorded ↔
            OneMismatchEach forked_rpc (Indexer.after plain_digits replaying).db 0 0 10) := by
  obtain ⟨⟨verification, t⟩, hreturned⟩ := Option.isSome_iff_exists.1
    (show (returned (verify_source_reorgs forked_rpc small_source.from_source 0 10
      (Indexer.after plain_digits replaying).service)).isSome = true by decide +kernel)
  have hverify := returned_eq_some.1 hreturned
  exact ⟨verification, t, hverify, ranges_coalesce_iff hverify⟩

/-! ## A block with two hashes -/

/-- The ranges one verification records coalesce the mismatched blocks. -/
def RangesCoalesce : Prop :=
  ∀ (rpc : ChainRpc) (source : SourceRef) (from_block to_block : Nat) (s t : Service)
    (verification : ReorgVerification),
    verify_source_reorgs rpc source from_block to_block s = .ok verification t →
    ∀ recorded, t = { s with reorg_events := s.reorg_events ++ recorded } →
      Coalesced (MismatchedBlock rpc s.db source.id from_block to_block) recorded

/-- The chain after block 1 was replaced a second time. -/
def twice_forked_chain (n : Nat) : String := if n = 1 then "0xe1" else toString n

/-- The state after the mint of block 1 was replayed on the first fork: its event has the
hash of the fork, and the checkpoint, which a replay does not move, the hash before it. -/
def replayed_on_fork : Service :=
  match (Indexer.after plain_digits replaying).executions 0 with
  | some e => left (forked_attempt e.job (Indexer.after plain_digits replaying).service)
  | none => (Indexer.after plain_digits replaying).service

/-- Verification after the second replacement records the range of block 1 twice. -/
theorem block_with_two_hashes_is_recorded_twice : ¬ RangesCoalesce := by
  intro h
  have hrecords : (returned (verify_source_reorgs (small_rpc 200 twice_forked_chain [])
      small_source.from_source 0 10 replayed_on_fork)).any (fun result =>
        replayed_on_fork.reorg_events.isEmpty &&
          (result.2.reorg_events.map fun event => (event.from_block, event.to_block))
            == [(1, 1), (1, 1)]) = true := by decide +kernel
  obtain ⟨⟨verification, t⟩, hreturned, hrows⟩ := Option.any_eq_true _ _ |>.1 hrecords
  rw [Bool.and_eq_true, List.isEmpty_iff, beq_iff_eq] at hrows
  obtain ⟨hempty, hrows⟩ := hrows
  have hverify := returned_eq_some.1 hreturned
  obtain ⟨recorded, -, ht⟩ := record_reorg_ranges_eq_ok (verify_source_reorgs_eq_ok hverify).2.2
  have hcoalesced := h _ _ _ _ _ _ _ hverify recorded ht
  have hrecorded : t.reorg_events = recorded := by
    show t.reorg_events = recorded
    rw [show t = _ from ht]
    show replayed_on_fork.reorg_events ++ recorded = recorded
    rw [hempty, List.nil_append]
  have hseparated : (t.reorg_events.map fun event => (event.from_block, event.to_block)).Pairwise
      fun a b => a.2 + 1 < b.1 ∨ b.2 + 1 < a.1 := by
    rw [hrecorded, List.pairwise_map]
    exact hcoalesced.separated
  rw [hrows] at hseparated
  revert hseparated
  decide

end EvmIndexer
