/-
Ingesting a range in chunks, and under a detected standard.

A range is asked for in chunks, each chunk under the topics of a standard, and what comes
back is joined. Where the chain answers from one history (`ServesHistory`) the joined list is
the history's, restricted to the blocks and the topics, whatever the chunks
(`fetch_logs_in_chunks_eq`). The detection asks under the topics of all standards and keeps
the chunk it stopped at; the loop takes that chunk in place of a query. It may, because the
detection only stops where every log of the chunk is of the standard it found, so that the
chunk is the same list under the narrower topics (`PrefetchedLogChunk.FromChain`).
-/
import EvmIndexer.AbiEvents
import EvmIndexer.Ingest
import EvmIndexer.Ledger

set_option autoImplicit false

namespace EvmIndexer

/-- A filter over two kinds of items, all of the first before any of the second. -/
theorem filter_append_of_ordered {α : Type} {p q r : α → Bool} {l : List α}
    (hp : ∀ a, p a = (q a || r a)) (hdisjoint : ∀ a, q a = true → r a = false)
    (hordered : l.Pairwise fun a b => r a = true → q b = false) :
    l.filter p = l.filter q ++ l.filter r := by
  induction l with
  | nil => rfl
  | cons a l ih =>
    obtain ⟨ha, hl⟩ := List.pairwise_cons.1 hordered
    rw [List.filter_cons, List.filter_cons, List.filter_cons, hp, ih hl]
    by_cases hq : q a = true
    · rw [hdisjoint a hq]
      simp only [hq, Bool.true_or, if_true, Bool.false_eq_true, if_false, List.cons_append]
    · by_cases hr : r a = true
      · -- nothing of the first kind is left
        have hnone : l.filter q = [] :=
          List.filter_eq_nil_iff.2 fun b hb hqb => Bool.false_ne_true ((ha b hb hr).symm.trans hqb)
        simp only [hq, hr, hnone, Bool.false_or, if_true, Bool.false_eq_true, if_false,
          List.nil_append]
      · simp only [hq, hr, Bool.false_or, Bool.false_eq_true, if_false]

/-! ## A chain with one history

The endpoint answers a query for an address, a range of blocks and a list of topics. That it
answers from one history means that two queries never disagree: what a wide query returns for
a block, a narrow one returns too, in the same order. Nothing is asked of queries that fail.
-/

/-- The log is in one of the blocks. -/
def RpcLog.in_blocks (first last : Nat) (log : RpcLog) : Bool :=
  (parse_hex_u64 log.block_number).toOption.any fun block => first ≤ block && block ≤ last

theorem RpcLog.in_blocks_iff {first last : Nat} {log : RpcLog} :
    log.in_blocks first last = true ↔
      ∃ block, parse_hex_u64 log.block_number = .ok block ∧ first ≤ block ∧ block ≤ last := by
  unfold RpcLog.in_blocks
  cases parse_hex_u64 log.block_number with
  | error e => simp [Except.toOption]
  | ok block => simp [Except.toOption]

section Topics

variable (keccak256 : String → String)

/-- `supported_topic0_values`. -/
def supported_topic0_values : TokenStandard → List String
  | .Auto => [transfer keccak256, transfer_single keccak256, transfer_batch keccak256]
  | .Erc20 | .Erc721 => [transfer keccak256]
  | .Erc1155 => [transfer_single keccak256, transfer_batch keccak256]

/-- The first topic of the log is one the standard asks for. -/
def RpcLog.supported (standard : TokenStandard) (log : RpcLog) : Bool :=
  log.topics.head?.any fun topic0 => topic0 ∈ supported_topic0_values keccak256 standard

/-- The logs of a history in a range of blocks, under the topics of a standard. -/
def history_logs (history : List RpcLog) (standard : TokenStandard) (first last : Nat) : List RpcLog :=
  history.filter fun log => log.in_blocks first last && log.supported keccak256 standard

/-- The logs are in the order of their blocks. -/
def InBlockOrder (logs : List RpcLog) : Prop :=
  logs.Pairwise fun a b => ∀ m n, parse_hex_u64 a.block_number = .ok m →
    parse_hex_u64 b.block_number = .ok n → m ≤ n

/-- The chain answers from one history of each contract, in the order of its blocks: a
request for a range gets the part in these blocks that matches the filter. A chain that
reorganises between two requests does not. -/
structure ServesHistory (rpc : ChainRpc) (history : String → List RpcLog) : Prop where
  logs : ∀ contract standard first last, rpc.logs contract standard first last
    = .ok (history_logs keccak256 (history contract) standard first last)
  ordered : ∀ contract, InBlockOrder (history contract)

/-- `hex::encode` writes the digest in lower case. The detection and the decoder put the
topic of a log in lower case before they compare, and leave the digest as it is. -/
def LowerHex : Prop := ∀ signature,
  to_ascii_lowercase (event_topic keccak256 signature) = event_topic keccak256 signature

/-- The prefetched chunk is what the chain returns for its blocks under the standard, so to
use it is to ask again. -/
def PrefetchedLogChunk.FromChain (history : List RpcLog) (standard : TokenStandard)
    (chunk : PrefetchedLogChunk) : Prop :=
  chunk.logs = history_logs keccak256 history standard chunk.«from» chunk.«to»

end Topics

section Fetch

variable {keccak256 : String → String} {rpc : ChainRpc} {history : String → List RpcLog}

/-- A range of an ordered history, cut after one of its blocks. -/
theorem history_logs_append {logs : List RpcLog} {standard : TokenStandard} {first mid last : Nat}
    (hordered : InBlockOrder logs) (hfirst : first ≤ mid + 1) (hlast : mid ≤ last) :
    history_logs keccak256 logs standard first last
      = history_logs keccak256 logs standard first mid
        ++ history_logs keccak256 logs standard (mid + 1) last := by
  refine filter_append_of_ordered ?_ ?_ ?_
  · -- a log is in the whole range iff it is in one of the two parts
    intro log
    rw [← Bool.and_or_distrib_right]
    congr 1
    unfold RpcLog.in_blocks
    cases parse_hex_u64 log.block_number with
    | error e => rfl
    | ok block =>
      rw [Bool.eq_iff_iff]
      simp only [Except.toOption, Option.any_some, Bool.or_eq_true, Bool.and_eq_true,
        decide_eq_true_eq]
      omega
  · -- a log of the first part is not one of the second
    intro log hbefore
    rw [Bool.and_eq_true, RpcLog.in_blocks_iff] at hbefore
    obtain ⟨⟨block, hblock, hle⟩, -⟩ := hbefore
    rw [Bool.and_eq_false_iff]
    refine Or.inl (Bool.eq_false_iff.2 ?_)
    intro hafter
    obtain ⟨block', hblock', hle'⟩ := RpcLog.in_blocks_iff.1 hafter
    have hsame := Except.ok.inj (hblock.symm.trans hblock')
    omega
  · -- and after a log of the second part none of the first follows, the blocks being in order
    refine hordered.imp ?_
    intro a b hab hafter
    rw [Bool.and_eq_true, RpcLog.in_blocks_iff] at hafter
    obtain ⟨⟨block, hblock, hle⟩, -⟩ := hafter
    rw [Bool.and_eq_false_iff]
    refine Or.inl (Bool.eq_false_iff.2 ?_)
    intro hbefore
    obtain ⟨block', hblock', hle'⟩ := RpcLog.in_blocks_iff.1 hbefore
    have hle_blocks := hab block block' hblock hblock'
    omega

/-- The chunks of a range return the history of the range. -/
theorem split_from_history_logs {logs : List RpcLog} {standard : TokenStandard}
    (hordered : InBlockOrder logs) {first last chunk_size : Nat} (hlast : last ≤ u64_max) :
    (split_from first last chunk_size).flatMap
        (fun chunk => history_logs keccak256 logs standard chunk.«from» chunk.«to»)
      = history_logs keccak256 logs standard first last := by
  fun_induction split_from first last chunk_size with
  | case1 first hmore ih =>
    have hend_le : chunk_end first last chunk_size ≤ last := min_le_right _ _
    rw [List.flatMap_cons]
    by_cases hend : chunk_end first last chunk_size = u64_max
    · -- the last block there is: the loop stops
      rw [dif_pos hend, List.flatMap_nil, List.append_nil, le_antisymm hend_le (hend ▸ hlast)]
    · rw [dif_neg hend, ih hend]
      exact (history_logs_append hordered (Nat.le_succ_of_le (le_chunk_end hmore hend)) hend_le).symm
  | case2 first hmore =>
    rw [List.flatMap_nil]
    refine (List.filter_eq_nil_iff.2 ?_).symm
    intro log _ hin
    rw [Bool.and_eq_true, RpcLog.in_blocks_iff] at hin
    obtain ⟨⟨block, -, hle⟩, -⟩ := hin
    omega

/-- The chunks return what the chain has of them, one of them fetched before or not. -/
theorem fetch_chunks_eq (hrpc : ServesHistory keccak256 rpc history) {contract : String}
    {standard : TokenStandard} {prefetched_logs : Option PrefetchedLogChunk}
    (hprefetched : ∀ p ∈ prefetched_logs, p.FromChain keccak256 (history contract) standard)
    (chunks : List BackfillChunk) :
    fetch_chunks rpc contract standard prefetched_logs chunks = .ok (chunks.flatMap fun chunk =>
      history_logs keccak256 (history contract) standard chunk.«from» chunk.«to») := by
  induction chunks generalizing prefetched_logs with
  | nil => rfl
  | cons chunk rest ih =>
    unfold fetch_chunks
    rw [List.flatMap_cons]
    split
    · rename_i p hfilter
      obtain ⟨hmem, hbounds⟩ := Option.filter_eq_some_iff.1 hfilter
      rw [decide_eq_true_iff] at hbounds
      have hlogs := hprefetched p hmem
      unfold PrefetchedLogChunk.FromChain at hlogs
      rw [hbounds.1, hbounds.2] at hlogs
      rw [ih fun p hnone => absurd hnone (Option.not_mem_none p), hlogs]
      rfl
    · rw [hrpc.logs, ih hprefetched]
      rfl

theorem fetch_logs_in_chunks_eq (hrpc : ServesHistory keccak256 rpc history) {contract : String}
    {standard : TokenStandard} {first last chunk_size : Nat} (hrange : first ≤ last)
    (hlast : last ≤ u64_max) (hsize : 1 ≤ chunk_size) {prefetched_logs : Option PrefetchedLogChunk}
    (hprefetched : ∀ p ∈ prefetched_logs, p.FromChain keccak256 (history contract) standard) :
    fetch_logs_in_chunks rpc contract standard first last chunk_size prefetched_logs
      = .ok (history_logs keccak256 (history contract) standard first last) := by
  unfold fetch_logs_in_chunks
  rw [if_neg (by omega), if_neg (by omega), fetch_chunks_eq hrpc hprefetched,
    split_from_history_logs (hrpc.ordered contract) hlast]

end Fetch

/-! ## Detection

The detection goes through the chunks until one of them has a log under the topics of any
standard, and decides by the logs of this chunk alone. The chunks before it are empty under
all topics, so no narrower query would have found anything there either.
-/

section Detect

variable {keccak256 : String → String} {rpc : ChainRpc} {history : String → List RpcLog}

theorem supported_subset (standard : TokenStandard) :
    supported_topic0_values keccak256 standard ⊆ supported_topic0_values keccak256 .Auto := by
  cases standard <;> simp [supported_topic0_values]

/-- A log is under a topic where its first topic is. -/
theorem supported_iff {standard : TokenStandard} {log : RpcLog} :
    log.supported keccak256 standard = true ↔
      ∃ topic0 rest, log.topics = topic0 :: rest ∧
        topic0 ∈ supported_topic0_values keccak256 standard := by
  unfold RpcLog.supported
  cases htopics : log.topics with
  | nil => simp
  | cons topic0 rest => simp

/-- A log under one of the topics that the detection can place is of a standard with that
topic. -/
theorem detect_of_supported (hdigest : LowerHex keccak256) {log : RpcLog}
    (hsupported : log.supported keccak256 .Auto = true) {candidate : Option TokenStandard}
    (h : detect_token_standard_from_log keccak256 log = .ok candidate) :
    ∃ standard, candidate = some standard ∧ standard ≠ .Auto ∧
      log.supported keccak256 standard = true := by
  obtain ⟨topic0, rest, htopics, hmem⟩ := supported_iff.1 hsupported
  -- the topics of the standards are in lower case already
  have hlower : to_ascii_lowercase topic0 = topic0 := by
    simp only [supported_topic0_values, List.mem_cons, List.not_mem_nil, or_false] at hmem
    rcases hmem with rfl | rfl | rfl <;> exact hdigest _
  have hof : ∀ standard, topic0 ∈ supported_topic0_values keccak256 standard →
      log.supported keccak256 standard = true := fun standard hin =>
    supported_iff.2 ⟨topic0, rest, htopics, hin⟩
  unfold detect_token_standard_from_log at h
  rw [htopics] at h
  simp only [hlower] at h
  by_cases h1155 : topic0 = transfer_single keccak256 ∨ topic0 = transfer_batch keccak256
  · rw [if_pos h1155] at h
    refine ⟨.Erc1155, (Except.ok.inj h).symm, by decide, hof .Erc1155 ?_⟩
    simp only [supported_topic0_values, List.mem_cons, List.not_mem_nil, or_false]
    exact h1155
  · have htransfer : topic0 = transfer keccak256 := by
      simp only [supported_topic0_values, List.mem_cons, List.not_mem_nil, or_false] at hmem
      exact hmem.resolve_right h1155
    rw [if_neg h1155, if_pos htransfer, bind_eq_ok] at h
    obtain ⟨data_words, -, h⟩ := h
    split at h
    · exact ⟨.Erc721, (Except.ok.inj h).symm, by decide, hof .Erc721 (List.mem_singleton.2 htransfer)⟩
    · exact ⟨.Erc20, (Except.ok.inj h).symm, by decide, hof .Erc20 (List.mem_singleton.2 htransfer)⟩
    · cases h

/-- The loop of the detection over logs under the topics: they are all of the standard it
ends with, the one it started with where there was one. -/
theorem detect_from_logs_spec (hdigest : LowerHex keccak256) {logs : List RpcLog}
    (hsupported : ∀ log ∈ logs, log.supported keccak256 .Auto = true)
    {detected found : Option TokenStandard}
    (h : detect_from_logs keccak256 detected logs = .ok found) :
    (∀ log ∈ logs, detect_token_standard_from_log keccak256 log = .ok found) ∧
      (logs = [] → found = detected) ∧ ∀ standard, detected = some standard → found = detected := by
  induction logs generalizing detected with
  | nil =>
    cases h
    exact ⟨fun log hlog => absurd hlog List.not_mem_nil, fun _ => rfl, fun _ _ => rfl⟩
  | cons log rest ih =>
    unfold detect_from_logs at h
    rw [bind_eq_ok] at h
    obtain ⟨candidate, hcandidate, h⟩ := h
    obtain ⟨standard, rfl, -, -⟩ :=
      detect_of_supported hdigest (hsupported log (List.mem_cons_self ..)) hcandidate
    have hrest : ∀ next, detect_from_logs keccak256 next rest = .ok found →
        next = some standard → found = some standard ∧
          ∀ log ∈ rest, detect_token_standard_from_log keccak256 log = .ok found := by
      intro next hloop hnext
      obtain ⟨hall, -, hkept⟩ := ih (fun log hlog => hsupported log (List.mem_cons_of_mem _ hlog)) hloop
      exact ⟨(hkept standard hnext).trans hnext, hall⟩
    -- what is detected from here on is the standard of this log
    have hfound : (found = some standard ∧
        ∀ log ∈ rest, detect_token_standard_from_log keccak256 log = .ok found) ∧
          ∀ s, detected = some s → detected = some standard := by
      cases detected with
      | none => exact ⟨hrest _ h rfl, fun s hs => nomatch hs⟩
      | some existing =>
        simp only [bail_eq_ok, ne_eq, not_not] at h
        obtain ⟨rfl, h⟩ := h
        exact ⟨hrest _ h rfl, fun _ _ => rfl⟩
    obtain ⟨⟨hfound, hall⟩, hdetected⟩ := hfound
    refine ⟨?_, fun hnil => absurd hnil (List.cons_ne_nil log rest), fun s hs => ?_⟩
    · intro other hother
      rcases List.mem_cons.1 hother with rfl | hother
      · rw [hcandidate, hfound]
      · exact hall other hother
    · rw [hfound, hdetected s hs]

/-- What the detection returns of a chunk: nothing where the chunk has no log under the
topics, and else the standard of them all. -/
theorem detect_chunk_spec (hdigest : LowerHex keccak256) {logs : List RpcLog} {first last : Nat}
    {found : Option TokenStandard}
    (h : detect_token_standard_from_logs keccak256 (history_logs keccak256 logs .Auto first last)
      = .ok found) :
    (found = none → history_logs keccak256 logs .Auto first last = []) ∧
      ∀ standard, found = some standard → standard ≠ .Auto ∧
        history_logs keccak256 logs .Auto first last ≠ [] ∧
        (∀ log ∈ history_logs keccak256 logs .Auto first last,
          detect_token_standard_from_log keccak256 log = .ok (some standard)) ∧
        history_logs keccak256 logs standard first last
          = history_logs keccak256 logs .Auto first last := by
  have hsupported : ∀ log ∈ history_logs keccak256 logs .Auto first last,
      log.supported keccak256 .Auto = true := by
    intro log hlog
    have hin := (List.mem_filter.1 hlog).2
    rw [Bool.and_eq_true] at hin
    exact hin.2
  obtain ⟨hall, hnil, -⟩ := detect_from_logs_spec hdigest hsupported h
  have hplaced := fun log hlog => detect_of_supported hdigest (hsupported log hlog) (hall log hlog)
  constructor
  · intro hnone
    refine List.eq_nil_iff_forall_not_mem.2 fun log hlog => ?_
    obtain ⟨standard, hsome, -⟩ := hplaced log hlog
    rw [hnone] at hsome
    cases hsome
  · rintro standard rfl
    have hnonempty : history_logs keccak256 logs .Auto first last ≠ [] := by
      intro hempty
      cases hnil hempty
    obtain ⟨log, hlog⟩ := List.exists_mem_of_ne_nil _ hnonempty
    obtain ⟨_, hsome, hnot_auto, -⟩ := hplaced log hlog
    cases hsome
    refine ⟨hnot_auto, hnonempty, hall, ?_⟩
    -- the wider topics let in nothing the narrower ones leave out
    refine List.filter_congr fun log hmem => ?_
    rw [Bool.eq_iff_iff, Bool.and_eq_true, Bool.and_eq_true]
    constructor
    · rintro ⟨hblock, hlog_supported⟩
      obtain ⟨topic0, rest, htopics, htopic⟩ := supported_iff.1 hlog_supported
      exact ⟨hblock, supported_iff.2 ⟨topic0, rest, htopics, supported_subset standard htopic⟩⟩
    · rintro ⟨hblock, hlog_supported⟩
      have hlog : log ∈ history_logs keccak256 logs .Auto first last :=
        List.mem_filter.2 ⟨hmem, by rw [hblock, hlog_supported]; rfl⟩
      obtain ⟨_, hsome, -, hof⟩ := hplaced log hlog
      cases hsome
      exact ⟨hblock, hof⟩

/-- Where the detection ends: nothing before the chunk it keeps is under the topics, and the
chunk is what the chain has under those of the standard. -/
theorem detect_in_chunks_spec (hdigest : LowerHex keccak256)
    (hrpc : ServesHistory keccak256 rpc history) {contract : String} {chunks : List BackfillChunk}
    {detection : TokenStandardDetection}
    (h : detect_in_chunks keccak256 rpc contract chunks = .ok (some detection)) :
    detection.standard ≠ .Auto ∧
      detection.prefetched_logs.FromChain keccak256 (history contract) detection.standard ∧
      ∃ first rest, (chunks.flatMap fun chunk => history_logs keccak256 (history contract) .Auto
          chunk.«from» chunk.«to») = first :: rest ∧
        detect_token_standard_from_log keccak256 first = .ok (some detection.standard) := by
  induction chunks with
  | nil => cases h
  | cons chunk rest ih =>
    unfold detect_in_chunks at h
    rw [hrpc.logs] at h
    simp only [bind_eq_ok, context_eq_ok, Except.ok.injEq, exists_eq_left'] at h
    obtain ⟨found, hfound, h⟩ := h
    obtain ⟨hnone, hsome⟩ := detect_chunk_spec hdigest hfound
    rw [List.flatMap_cons]
    -- a chunk that shows no standard has no log the detection asks for; the next one is tried
    cases found with
    | none =>
      rw [hnone rfl, List.nil_append]
      exact ih h
    | some standard =>
      obtain ⟨hnot_auto, hnonempty, hall, hsame⟩ := hsome standard rfl
      cases h
      obtain ⟨first, others, hcons⟩ := List.exists_cons_of_ne_nil hnonempty
      have hfirst : first ∈ history_logs keccak256 (history contract) .Auto chunk.«from» chunk.«to» := by
        rw [hcons]
        exact List.mem_cons_self ..
      exact ⟨hnot_auto, hsame.symm, first, _, congrArg (· ++ _) hcons, hall first hfirst⟩

theorem detect_token_standard_spec (hdigest : LowerHex keccak256)
    (hrpc : ServesHistory keccak256 rpc history) {contract : String} {first last chunk_size : Nat}
    (hlast : last ≤ u64_max) {detection : TokenStandardDetection}
    (h : detect_token_standard_with_prefetched_logs keccak256 rpc contract first last chunk_size
      = .ok detection) :
    detection.standard ≠ .Auto ∧
      detection.prefetched_logs.FromChain keccak256 (history contract) detection.standard ∧
      ∃ log rest, history_logs keccak256 (history contract) .Auto first last = log :: rest ∧
        detect_token_standard_from_log keccak256 log = .ok (some detection.standard) := by
  unfold detect_token_standard_with_prefetched_logs at h
  simp only [bail_eq_ok, bind_eq_ok] at h
  obtain ⟨-, -, found, hfound, h⟩ := h
  cases found with
  | none => cases h
  | some found =>
    cases h
    rw [← split_from_history_logs (hrpc.ordered contract) hlast]
    exact detect_in_chunks_spec hdigest hrpc hfound

end Detect

/-! ## The logs of a range

The loop asks chunk by chunk under the topics of the standard, and for one chunk it may have
the detection's answer instead. Either way a chunk is the part of the history in its blocks,
and the chunks of a split follow each other without a gap. Which chunks these are cancels
out.
-/

section Range

variable {keccak256 : String → String} {parse_bytes : List Char → Option Nat} {rpc : ChainRpc}
  {history : String → List RpcLog}

/-- What is persisted of a range under an explicit standard: a function of the history. -/
theorem range_logs_explicit (hrpc : ServesHistory keccak256 rpc history) (source : SourceRef)
    (hexplicit : source.token_standard ≠ .Auto) {first last chunk_size : Nat} (hrange : first ≤ last)
    (hlast : last ≤ u64_max) (hsize : 1 ≤ chunk_size) {prefetched_logs : Option PrefetchedLogChunk}
    (hprefetched : ∀ p ∈ prefetched_logs,
      p.FromChain keccak256 (history source.contract_address) source.token_standard) :
    range_logs keccak256 parse_bytes rpc source first last chunk_size prefetched_logs
      = (attach_block_timestamps rpc (history_logs keccak256 (history source.contract_address)
          source.token_standard first last)).bind
          (decode_logs keccak256 parse_bytes source.token_standard) := by
  have hstandard : source_standard keccak256 rpc source first last chunk_size prefetched_logs
      = .ok (source.token_standard, prefetched_logs) := by
    unfold source_standard TokenStandard.is_auto
    rw [beq_eq_false_iff_ne.2 hexplicit]
    rfl
  unfold range_logs
  rw [if_neg (by omega), if_neg (by omega), hstandard]
  simp only [bind, Except.bind]
  rw [fetch_logs_in_chunks_eq hrpc hrange hlast hsize hprefetched]

/-- Under `auto`, what is persisted is what is under the detected standard. -/
theorem range_logs_auto {source : SourceRef} {first last chunk_size : Nat}
    {detection : TokenStandardDetection}
    (hdetection : detect_token_standard_with_prefetched_logs keccak256 rpc source.contract_address
      first last chunk_size = .ok detection) (hnot_auto : detection.standard ≠ .Auto)
    (prefetched_logs : Option PrefetchedLogChunk) :
    range_logs keccak256 parse_bytes rpc { source with token_standard := .Auto } first last chunk_size
        prefetched_logs
      = range_logs keccak256 parse_bytes rpc { source with token_standard := detection.standard }
          first last chunk_size (some detection.prefetched_logs) := by
  -- an `auto` source takes the standard and the logs the detection returned
  have hauto : source_standard keccak256 rpc { source with token_standard := .Auto } first last
      chunk_size prefetched_logs = .ok (detection.standard, some detection.prefetched_logs) := by
    unfold source_standard
    rw [if_pos (show TokenStandard.Auto.is_auto = true from rfl)]
    show ((context _ (detect_token_standard_with_prefetched_logs keccak256 rpc
      source.contract_address first last chunk_size)).bind _) = _
    rw [hdetection]
    rfl
  -- and a source of that standard takes the logs it is given
  have hexplicit : source_standard keccak256 rpc { source with token_standard := detection.standard }
      first last chunk_size (some detection.prefetched_logs)
        = .ok (detection.standard, some detection.prefetched_logs) := by
    unfold source_standard TokenStandard.is_auto
    rw [beq_eq_false_iff_ne.2 hnot_auto]
    rfl
  unfold range_logs
  rw [hauto, hexplicit]

variable (parse_bytes) in
/-- The chunks and the detection change nothing. Under an explicit standard the decoded logs
of a range are the same for every chunk size, whether or not a chunk was fetched before. Under
`auto`, where the detection succeeds it finds the standard of the first log of the range that
is under the topics, and the decoded logs are those under that standard. -/
theorem chunking_changes_nothing (hdigest : LowerHex keccak256)
    (hrpc : ServesHistory keccak256 rpc history) (source : SourceRef) {first last : Nat}
    (hrange : first ≤ last) (hlast : last ≤ u64_max) :
    (source.token_standard ≠ .Auto → ∀ chunk_size chunk_size', 1 ≤ chunk_size → 1 ≤ chunk_size' →
      ∀ prefetched_logs : Option PrefetchedLogChunk, (∀ p ∈ prefetched_logs,
        p.FromChain keccak256 (history source.contract_address) source.token_standard) →
      range_logs keccak256 parse_bytes rpc source first last chunk_size prefetched_logs
        = range_logs keccak256 parse_bytes rpc source first last chunk_size' none) ∧
    (∀ chunk_size chunk_size', 1 ≤ chunk_size → 1 ≤ chunk_size' → ∀ detection,
      detect_token_standard_with_prefetched_logs keccak256 rpc source.contract_address first last
        chunk_size = .ok detection →
      (∃ log rest, history_logs keccak256 (history source.contract_address) .Auto first last
          = log :: rest ∧
        detect_token_standard_from_log keccak256 log = .ok (some detection.standard)) ∧
      ∀ prefetched_logs : Option PrefetchedLogChunk,
        range_logs keccak256 parse_bytes rpc { source with token_standard := .Auto } first last
            chunk_size prefetched_logs
          = range_logs keccak256 parse_bytes rpc
              { source with token_standard := detection.standard } first last chunk_size' none) := by
  have hnone : ∀ standard, ∀ p ∈ (none : Option PrefetchedLogChunk),
      p.FromChain keccak256 (history source.contract_address) standard :=
    fun _ p hp => absurd hp (Option.not_mem_none p)
  constructor
  · intro hexplicit chunk_size chunk_size' hsize hsize' prefetched_logs hprefetched
    rw [range_logs_explicit hrpc source hexplicit hrange hlast hsize hprefetched,
      range_logs_explicit hrpc source hexplicit hrange hlast hsize' (hnone _)]
  · intro chunk_size chunk_size' hsize hsize' detection hdetection
    obtain ⟨hnot_auto, hchunk, hfirst⟩ :=
      detect_token_standard_spec hdigest hrpc hlast hdetection
    refine ⟨hfirst, fun prefetched_logs => ?_⟩
    -- the chunk the detection prefetched is one of the chain
    have hprefetched : ∀ p ∈ some detection.prefetched_logs,
        p.FromChain keccak256 (history source.contract_address) detection.standard := by
      intro p hp
      rw [← Option.some.inj hp]
      exact hchunk
    rw [range_logs_auto hdetection hnot_auto prefetched_logs,
      range_logs_explicit hrpc { source with token_standard := detection.standard } hnot_auto hrange
        hlast hsize hprefetched,
      range_logs_explicit hrpc { source with token_standard := detection.standard } hnot_auto hrange
        hlast hsize' (hnone _)]

end Range

/-! ## Two logs in two chunks -/

/-- The chain with the logs of a mint and a transfer. -/
def two_log_rpc : ChainRpc :=
  { block_number := .ok 2
    code_at := fun _ _ => .ok "0x60"
    block_hash := fun _ => .error "no block"
    block_timestamp := fun block => .ok block
    logs := fun _ standard first last =>
      .ok (history_logs event_digest (mint_then_transfer.map (·.1)) standard first last)
    transaction_receipt := fun _ => .error "no receipt" }

theorem event_digest_lower : LowerHex event_digest := by
  intro signature
  unfold event_topic event_digest
  split
  · decide +kernel
  · split <;> decide +kernel

theorem two_log_rpc_serves : ServesHistory event_digest two_log_rpc fun _ => mint_then_transfer.map (·.1) := by
  refine ⟨fun _ _ _ _ => rfl, fun _ => List.pairwise_pair.2 ?_⟩
  intro m n hm hn
  have h1 : parse_hex_u64 "0x1" = .ok 1 := by decide +kernel
  have h2 : parse_hex_u64 "0x2" = .ok 2 := by decide +kernel
  have hm : m = 1 := Except.ok.inj (hm.symm.trans h1)
  have hn : n = 2 := Except.ok.inj (hn.symm.trans h2)
  omega

theorem chunking_changes_nothing_mint_then_transfer :
    range_logs event_digest parse_hex_digits two_log_rpc
        { small_source.from_source with token_standard := .Auto } 1 2 1 none
      = range_logs event_digest parse_hex_digits two_log_rpc small_source.from_source 1 2 2 none := by
  have hdetection : ∃ detection, detect_token_standard_with_prefetched_logs event_digest two_log_rpc
      small_source.contract_address 1 2 1 = .ok detection ∧ detection.standard = .Erc20 :=
    ⟨{ standard := .Erc20
       prefetched_logs := { «from» := 1, «to» := 1, logs := (mint_then_transfer.map (·.1)).take 1 } },
      by decide +kernel, rfl⟩
  obtain ⟨detection, hdetection, hstandard⟩ := hdetection
  have hsame := ((chunking_changes_nothing parse_hex_digits event_digest_lower two_log_rpc_serves
    small_source.from_source (show 1 ≤ 2 by decide) (by decide)).2 1 2 (by decide) (by decide) detection
    hdetection).2 none
  rw [hstandard] at hsame
  exact hsame

end EvmIndexer
